/-
SystemsProjects.Net.SimpleClient — simple_client.cpp and the system it is
part of: clients that call methods, connections that may fail anywhere,
and the workers of one KvServer over its store.

A method connects, sends one request and accepts one kind of response.
`nullopt` and `false` say nothing: the request may be refused, lost, or
performed with its response lost. `client_calls_linearizable` is what the
other results say: in every run, in whatever order calls are made,
connections served and responses read, one order of calls on the abstract
map explains every result, each call at most once in it and in the order
of time. An iteration of a worker (a request received, processed, answered)
is one step.
-/
import SystemsProjects.KvStore.Atomicity
import SystemsProjects.KvStore.SimpleMap
import SystemsProjects.Net.ServerLoop
import SystemsProjects.Net.Truncated

namespace SystemsProjects.Net

open SystemsProjects.Base
open SystemsProjects.KvStore (CppString KeyMap)
open SystemsProjects.KvStore.Simple (UnorderedMap program request_means)
open SystemsProjects.KvStore.Concurrent (mapStep)

/-! ## The client -/

/-- What a method returns other than `nullopt` and `false`. -/
inductive Value where
  | string (value : CppString)
  | strings (values : List CppString)
  | true
  deriving DecidableEq, Repr

/-- The request of a method, and the alternative of the response it
returns a value for. -/
structure Rpc where
  request : Request
  accept : Response → Option Value

namespace SimpleClient

def get (key : CppString) : Rpc where
  request := .get ⟨key⟩
  accept
    | .get res => some (.string res.value)
    | _ => none

def put (key value : CppString) : Rpc where
  request := .put ⟨key, value⟩
  accept
    | .put => some .true
    | _ => none

def append (key value : CppString) : Rpc where
  request := .append ⟨key, value⟩
  accept
    | .append => some .true
    | _ => none

def delete (key : CppString) : Rpc where
  request := .delete ⟨key⟩
  accept
    | .delete res => some (.string res.value)
    | _ => none

def multiGet (keys : List CppString) : Rpc where
  request := .multiGet ⟨keys⟩
  accept
    | .multiGet res => some (.strings res.values)
    | _ => none

def multiPut (keys values : List CppString) : Rpc where
  request := .multiPut ⟨keys, values⟩
  accept
    | .multiPut => some .true
    | _ => none

end SimpleClient

/-- The methods of a `SimpleClient`. -/
inductive Method where
  | get (key : CppString)
  | put (key value : CppString)
  | append (key value : CppString)
  | delete (key : CppString)
  | multiGet (keys : List CppString)
  | multiPut (keys values : List CppString)
  deriving DecidableEq, Repr

namespace Method

def rpc : Method → Rpc
  | .get key => SimpleClient.get key
  | .put key value => SimpleClient.put key value
  | .append key value => SimpleClient.append key value
  | .delete key => SimpleClient.delete key
  | .multiGet keys => SimpleClient.multiGet keys
  | .multiPut keys values => SimpleClient.multiPut keys values

/-- The request as the store gets it. -/
def storeRequest : Method → KvStore.Request
  | .get key => .get ⟨key⟩ ⟨[]⟩
  | .put key value => .put ⟨key, value⟩
  | .append key value => .append ⟨key, value⟩
  | .delete key => .delete ⟨key⟩ ⟨[]⟩
  | .multiGet keys => .multiGet ⟨keys⟩ ⟨[]⟩
  | .multiPut keys values => .multiPut ⟨keys, values⟩

end Method

/-- Up to the response: whether the request was sent, and what is on the
wire. -/
def Rpc.send (rpc : Rpc) (env : SendEnv) : Except Stop (Bool × Outgoing) :=
  ServerConn.send_request env rpc.request ⟨[], 0, 0⟩

/-- From there on; `none` is `nullopt` or `false`. -/
def Rpc.receive (rpc : Rpc) (env : RecvEnv) (inc : Incoming) : Except Stop (Option Value) :=
  match ServerConn.recv_response env inc with
  | .error e => .error e
  | .ok (none, _) => .ok none
  | .ok (some res, _) => .ok (rpc.accept res)

/-! ## The system -/

/-- The server, the calls, each on a connection of its own, and the two
ends of the connections. -/
structure Setup where
  server : KvServer
  calls : Nat → Method
  servers : Network
  clients : Network

/-- Where a call is; a client can be stopped while it sends. -/
inductive Phase where
  | idle
  | waiting
  | stopped
  | returned (value : Option Value)

/-- The server's side, what it has put on the wire, the calls, and which
calls had returned a value when another was made. -/
structure System where
  server : ServerState
  toClient : Nat → List UInt8
  phase : Nat → Phase
  seen : Nat → Set Nat

namespace System

/-- No call is made. -/
def initial (store : UnorderedMap) : System :=
  ⟨⟨⟨fun _ => store, fun _ => []⟩, fun _ => none⟩, fun _ => [], fun _ => .idle, fun _ => ∅⟩

/-- The calls that have returned a value. -/
def succeeded (s : System) : Set Nat := {i | ∃ v, s.phase i = .returned (some v)}

/-- Call `i` is made and comes to `phase`; the server has a connection
with the bytes `sent`. -/
def made (s : System) (i : Nat) (phase : Phase) (sent : List UInt8) : System :=
  { s with
    server := { s.server with
      conn := Function.update s.server.conn i (some ⟨⟨sent, 0, 0⟩, ⟨[], 0, 0⟩⟩) }
    phase := Function.update s.phase i phase
    seen := Function.update s.seen i s.succeeded }

end System

/-- One step of the system. -/
inductive SystemStep (setup : Setup) (s : System) : System → Prop
  /-- The connection is refused. -/
  | refused {i : Nat} (hi : s.phase i = .idle) :
    SystemStep setup s
      { s with phase := Function.update s.phase i (.returned none),
               seen := Function.update s.seen i s.succeeded }
  /-- A call is made and its request sent, or part of it. -/
  | send {i : Nat} {sent : Bool} {out : Outgoing} (hi : s.phase i = .idle)
    (hsend : (setup.calls i).rpc.send (setup.clients.sendEnv i) = .ok (sent, out)) :
    SystemStep setup s (s.made i (if sent then .waiting else .returned none) out.sent)
  /-- A signal or an assertion stops the client while it sends. -/
  | stop {i : Nat} {msg : Message} {bytes : List UInt8} (hi : s.phase i = .idle)
    (hmsg : serialize_request (setup.calls i).rpc.request = some msg)
    (hbytes : bytes <+: frame msg) :
    SystemStep setup s (s.made i .stopped bytes)
  /-- A worker of the server takes an open connection. The values its
  request asks for fit a message. -/
  | serve {worker i : Nat} {conn conn' : Conn} {ending : Ending} {store' : Store}
    (hconn : s.server.conn i = some conn) (hfew : AsksForFew setup.servers s.server i conn)
    (hiter : iteration setup.server (setup.servers.recvEnv i) (setup.servers.sendEnv i) worker
      conn s.server.store = .ok (ending, conn', store')) :
    SystemStep setup s
      { s with
        server := ⟨store', Function.update s.server.conn i
          (if ending = .closed then none else some conn')⟩
        toClient := Function.update s.toClient i conn'.out.sent }
  /-- A client reads what is there of its response. -/
  | receive {i : Nat} {value : Option Value} (hi : s.phase i = .waiting)
    (hrecv : (setup.calls i).rpc.receive (setup.clients.recvEnv i) ⟨s.toClient i, 0, 0⟩ =
      .ok value) :
    SystemStep setup s { s with phase := Function.update s.phase i (.returned value) }

/-- The states some run reaches. -/
def Setup.Reaches (setup : Setup) (store : UnorderedMap) (s : System) : Prop :=
  Relation.ReflTransGen (SystemStep setup) (System.initial store) s

/-! ## The purpose -/

/-- The answers of the map to an order of calls, and what it then is. -/
def Setup.performed (setup : Setup) (m : KeyMap) (order : List Nat) :
    List (Nat × KvStore.Answer) × KeyMap :=
  run (mapStep fun i => (setup.calls i).storeRequest) m order

/-- Call `i` returns `v` for the answer of the map at its place. -/
def Setup.Explained (setup : Setup) (m : KeyMap) (order : List Nat) (i : Nat) (v : Value) :
    Prop :=
  ∃ res, (i, ⟨true, res⟩) ∈ (setup.performed m order).1 ∧
    (setup.calls i).rpc.accept (.ofStore res) = some v

/-- An order of calls on the map that explains a state of the system. -/
structure Linearizes (setup : Setup) (m : KeyMap) (s : System) (order : List Nat) : Prop where
  nodup : order.Nodup
  made : ∀ i ∈ order, s.phase i ≠ .idle
  results : ∀ i v, s.phase i = .returned (some v) → setup.Explained m order i v
  realTime : ∀ i j, i ∈ s.seen j → j ∈ order → [i, j].Sublist order
  store : (s.server.store.val ()).toMap = (setup.performed m order).2

section

variable {setup : Setup} {m : KeyMap} {order : List Nat} {i : Nat} {v : Value}

theorem performed_append (setup : Setup) (m : KeyMap) (order : List Nat) (i : Nat) :
    setup.performed m (order ++ [i]) =
      ((setup.performed m order).1 ++
          [(i, ((setup.performed m order).2.apply (setup.calls i).storeRequest).1)],
        ((setup.performed m order).2.apply (setup.calls i).storeRequest).2) :=
  run_append_singleton _ m order i

theorem Setup.Explained.append (h : setup.Explained m order i v) (after : List Nat) :
    setup.Explained m (order ++ after) i v := by
  obtain ⟨res, hres, hv⟩ := h
  refine ⟨res, ?_, hv⟩
  rw [Setup.performed, run_append]
  exact List.mem_append_left _ hres

theorem Setup.Explained.mem_order (h : setup.Explained m order i v) : i ∈ order := by
  obtain ⟨res, hres, -⟩ := h
  unfold Setup.performed at hres
  induction order generalizing m with
  | nil => cases hres
  | cons j order ih =>
    rcases List.mem_cons.mp hres with he | hrest
    · exact List.mem_cons.mpr (.inl (congrArg Prod.fst he))
    · exact List.mem_cons_of_mem _ (ih hrest)

end

/-! ## One request at the server -/

theorem Method.forStore (method : Method) : method.rpc.request.ForStore := by
  cases method <;> exact trivial

theorem Method.accept_error (method : Method) (res : ErrorResponse) :
    method.rpc.accept (.error res) = none := by
  cases method <;> rfl

/-- A branch answers with an error and leaves the store, or does what the
map does and answers with its response or an error. -/
theorem handle_cases {worker : Nat} {responsible : Bool} {request : KvStore.Request}
    {notResponsible refused : String} {store store' : Store} {res : Response}
    (h : handle worker responsible request notResponsible refused store = some (res, store')) :
    (store' = store ∧ ∃ e, res = .error e) ∨
    ((store'.val ()).toMap = ((store.val ()).toMap.apply request).2 ∧
      ((∃ e, res = .error e) ∨
        ∃ r, ((store.val ()).toMap.apply request).1 = ⟨true, r⟩ ∧ res = .ofStore r)) := by
  unfold handle at h
  split at h
  · obtain ⟨reply, contents, heval, ⟨hreply, hmap⟩, -⟩ := request_means request (store.val ())
    have hval : ∀ {reply' s}, (program (.request request)).exec worker store = some (reply', s) →
        reply' = reply ∧ s.val () = contents := by
      intro reply' s hexec
      have hrun := (Prog.exec_val hexec).symm.trans heval
      exact ⟨congrArg Prod.fst hrun, congrFun (congrArg Prod.snd hrun) ()⟩
    right
    split at h
    · cases h
    · rename_i r s hexec
      obtain ⟨hr, hs⟩ := hval hexec
      cases h
      rw [hs, hmap]
      rw [hreply] at hr
      exact ⟨rfl, .inr ⟨r, (KvStore.Reply.answer.inj hr).symm, rfl⟩⟩
    · rename_i reply' s hnot hexec
      obtain ⟨hr, hs⟩ := hval hexec
      cases h
      rw [hs, hmap]
      exact ⟨rfl, .inl ⟨_, rfl⟩⟩
  · cases h
    exact .inl ⟨rfl, _, rfl⟩

/-- The request of a method, processed: what the method accepts is the
answer of the map. -/
theorem process_request_cases {server : KvServer} {worker : Nat} {method : Method}
    {store store' : Store} {res : Response}
    (h : process_request server worker method.rpc.request store = .ok (some (res, store'))) :
    (store' = store ∧ method.rpc.accept res = none) ∨
    ((store'.val ()).toMap = ((store.val ()).toMap.apply method.storeRequest).2 ∧
      ∀ v, method.rpc.accept res = some v → ∃ r,
        ((store.val ()).toMap.apply method.storeRequest).1 = ⟨true, r⟩ ∧
          method.rpc.accept (.ofStore r) = some v) := by
  have hcases : ∃ responsible notResponsible refused,
      handle worker responsible method.storeRequest notResponsible refused store =
        some (res, store') := by
    cases method with
    | get key => exact ⟨_, _, _, Except.ok.inj h⟩
    | put key value => exact ⟨_, _, _, Except.ok.inj h⟩
    | append key value => exact ⟨_, _, _, Except.ok.inj h⟩
    | delete key => exact ⟨_, _, _, Except.ok.inj h⟩
    | multiGet keys => exact ⟨_, _, _, Except.ok.inj h⟩
    | multiPut keys values => exact ⟨_, _, _, Except.ok.inj h⟩
  obtain ⟨responsible, notResponsible, refused, hhandle⟩ := hcases
  rcases handle_cases hhandle with ⟨rfl, e, rfl⟩ | ⟨hmap, ⟨e, rfl⟩ | ⟨r, hr, rfl⟩⟩
  · exact .inl ⟨rfl, method.accept_error e⟩
  · refine .inr ⟨hmap, fun v hv => ?_⟩
    rw [method.accept_error] at hv
    cases hv
  · exact .inr ⟨hmap, fun v hv => ⟨r, hr, hv⟩⟩

/-- A response to a request for values that fit a message fits. -/
theorem response_fits {server : KvServer} {worker : Nat} {method : Method}
    {store store' : Store} {res : Response}
    (hfew : method.rpc.request.valueBytes (store.val ()) < 2 ^ 32)
    (h : process_request server worker method.rpc.request store = .ok (some (res, store'))) :
    res.Fits := by
  have hservable : Servable server store method.rpc.request := by
    refine ⟨fun hresp => ?_, hfew⟩
    by_contra hheld
    rw [process_request_waits method.forStore hresp hheld worker] at h
    cases h
  obtain ⟨res', store₁, hanswered, hfits⟩ := hservable.answered method.forStore worker
  rw [hanswered] at h
  cases h
  exact hfits

/-! ## One iteration of a worker -/

/-- What an iteration on a connection that has read its request, or stands
before a beginning of it, has done. -/
inductive Served (server : KvServer) (worker : Nat) (method : Method) (conn : Conn)
    (store : Store) : Ending → Conn → Store → Prop
  | nothing {conn' : Conn} (hout : conn'.out = conn.out) :
    Served server worker method conn store .closed conn' store
  | waits {conn' : Conn} (hinc : conn'.inc.unread = []) (hout : conn'.out = conn.out) :
    Served server worker method conn store .waits conn' store
  | processed {ending : Ending} {conn' : Conn} {store' : Store} {res : Response}
    {sent : List UInt8} (hunread : conn.inc.unread ≠ []) (hinc : conn'.inc.unread = [])
    (hres : process_request server worker method.rpc.request store = .ok (some (res, store')))
    (hfits : res.Fits) (hout : conn'.out.sent = conn.out.sent ++ sent)
    (hsent : sent = [] ∨ ∃ msg, serialize_response res = some msg ∧ sent <+: frame msg) :
    Served server worker method conn store ending conn' store'

/-- A serialized request announces the size of its bytes. -/
theorem serialize_request_sized {req : Request} {msg : Message}
    (h : serialize_request req = some msg) : msg.sz = msg.buf.length := by
  cases req with
  | query => rw [pack_eq_some (a := ()) h]
  | join req | leave req | move req | get req | put req | append req | delete req | multiGet req
    | multiPut req => rw [pack_eq_some h]

/-- Before a beginning of its request a method's connection has this
request received, all of it, or nothing. -/
theorem recv_request_cases {env : RecvEnv} {method : Method} {inc inc' : Incoming}
    {req : Option Request} (hgrant : ∀ n, env.grants n = true)
    (hshort : ∀ msg, serialize_request method.rpc.request = some msg → msg.buf.length < 2 ^ 32)
    (hunread : inc.unread = [] ∨
      ∃ msg, serialize_request method.rpc.request = some msg ∧ inc.unread <+: frame msg)
    (h : ClientConn.recv_request env inc = .ok (req, inc')) :
    req = none ∨ (req = some method.rpc.request ∧ inc.unread ≠ [] ∧ inc'.unread = []) := by
  rcases hunread with hempty | ⟨msg, hmsg, hstart⟩
  · exact .inl (recvItem_empty hempty h)
  · exact recvItem_prefix (serialize_request_sized hmsg) (hshort msg hmsg)
      (deserialize_serialize_request hgrant hmsg (hshort msg hmsg)) hstart h

/-- A response sent, or not: a beginning of its frame is on the wire. -/
theorem send_response_prefix {env : SendEnv} {res : Response} {out out' : Outgoing} {sent : Bool}
    (hfits : res.Fits) (h : ClientConn.send_response env res out = .ok (sent, out')) :
    ∃ bytes, out'.sent = out.sent ++ bytes ∧
      (bytes = [] ∨ ∃ msg, serialize_response res = some msg ∧ bytes <+: frame msg) := by
  cases hmsg : serialize_response res with
  | none =>
    unfold ClientConn.send_response sendItem at h
    rw [hmsg] at h
    cases h
    exact ⟨[], (List.append_nil _).symm, .inl rfl⟩
  | some msg =>
    obtain ⟨bytes, hbytes, hsent⟩ := sendItem_prefix hmsg (hfits msg hmsg) h
    exact ⟨bytes, hsent, .inr ⟨msg, rfl, hbytes⟩⟩

theorem served_of_iteration {server : KvServer} {recvEnv : RecvEnv} {sendEnv : SendEnv}
    {worker : Nat} {method : Method} {conn conn' : Conn} {store store' : Store} {ending : Ending}
    (hgrant : ∀ n, recvEnv.grants n = true)
    (hshort : ∀ msg, serialize_request method.rpc.request = some msg → msg.buf.length < 2 ^ 32)
    (hunread : conn.inc.unread = [] ∨
      ∃ msg, serialize_request method.rpc.request = some msg ∧ conn.inc.unread <+: frame msg)
    (hfew : ∀ msg inc req, recv_message recvEnv messageTimeout conn.inc = .ok (some msg, inc) →
      deserialize_request recvEnv msg = .ok (some req) → req.valueBytes (store.val ()) < 2 ^ 32)
    (h : iteration server recvEnv sendEnv worker conn store = .ok (ending, conn', store')) :
    Served server worker method conn store ending conn' store' := by
  have hcases : ∀ req inc', ClientConn.recv_request recvEnv conn.inc = .ok (req, inc') →
      req = none ∨ (req = some method.rpc.request ∧ conn.inc.unread ≠ [] ∧ inc'.unread = []) :=
    fun _ _ hrecv => recv_request_cases hgrant hshort hunread hrecv
  unfold iteration at h
  split at h
  · cases h
  · cases h
    exact .nothing rfl
  · rename_i req inc hrecv
    obtain ⟨he, hne, hempty⟩ := (hcases _ _ hrecv).resolve_left (fun he => nomatch he)
    cases he
    have hbytes : method.rpc.request.valueBytes (store.val ()) < 2 ^ 32 := by
      unfold ClientConn.recv_request recvItem at hrecv
      split at hrecv
      · cases hrecv
      · cases hrecv
      · rename_i msg inc₁ hmessage
        split at hrecv
        · cases hrecv
        · rename_i item hitem
          cases hrecv
          exact hfew msg _ _ hmessage hitem
    split at h
    · cases h
    · cases h
      exact .waits hempty rfl
    · rename_i res store₁ hres
      have hfits := response_fits hbytes hres
      split at h
      · cases h
      · rename_i out hsend
        cases h
        obtain ⟨bytes, hout, hsent⟩ := send_response_prefix hfits hsend
        exact .processed hne hempty hres hfits hout hsent
      · rename_i out hsend
        cases h
        obtain ⟨bytes, hout, hsent⟩ := send_response_prefix hfits hsend
        exact .processed hne hempty hres hfits hout hsent

/-! ## The invariant -/

/-- The messages of all calls are below 2^32 bytes, and the allocator
grants what is asked of it. -/
structure Setup.Trusted (setup : Setup) : Prop where
  short : ∀ i msg, serialize_request (setup.calls i).rpc.request = some msg →
    msg.buf.length < 2 ^ 32
  serverGrants : ∀ i n, (setup.servers.recvEnv i).grants n = true
  clientGrants : ∀ i n, (setup.clients.recvEnv i).grants n = true

/-- What the server has put on the wire to call `i`: nothing, or a
beginning of a response of which the call accepts only what is explained. -/
def Setup.Answering (setup : Setup) (m : KeyMap) (order : List Nat) (i : Nat)
    (sent : List UInt8) : Prop :=
  sent = [] ∨ ∃ res msg, serialize_response res = some msg ∧ msg.buf.length < 2 ^ 32 ∧
    sent <+: frame msg ∧
    ∀ v, (setup.calls i).rpc.accept res = some v → setup.Explained m order i v

/-- The server has nothing of call `i` to read, or a beginning of its
request, which it has not performed. -/
def Setup.Asking (setup : Setup) (order : List Nat) (s : System) (i : Nat)
    (unread : List UInt8) : Prop :=
  unread = [] ∨ i ∉ order ∧ s.toClient i = [] ∧
    ∃ msg, serialize_request (setup.calls i).rpc.request = some msg ∧ unread <+: frame msg

structure SystemInv (setup : Setup) (m : KeyMap) (s : System) (order : List Nat) : Prop where
  idle : ∀ i, s.phase i = .idle →
    s.server.conn i = none ∧ s.toClient i = [] ∧ i ∉ order
  out : ∀ i conn, s.server.conn i = some conn → conn.out.sent = s.toClient i
  inc : ∀ i conn, s.server.conn i = some conn → setup.Asking order s i conn.inc.unread
  toClient : ∀ i, setup.Answering m order i (s.toClient i)
  returned : ∀ i v, s.phase i = .returned (some v) → setup.Explained m order i v
  nodup : order.Nodup
  realTime : ∀ i j, i ∈ s.seen j → i ∈ order ∧ (j ∈ order → [i, j].Sublist order)
  store : (s.server.store.val ()).toMap = (setup.performed m order).2

section

variable {setup : Setup} {m : KeyMap} {store : UnorderedMap} {s s' : System} {order : List Nat}
  {i : Nat}

theorem systemInv_initial (setup : Setup) (store : UnorderedMap) :
    SystemInv setup store.toMap (.initial store) [] where
  idle := fun _ _ => ⟨rfl, rfl, List.not_mem_nil⟩
  out := fun _ _ h => nomatch h
  inc := fun _ _ h => nomatch h
  toClient := fun _ => .inl rfl
  returned := fun _ _ h => nomatch h
  nodup := List.nodup_nil
  realTime := fun _ _ h => absurd h (Set.notMem_empty _)
  store := rfl

/-- The calls seen by a call that is made now. -/
theorem SystemInv.seen_made (h : SystemInv setup m s order) (hi : s.phase i = .idle) (j k : Nat)
    (hjk : j ∈ Function.update s.seen i s.succeeded k) :
    j ∈ order ∧ (k ∈ order → [j, k].Sublist order) := by
  by_cases hki : k = i
  · subst hki
    rw [Function.update_self] at hjk
    obtain ⟨v, hv⟩ := hjk
    exact ⟨(h.returned j v hv).mem_order, fun hk => absurd hk (h.idle k hi).2.2⟩
  · rw [Function.update_of_ne hki] at hjk
    exact h.realTime j k hjk

theorem SystemInv.refused (h : SystemInv setup m s order) (hi : s.phase i = .idle) :
    SystemInv setup m
      { s with phase := Function.update s.phase i (.returned none),
               seen := Function.update s.seen i s.succeeded } order where
  idle := by
    intro j hj
    by_cases hji : j = i
    · subst hji
      simp at hj
    · exact h.idle j (by simpa [hji] using hj)
  out := h.out
  inc := h.inc
  toClient := h.toClient
  returned := by
    intro j v hj
    by_cases hji : j = i
    · subst hji
      simp at hj
    · exact h.returned j v (by simpa [hji] using hj)
  nodup := h.nodup
  realTime := h.seen_made hi
  store := h.store

/-- A call is made and not yet performed. -/
theorem SystemInv.made (h : SystemInv setup m s order) (hi : s.phase i = .idle) {phase : Phase}
    (hphase : phase ≠ .idle ∧ ∀ v, phase ≠ .returned (some v)) {sent : List UInt8}
    (hsent : sent = [] ∨
      ∃ msg, serialize_request (setup.calls i).rpc.request = some msg ∧ sent <+: frame msg) :
    SystemInv setup m (s.made i phase sent) order where
  idle := by
    intro j hj
    by_cases hji : j = i
    · subst hji
      exact absurd (by simpa [System.made] using hj) hphase.1
    · simpa [System.made, hji] using h.idle j (by simpa [System.made, hji] using hj)
  out := by
    intro j conn hj
    by_cases hji : j = i
    · subst hji
      simp only [System.made, Function.update_self, Option.some.injEq] at hj ⊢
      rw [← hj, (h.idle j hi).2.1]
    · exact h.out j conn (by simpa [System.made, hji] using hj)
  inc := by
    intro j conn hj
    by_cases hji : j = i
    · subst hji
      simp only [System.made, Function.update_self, Option.some.injEq] at hj
      rw [← hj]
      obtain ⟨-, hto, hnew⟩ := h.idle j hi
      exact hsent.imp id fun hmsg => ⟨hnew, hto, hmsg⟩
    · exact h.inc j conn (by simpa [System.made, hji] using hj)
  toClient := h.toClient
  returned := by
    intro j v hj
    by_cases hji : j = i
    · subst hji
      exact absurd (by simpa [System.made] using hj) (hphase.2 v)
    · exact h.returned j v (by simpa [System.made, hji] using hj)
  nodup := h.nodup
  realTime := h.seen_made hi
  store := h.store

/-- A worker has served call `i`, and perhaps performed it. -/
theorem SystemInv.served (h : SystemInv setup m s order) (hi : s.phase i ≠ .idle)
    {conn' : Option Conn} {sent : List UInt8} {store' : Store} {after : List Nat}
    (hconn : ∀ conn, conn' = some conn → conn.inc.unread = [] ∧ conn.out.sent = sent)
    (hafter : after = [] ∨ after = [i] ∧ i ∉ order)
    (hsent : setup.Answering m (order ++ after) i sent)
    (hstore : (store'.val ()).toMap = (setup.performed m (order ++ after)).2) :
    SystemInv setup m
      { s with server := ⟨store', Function.update s.server.conn i conn'⟩,
               toClient := Function.update s.toClient i sent } (order ++ after) where
  idle := by
    intro j hj
    have hji : j ≠ i := fun he => hi (he ▸ hj)
    obtain ⟨hc, hto, hmem⟩ := h.idle j hj
    refine ⟨by simpa [hji] using hc, by simpa [hji] using hto, fun hnew => ?_⟩
    rcases List.mem_append.mp hnew with hold | hlast
    · exact hmem hold
    · rcases hafter with rfl | ⟨rfl, -⟩
      · cases hlast
      · exact hji (List.mem_singleton.mp hlast)
  out := by
    intro j conn hj
    by_cases hji : j = i
    · subst hji
      simp only [Function.update_self] at hj ⊢
      exact (hconn conn hj).2
    · simpa [hji] using h.out j conn (by simpa [hji] using hj)
  inc := by
    intro j conn hj
    by_cases hji : j = i
    · subst hji
      simp only [Function.update_self] at hj
      exact .inl (hconn conn hj).1
    · refine (h.inc j conn (by simpa [hji] using hj)).imp id fun hask => ?_
      obtain ⟨hmem, hto, hmsg⟩ := hask
      refine ⟨fun hnew => ?_, by simpa [hji] using hto, hmsg⟩
      rcases List.mem_append.mp hnew with hold | hlast
      · exact hmem hold
      · rcases hafter with rfl | ⟨rfl, -⟩
        · cases hlast
        · exact hji (List.mem_singleton.mp hlast)
  toClient := by
    intro j
    by_cases hji : j = i
    · subst hji
      simpa using hsent
    · simp only [Function.update_of_ne hji]
      refine (h.toClient j).imp id fun hans => ?_
      obtain ⟨res, msg, hmsg, hlen, hstart, hv⟩ := hans
      exact ⟨res, msg, hmsg, hlen, hstart, fun v hacc => (hv v hacc).append after⟩
  returned := fun j v hj => (h.returned j v hj).append after
  nodup := by
    rcases hafter with rfl | ⟨rfl, hnew⟩
    · rw [List.append_nil]
      exact h.nodup
    · exact List.nodup_append.mpr ⟨h.nodup, List.nodup_singleton i, fun a ha b hb => by
        rw [List.mem_singleton.mp hb]
        exact fun he => hnew (he ▸ ha)⟩
  realTime := by
    intro j k hjk
    obtain ⟨hj, hsub⟩ := h.realTime j k hjk
    refine ⟨List.mem_append_left _ hj, fun hk => ?_⟩
    rcases List.mem_append.mp hk with hold | hlast
    · exact (hsub hold).trans (List.sublist_append_left _ _)
    · exact (List.singleton_sublist.mpr hj).append (List.singleton_sublist.mpr hlast)
  store := hstore

theorem SystemInv.serve (h : SystemInv setup m s order) (ht : setup.Trusted) {worker : Nat}
    {conn conn' : Conn} {ending : Ending} {store' : Store} (hconn : s.server.conn i = some conn)
    (hfew : AsksForFew setup.servers s.server i conn)
    (hiter : iteration setup.server (setup.servers.recvEnv i) (setup.servers.sendEnv i) worker
      conn s.server.store = .ok (ending, conn', store')) :
    ∃ order', SystemInv setup m
      { s with
        server := ⟨store', Function.update s.server.conn i
          (if ending = .closed then none else some conn')⟩
        toClient := Function.update s.toClient i conn'.out.sent } order' := by
  have hi : s.phase i ≠ .idle := by
    intro hidle
    rw [(h.idle i hidle).1] at hconn
    cases hconn
  have hask := h.inc i conn hconn
  have hout := h.out i conn hconn
  have hserved := served_of_iteration (ht.serverGrants i) (ht.short i)
    (hask.imp id fun hmsg => hmsg.2.2) hfew hiter
  cases hserved with
  | nothing hsame =>
    refine ⟨order ++ [], h.served hi ?_ (.inl rfl) ?_ ?_⟩
    · intro c hc
      cases hc
    · rw [hsame, hout, List.append_nil]
      exact h.toClient i
    · rw [List.append_nil]
      exact h.store
  | waits hempty hsame =>
    refine ⟨order ++ [], h.served hi ?_ (.inl rfl) ?_ ?_⟩
    · intro c hc
      cases hc
      exact ⟨hempty, rfl⟩
    · rw [hsame, hout, List.append_nil]
      exact h.toClient i
    · rw [List.append_nil]
      exact h.store
  | processed hne hempty hres hfits hsent hbytes =>
    rename_i res bytes
    obtain ⟨hnew, hto, -⟩ := hask.resolve_left hne
    rw [hout, hto, List.nil_append] at hsent
    have hopen : ∀ c, (if ending = .closed then none else some conn') = some c →
        c.inc.unread = [] ∧ c.out.sent = conn'.out.sent := by
      intro c hc
      split at hc
      · cases hc
      · cases hc
        exact ⟨hempty, rfl⟩
    have hanswering : ∀ order', (∀ v, (setup.calls i).rpc.accept res = some v →
        setup.Explained m order' i v) → setup.Answering m order' i conn'.out.sent := by
      intro order' hv
      rw [hsent]
      refine hbytes.imp id fun hmsg => ?_
      obtain ⟨msg, hmsg, hstart⟩ := hmsg
      exact ⟨res, msg, hmsg, hfits msg hmsg, hstart, hv⟩
    rcases process_request_cases hres with ⟨rfl, hnone⟩ | ⟨hmap, hv⟩
    · refine ⟨order ++ [], h.served hi hopen (.inl rfl) (hanswering _ fun v hacc => ?_) ?_⟩
      · rw [hnone] at hacc
        cases hacc
      · rw [List.append_nil]
        exact h.store
    · refine ⟨order ++ [i], h.served hi hopen (.inr ⟨rfl, hnew⟩)
        (hanswering _ fun v hacc => ?_) ?_⟩
      · obtain ⟨r, hr, haccept⟩ := hv v hacc
        refine ⟨r, ?_, haccept⟩
        rw [performed_append, ← h.store, hr]
        exact List.mem_append_right _ List.mem_cons_self
      · rw [performed_append, ← h.store]
        exact hmap

/-- What a client makes of a beginning of its response. -/
theorem receive_explained (ht : setup.Trusted) {sent : List UInt8}
    (hsent : setup.Answering m order i sent) {value : Option Value}
    (hrecv : (setup.calls i).rpc.receive (setup.clients.recvEnv i) ⟨sent, 0, 0⟩ = .ok value) :
    ∀ v, value = some v → setup.Explained m order i v := by
  intro v hv
  unfold Rpc.receive at hrecv
  split at hrecv
  · cases hrecv
  · cases hrecv
    cases hv
  · rename_i res' inc' hres
    rcases hsent with hempty | ⟨res, msg, hmsg, hlen, hstart, hans⟩
    · cases recvItem_empty hempty hres
    · rcases recvItem_prefix (serialize_response_sized hmsg) hlen
        (deserialize_serialize_response (ht.clientGrants i) hmsg hlen) hstart hres with
        hnone | ⟨hsome, -⟩
      · cases hnone
      · cases hsome
        cases hrecv
        exact hans v hv

theorem SystemInv.receive (h : SystemInv setup m s order) (ht : setup.Trusted)
    {value : Option Value} (hi : s.phase i = .waiting)
    (hrecv : (setup.calls i).rpc.receive (setup.clients.recvEnv i) ⟨s.toClient i, 0, 0⟩ =
      .ok value) :
    SystemInv setup m { s with phase := Function.update s.phase i (.returned value) } order where
  idle := by
    intro j hj
    by_cases hji : j = i
    · subst hji
      simp at hj
    · exact h.idle j (by simpa [hji] using hj)
  out := h.out
  inc := h.inc
  toClient := h.toClient
  returned := by
    intro j v hj
    by_cases hji : j = i
    · subst hji
      simp only [Function.update_self, Phase.returned.injEq] at hj
      exact receive_explained ht (h.toClient j) hrecv v hj
    · exact h.returned j v (by simpa [hji] using hj)
  nodup := h.nodup
  realTime := h.realTime
  store := h.store

/-! ## Linearizability -/

theorem SystemInv.step (ht : setup.Trusted) (h : ∃ order, SystemInv setup m s order)
    (hstep : SystemStep setup s s') : ∃ order, SystemInv setup m s' order := by
  obtain ⟨order, h⟩ := h
  cases hstep with
  | refused hi => exact ⟨order, h.refused hi⟩
  | send hi hsend =>
    rename_i i sent out
    refine ⟨order, h.made hi ?_ ?_⟩
    · cases sent with
      | true => exact ⟨(fun he => nomatch he), fun _ he => nomatch he⟩
      | false => exact ⟨(fun he => nomatch he), fun _ he => nomatch he⟩
    · cases hmsg : serialize_request (setup.calls i).rpc.request with
      | none =>
        unfold Rpc.send ServerConn.send_request sendItem at hsend
        rw [hmsg] at hsend
        cases hsend
        exact .inl rfl
      | some msg =>
        obtain ⟨bytes, hbytes, hout⟩ := sendItem_prefix hmsg (ht.short i msg hmsg) hsend
        rw [hout]
        exact .inr ⟨msg, rfl, hbytes⟩
  | stop hi hmsg hbytes =>
    have hphase : Phase.stopped ≠ .idle ∧ ∀ v, Phase.stopped ≠ .returned (some v) :=
      ⟨(fun he => nomatch he), fun _ he => nomatch he⟩
    exact ⟨order, h.made hi hphase (.inr ⟨_, hmsg, hbytes⟩)⟩
  | serve hconn hfew hiter => exact h.serve ht hconn hfew hiter
  | receive hi hrecv => exact ⟨order, h.receive ht hi hrecv⟩

theorem SystemInv.linearizes (h : SystemInv setup m s order) : Linearizes setup m s order where
  nodup := h.nodup
  made := fun i hmem hi => (h.idle i hi).2.2 hmem
  results := h.returned
  realTime := fun i j hij hj => (h.realTime i j hij).2 hj
  store := h.store

/-- **The calls of all clients are linearizable**: whatever fails on the
connections, at whichever call, every value a method returned is the
answer of the abstract map at the call's place in one order, no call is
performed twice, the order is that of time, and the store means the map
it leads to. -/
theorem client_calls_linearizable (ht : setup.Trusted) (hreach : setup.Reaches store s) :
    ∃ order, Linearizes setup store.toMap s order := by
  have hinv : ∃ order, SystemInv setup store.toMap s order := by
    induction hreach with
    | refl => exact ⟨[], systemInv_initial setup store⟩
    | tail _ hstep ih => exact SystemInv.step ht ih hstep
  obtain ⟨order, h⟩ := hinv
  exact ⟨order, h.linearizes⟩

end

/-- A new server, a client that puts "v" under the key "k" and one that
gets it, byte by byte. -/
def twoSetup : Setup where
  server := aloneServer
  calls i := if i = 0 then .put [107] [118] else .get [107]
  servers := trickle
  clients := trickle

def putMessage : Message := ⟨MessageType.put.value, 10, [1, 0, 0, 0, 107, 1, 0, 0, 0, 118]⟩

def getMessage : Message := ⟨MessageType.get.value, 5, [1, 0, 0, 0, 107]⟩

theorem trusted_twoSetup : twoSetup.Trusted where
  short := by
    intro i msg hmsg
    by_cases hi : i = 0
    · have hput : serialize_request (twoSetup.calls i).rpc.request = some putMessage := by
        rw [hi]
        rfl
      rw [hput] at hmsg
      cases hmsg
      decide
    · have hcall : twoSetup.calls i = .get [107] := if_neg hi
      have hget : serialize_request (twoSetup.calls i).rpc.request = some getMessage := by
        rw [hcall]
        rfl
      rw [hget] at hmsg
      cases hmsg
      decide
  serverGrants := fun _ _ => rfl
  clientGrants := fun _ _ => rfl

/-- The response to the `Get`. -/
def valueMessage : Message := ⟨MessageType.get.value, 5, [1, 0, 0, 0, 118]⟩

/-- The store after the `Put`. -/
def putStore : Store := ⟨fun _ => [([107], [118])], fun _ => []⟩

/-- The connection of a client that has sent a message. -/
def connWith (msg : Message) : Conn := ⟨⟨frame msg, 0, 0⟩, ⟨[], 0, 0⟩⟩

theorem asksForFew_of {msg : Message} {req : Request} {inc : Incoming} {i : Nat} {s : ServerState}
    (hmessage : recv_message trickleIn messageTimeout (connWith msg).inc = .ok (some msg, inc))
    (hrequest : deserialize_request trickleIn msg = .ok (some req))
    (hfew : req.valueBytes (s.store.val ()) < 2 ^ 32) :
    AsksForFew trickle s i (connWith msg) := by
  intro msg' inc' req' hrecv hreq
  cases hmessage.symm.trans hrecv
  cases hrequest.symm.trans hreq
  exact hfew

/-- The `Put` is over before the server has served it, and `false`; it is
performed, and the `Get` returns its value. -/
theorem client_calls_linearizable_late :
    ∃ s order, s.phase 0 = .returned none ∧ s.phase 1 = .returned (some (.string [118])) ∧
      Linearizes twoSetup (UnorderedMap.toMap []) s order := by
  have hput : (twoSetup.calls 0).rpc.send (twoSetup.clients.sendEnv 0) =
      .ok (true, ⟨frame putMessage, 22, 10⟩) := rfl
  have hputRecv : recv_message trickleIn messageTimeout ⟨frame putMessage, 0, 0⟩ =
      .ok (some putMessage, ⟨[], 22, 10⟩) := rfl
  have hputRequest : deserialize_request trickleIn putMessage =
      .ok (some (.put ⟨[107], [118]⟩)) := rfl
  have hearly : (twoSetup.calls 0).rpc.receive (twoSetup.clients.recvEnv 0) ⟨[], 0, 0⟩ =
      .ok none := rfl
  have hstored : iteration aloneServer trickleIn trickleOut 0 (connWith putMessage)
      ⟨fun _ => [], fun _ => []⟩ = .ok (.responded,
        ⟨⟨[], 22, 10⟩, ⟨frame ⟨MessageType.put.value, 0, []⟩, 12, 0⟩⟩, putStore) := rfl
  have hget : (twoSetup.calls 1).rpc.send (twoSetup.clients.sendEnv 1) =
      .ok (true, ⟨frame getMessage, 17, 5⟩) := rfl
  have hgetRecv : recv_message trickleIn messageTimeout ⟨frame getMessage, 0, 0⟩ =
      .ok (some getMessage, ⟨[], 17, 5⟩) := rfl
  have hgetRequest : deserialize_request trickleIn getMessage = .ok (some (.get ⟨[107]⟩)) := rfl
  have hanswered : iteration aloneServer trickleIn trickleOut 0 (connWith getMessage) putStore =
      .ok (.responded, ⟨⟨[], 17, 5⟩, ⟨frame valueMessage, 17, 5⟩⟩, putStore) := rfl
  have hvalue : (twoSetup.calls 1).rpc.receive (twoSetup.clients.recvEnv 1)
      ⟨frame valueMessage, 0, 0⟩ = .ok (some (.string [118])) := rfl
  have hreach : twoSetup.Reaches [] _ :=
    Relation.ReflTransGen.single (.send rfl hput)
      |>.tail (.receive (i := 0) rfl hearly)
      |>.tail (.serve (i := 0) rfl (asksForFew_of hputRecv hputRequest (by decide)) hstored)
      |>.tail (.send (i := 1) rfl hget)
      |>.tail (.serve (i := 1) rfl (asksForFew_of hgetRecv hgetRequest (by decide)) hanswered)
      |>.tail (.receive (i := 1) rfl hvalue)
  obtain ⟨order, h⟩ := client_calls_linearizable trusted_twoSetup hreach
  exact ⟨_, order, rfl, rfl, h⟩

end SystemsProjects.Net
