/-
SystemsProjects.Net.ServerLoop — KvServer::work_loop and process_request
(server/server.cpp): the iterations of the workers over the connections of
many clients and the one store they share.

An iteration receives a request, processes it and sends the response, or
closes the connection. Each layer has its own way to fail: the framing
returns `false`, the deserializer returns nothing or throws, the dispatch
throws on requests meant for the shardcontroller, the store keeps its
mutex on an early return, and the payload is sent without `MSG_NOSIGNAL`.
Nothing in work_loop catches an exception.

`server_ends_iterations` names the condition under which the iterations of
a run all end as they should; `unknown_type_stops_server` is one message
on which the process stops.
-/
import SystemsProjects.KvStore.SimpleKvStore
import SystemsProjects.Net.Framing

namespace SystemsProjects.Net

open SystemsProjects.Base
open SystemsProjects.KvStore (CppString)
open SystemsProjects.KvStore.Simple (UnorderedMap storeSpec program)

/-! ## Processing a request -/

/-- The bytes of a string literal. -/
def text (s : String) : CppString := s.toList.map fun c => UInt8.ofNat c.toNat

/-- The fields of a `KvServer` that requests are checked against. -/
structure KvServer where
  address : CppString
  shardcontroller_address : CppString
  config : ShardControllerConfig

/-- `ShardControllerConfig::get_server`, which no configuration answers
yet. -/
def get_server (_config : ShardControllerConfig) (_key : CppString) : Option CppString := none

namespace KvServer

variable (server : KvServer)

def responsible_for (key : CppString) : Bool :=
  server.shardcontroller_address.isEmpty ||
    match get_server server.config key with
    | none => false
    | some address => address = server.address

def responsible_for_keys (keys : List CppString) : Bool :=
  server.shardcontroller_address.isEmpty ||
    keys.all fun k =>
      match get_server server.config k with
      | none => false
      | some address => address = server.address

end KvServer

/-- The store the workers share. -/
abbrev Store := Memory storeSpec Unit Nat

/-- A response the store filled in. -/
def Response.ofStore : KvStore.Response → Response
  | .get res => .get res
  | .put => .put
  | .append => .append
  | .delete res => .delete res
  | .multiGet res => .multiGet res
  | .multiPut => .multiPut

/-- One branch of `process_request`: the store's response, or an error.
`none` when the store's mutex is not free, which is waited for. -/
def handle (worker : Nat) (responsible : Bool) (request : KvStore.Request)
    (notResponsible refused : String) (store : Store) : Option (Response × Store) :=
  if responsible then
    match (program (.request request)).exec worker store with
    | none => none
    | some (.answer ⟨true, res⟩, store) => some (.ofStore res, store)
    | some (_, store) => some (.error ⟨text refused⟩, store)
  else some (.error ⟨text notResponsible⟩, store)

def process_request (server : KvServer) (worker : Nat) (req : Request) (store : Store) :
    Except Stop (Option (Response × Store)) :=
  match req with
  | .get req =>
    .ok (handle worker (server.responsible_for req.key) (.get req ⟨[]⟩)
      "server not responsible for key" "key does not exist in the KVStore" store)
  | .put req =>
    .ok (handle worker (server.responsible_for req.key) (.put req)
      "server not responsible for key" "internal KVStore error" store)
  | .append req =>
    .ok (handle worker (server.responsible_for req.key) (.append req)
      "server not responsible for key" "internal KVStore error" store)
  | .delete req =>
    .ok (handle worker (server.responsible_for req.key) (.delete req ⟨[]⟩)
      "server not responsible for key" "key does not exist in the KVStore" store)
  | .multiGet req =>
    .ok (handle worker (server.responsible_for_keys req.keys) (.multiGet req ⟨[]⟩)
      "server not responsible for key(s)" "key(s) do not exist in the KVStore" store)
  | .multiPut req =>
    .ok (handle worker (server.responsible_for_keys req.keys) (.multiPut req)
      "server not responsible for key(s)" "internal KVStore error" store)
  | .join _ | .leave _ | .move _ | .query => .error (.exception (.logicError "invalid variant!"))

/-! ## One iteration -/

/-- The two directions of a client's connection. -/
structure Conn where
  inc : Incoming
  out : Outgoing

inductive Ending where
  | responded
  | closed
  | waits
  deriving DecidableEq, Repr

/-- One iteration of the inner loop of `work_loop` on a connection. -/
def iteration (server : KvServer) (recvEnv : RecvEnv) (sendEnv : SendEnv) (worker : Nat)
    (conn : Conn) (store : Store) : Except Stop (Ending × Conn × Store) :=
  match ClientConn.recv_request recvEnv conn.inc with
  | .error e => .error e
  | .ok (none, inc) => .ok (.closed, { conn with inc := inc }, store)
  | .ok (some req, inc) =>
    match process_request server worker req store with
    | .error e => .error e
    | .ok none => .ok (.waits, { conn with inc := inc }, store)
    | .ok (some (res, store)) =>
      match ClientConn.send_response sendEnv res conn.out with
      | .error e => .error e
      | .ok (true, out) => .ok (.responded, ⟨inc, out⟩, store)
      | .ok (false, out) => .ok (.closed, ⟨inc, out⟩, store)

/-! ## Runs of the server -/

/-- The store and the open connections. -/
structure ServerState where
  store : Store
  conn : Nat → Option Conn

/-- The operating system, for each connection. -/
structure Network where
  recvEnv : Nat → RecvEnv
  sendEnv : Nat → SendEnv

/-- Iterations of any workers on any open connections, in any order, each
in a state that satisfies `guard`, and how they ended. -/
inductive Serves (server : KvServer) (net : Network) (guard : ServerState → Nat → Conn → Prop)
    (s₀ : ServerState) : List Ending → ServerState → Prop
  | start : Serves server net guard s₀ [] s₀
  | iterate {endings : List Ending} {s : ServerState} {worker c : Nat} {conn conn' : Conn}
    {ending : Ending} {store' : Store} :
    Serves server net guard s₀ endings s → s.conn c = some conn → guard s c conn →
    iteration server (net.recvEnv c) (net.sendEnv c) worker conn s.store =
      .ok (ending, conn', store') →
    Serves server net guard s₀ (endings ++ [ending])
      ⟨store', Function.update s.conn c (if ending = .closed then none else some conn')⟩

/-- A worker that takes the connection sends a response or closes it. -/
def EndsIteration (server : KvServer) (net : Network) (s : ServerState) (c : Nat)
    (conn : Conn) : Prop :=
  ∀ worker, ∃ ending conn' store',
    iteration server (net.recvEnv c) (net.sendEnv c) worker conn s.store =
      .ok (ending, conn', store') ∧ ending ≠ .waits

/-! ## The condition -/

/-- Reading the payload throws nothing: the allocator grants the sizes it
announces. -/
def Decodes {α : Type} {env : RecvEnv} (f : Format (alloc env) α) (msg : Message) : Prop :=
  ∃ item, f.decode msg.buf = .ok item

/-- The payload is refused. -/
def Refused {α : Type} {env : RecvEnv} (f : Format (alloc env) α) (msg : Message) : Prop :=
  f.decode msg.buf = .ok none

/-- A request to a `KvServer` whose payload is read without an exception,
or one to the shardcontroller whose payload is refused. -/
def Benign (env : RecvEnv) (msg : Message) : Prop :=
  match MessageType.ofValue msg.type with
  | some .get => Decodes (getRequest (alloc env)) msg
  | some .put => Decodes (putRequest (alloc env)) msg
  | some .append => Decodes (appendRequest (alloc env)) msg
  | some .delete => Decodes (deleteRequest (alloc env)) msg
  | some .multiGet => Decodes (multiGetRequest (alloc env)) msg
  | some .multiPut => Decodes (multiPutRequest (alloc env)) msg
  | some .join => Refused (joinRequest (alloc env)) msg
  | some .leave => Refused (leaveRequest (alloc env)) msg
  | some .move => Refused (moveRequest (alloc env)) msg
  | some .query | some .error | none => False

/-- The keys a request names. -/
def Request.keys : Request → List CppString
  | .get req => [req.key]
  | .put req => [req.key]
  | .append req => [req.key]
  | .delete req => [req.key]
  | .multiGet req => req.keys
  | .multiPut req => req.keys
  | .join _ | .leave _ | .move _ | .query => []

/-- The bytes of the values a request asks for, with their sizes. -/
def Request.valueBytes (contents : UnorderedMap) : Request → Nat
  | .get req =>
    ((contents.find req.key).map fun v => ((getResponse granted).write ⟨v⟩).length).getD 0
  | .delete req =>
    ((contents.find req.key).map fun v => ((deleteResponse granted).write ⟨v⟩).length).getD 0
  | .multiGet req =>
    ((req.keys.mapM contents.find).map fun vs =>
      ((multiGetResponse granted).write ⟨vs⟩).length).getD 0
  | _ => 0

/-- A request that reaches the store finds the mutex free, and asks for
values that fit a message. -/
structure Servable (server : KvServer) (store : Store) (req : Request) : Prop where
  mutexFree : server.responsible_for_keys req.keys = true → store.owners () = []
  fits : req.valueBytes (store.val ()) < 2 ^ 32

/-- The condition on an iteration. -/
structure Harmless (server : KvServer) (net : Network) (s : ServerState) (c : Nat)
    (conn : Conn) : Prop where
  benign : ∀ msg inc, recv_message (net.recvEnv c) messageTimeout conn.inc = .ok (some msg, inc) →
    Benign (net.recvEnv c) msg
  servable : ∀ msg inc req,
    recv_message (net.recvEnv c) messageTimeout conn.inc = .ok (some msg, inc) →
    deserialize_request (net.recvEnv c) msg = .ok (some req) → Servable server s.store req
  noSignal : (net.sendEnv c).NoSignal

/-! ## Requests that are dispatched -/

/-- Meant for a `KvServer`, not for the shardcontroller. -/
def Request.ForStore : Request → Prop
  | .join _ | .leave _ | .move _ | .query => False
  | _ => True

theorem unpack_decodes {α β : Type} {env : RecvEnv} {f : Format (alloc env) α} {msg : Message}
    (h : Decodes f msg) (alternative : α → β) :
    ∃ item, unpack env f alternative msg = .ok item ∧
      ∀ b, item = some b → ∃ a, b = alternative a := by
  obtain ⟨item, hitem⟩ := h
  refine ⟨item.map alternative, by simp [unpack, hitem], fun b hb => ?_⟩
  obtain ⟨a, -, rfl⟩ := Option.map_eq_some_iff.mp hb
  exact ⟨a, rfl⟩

theorem unpack_refused {α β : Type} {env : RecvEnv} {f : Format (alloc env) α} {msg : Message}
    (h : Refused f msg) (alternative : α → β) : unpack env f alternative msg = .ok none := by
  have hdecode : f.decode msg.buf = .ok none := h
  simp [unpack, hdecode]

/-- A benign message throws nothing, and what it carries is for the store. -/
theorem Benign.deserializes {env : RecvEnv} {msg : Message} (h : Benign env msg) :
    ∃ item, deserialize_request env msg = .ok item ∧ ∀ req, item = some req → req.ForStore := by
  have hstore : ∀ {α : Type} {f : Format (alloc env) α} (alternative : α → Request),
      (∀ a, (alternative a).ForStore) → Decodes f msg →
      ∃ item, unpack env f alternative msg = .ok item ∧ ∀ req, item = some req → req.ForStore := by
    intro α f alternative hfor hdec
    obtain ⟨item, hunpack, hitem⟩ := unpack_decodes hdec alternative
    refine ⟨item, hunpack, fun req hreq => ?_⟩
    obtain ⟨a, rfl⟩ := hitem req hreq
    exact hfor a
  unfold Benign at h
  unfold deserialize_request
  cases htype : MessageType.ofValue msg.type with
  | none =>
    rw [htype] at h
    exact absurd h id
  | some type =>
    rw [htype] at h
    cases type with
    | get => exact hstore .get (fun _ => trivial) h
    | put => exact hstore .put (fun _ => trivial) h
    | append => exact hstore .append (fun _ => trivial) h
    | delete => exact hstore .delete (fun _ => trivial) h
    | multiGet => exact hstore .multiGet (fun _ => trivial) h
    | multiPut => exact hstore .multiPut (fun _ => trivial) h
    | join => exact ⟨none, unpack_refused h _, fun req hreq => nomatch hreq⟩
    | leave => exact ⟨none, unpack_refused h _, fun req hreq => nomatch hreq⟩
    | move => exact ⟨none, unpack_refused h _, fun req hreq => nomatch hreq⟩
    | query => exact absurd h id
    | error => exact absurd h id

/-! ## Requests that are answered -/

/-- Alone on a free mutex, a call returns what its accesses compute. -/
theorem exec_of_free (worker : Nat) {store : Store} (hfree : store.owners () = [])
    (call : KvStore.Call) :
    ∃ store', (program call).exec worker store =
      some (((program call).eval store.val).1, store') := by
  have hstore : store = ⟨fun _ => store.val (), fun _ => []⟩ := by
    cases store
    simp only [Memory.mk.injEq, true_and]
    exact funext fun _ => hfree
  obtain ⟨reply, store', hexec, -⟩ :=
    (KvStore.Simple.program_usesMutex call).exec_some worker (store.val ())
  rw [← hstore] at hexec
  refine ⟨store', ?_⟩
  rw [Prog.exec_val hexec]
  exact hexec

/-- A response that fits a message: its payload is below 2^32 bytes. -/
def Response.Fits (res : Response) : Prop :=
  ∀ msg, serialize_response res = some msg → msg.buf.length < 2 ^ 32

theorem fits_of_pack {α : Type} {type : MessageType} {f : Format granted α} {a : α}
    {res : Response} (hres : serialize_response res = pack type f a)
    (hlen : (f.write a).length < 2 ^ 32) : res.Fits := by
  intro msg hmsg
  rw [hres] at hmsg
  rw [pack_eq_some hmsg]
  exact hlen

/-- An error whose text fits, fits. -/
theorem fits_error {msg : String} (h : (text msg).length < 64) :
    (Response.error ⟨text msg⟩).Fits := by
  refine fits_of_pack rfl ?_
  show (encodeLE 4 (text msg).length ++ text msg).length < 2 ^ 32
  rw [List.length_append, length_encodeLE]
  omega

/-- The response of a branch: one of its two errors, or what the store
answers. -/
theorem handle_answers (worker : Nat) (request : KvStore.Request)
    (notResponsible refused : String) {responsible : Bool} {store : Store}
    (hfree : responsible = true → store.owners () = [])
    (hnot : (text notResponsible).length < 64) (href : (text refused).length < 64)
    (hfits : ∀ a, ((program (.request request)).eval store.val).1 = .answer ⟨true, a⟩ →
      (Response.ofStore a).Fits) :
    ∃ res store', handle worker responsible request notResponsible refused store =
      some (res, store') ∧ res.Fits := by
  cases responsible with
  | false => exact ⟨_, _, rfl, fits_error hnot⟩
  | true =>
    obtain ⟨store', hexec⟩ := exec_of_free worker (hfree rfl) (.request request)
    unfold handle
    rw [if_pos rfl, hexec]
    split
    · rename_i heq
      cases heq
    · rename_i a store₁ heq
      rw [Option.some.injEq, Prod.mk.injEq] at heq
      exact ⟨_, _, rfl, hfits a heq.1⟩
    · exact ⟨_, _, rfl, fits_error href⟩

/-- A value the store answers with fits when the request is servable. -/
theorem Servable.answer_fits {server : KvServer} {store : Store} {req : Request}
    (h : Servable server store req) {α : Type} {type : MessageType} {f : Format granted α}
    {res : Response} {v : α} (hres : serialize_response res = pack type f v)
    (hbytes : req.valueBytes (store.val ()) = (f.write v).length) : res.Fits :=
  fits_of_pack hres (hbytes ▸ h.fits)

theorem responsible_for_eq (server : KvServer) (key : CppString) :
    server.responsible_for key = server.responsible_for_keys [key] := by
  simp [KvServer.responsible_for, KvServer.responsible_for_keys]

/-- A servable request for the store is answered, and the response fits. -/
theorem Servable.answered {server : KvServer} {store : Store} {req : Request}
    (h : Servable server store req) (hfor : req.ForStore) (worker : Nat) :
    ∃ res store', process_request server worker req store = .ok (some (res, store')) ∧
      res.Fits := by
  have hempty : ∀ {type : MessageType} {res : Response},
      serialize_response res = pack type .empty () → res.Fits :=
    fun hres => fits_of_pack hres (by decide)
  have hkey : ∀ key, server.responsible_for key = true → req.keys = [key] →
      store.owners () = [] := fun key hresp hkeys =>
    h.mutexFree (by rw [hkeys, ← responsible_for_eq]; exact hresp)
  cases req with
  | get req =>
    obtain ⟨res, store', hhandle, hfits⟩ := handle_answers worker (.get req ⟨[]⟩)
      "server not responsible for key" "key does not exist in the KVStore"
      (fun hresp => hkey req.key hresp rfl) (by decide) (by decide) fun a ha => by
        rw [program, KvStore.Simple.eval_get] at ha
        split at ha
        · cases ha
        · rename_i v hv
          cases ha
          exact h.answer_fits (f := getResponse granted) (v := ⟨v⟩) rfl
            (by simp [Request.valueBytes, hv])
    exact ⟨res, store', congrArg Except.ok hhandle, hfits⟩
  | put req =>
    obtain ⟨res, store', hhandle, hfits⟩ := handle_answers worker (.put req)
      "server not responsible for key" "internal KVStore error"
      (fun hresp => hkey req.key hresp rfl) (by decide) (by decide) fun a ha => by
        cases ha
        exact hempty rfl
    exact ⟨res, store', congrArg Except.ok hhandle, hfits⟩
  | append req =>
    obtain ⟨res, store', hhandle, hfits⟩ := handle_answers worker (.append req)
      "server not responsible for key" "internal KVStore error"
      (fun hresp => hkey req.key hresp rfl) (by decide) (by decide) fun a ha => by
        rw [program, KvStore.Simple.eval_append] at ha
        cases ha
        exact hempty rfl
    exact ⟨res, store', congrArg Except.ok hhandle, hfits⟩
  | delete req =>
    obtain ⟨res, store', hhandle, hfits⟩ := handle_answers worker (.delete req ⟨[]⟩)
      "server not responsible for key" "key does not exist in the KVStore"
      (fun hresp => hkey req.key hresp rfl) (by decide) (by decide) fun a ha => by
        rw [program, KvStore.Simple.eval_delete] at ha
        split at ha
        · cases ha
        · rename_i v hv
          cases ha
          exact h.answer_fits (f := deleteResponse granted) (v := ⟨v⟩) rfl
            (by simp [Request.valueBytes, hv])
    exact ⟨res, store', congrArg Except.ok hhandle, hfits⟩
  | multiGet req =>
    obtain ⟨res, store', hhandle, hfits⟩ := handle_answers worker (.multiGet req ⟨[]⟩)
      "server not responsible for key(s)" "key(s) do not exist in the KVStore"
      h.mutexFree (by decide) (by decide) fun a ha => by
        rw [program, KvStore.Simple.multiGet, KvStore.Simple.lock, Prog.eval_lock,
          KvStore.Simple.eval_multiGetLoop] at ha
        split at ha
        · cases ha
        · rename_i vs hvs
          cases ha
          exact h.answer_fits (f := multiGetResponse granted) (v := ⟨vs⟩) rfl
            (by simp [Request.valueBytes, hvs])
    exact ⟨res, store', congrArg Except.ok hhandle, hfits⟩
  | multiPut req =>
    obtain ⟨res, store', hhandle, hfits⟩ := handle_answers worker (.multiPut req)
      "server not responsible for key(s)" "internal KVStore error"
      h.mutexFree (by decide) (by decide) fun a ha => by
        rw [program, KvStore.Simple.eval_multiPut, KvStore.Reply.answer.injEq,
          KvStore.Answer.mk.injEq] at ha
        obtain ⟨-, rfl⟩ := ha
        exact hempty rfl
    exact ⟨res, store', congrArg Except.ok hhandle, hfits⟩
  | join req => exact absurd hfor id
  | leave req => exact absurd hfor id
  | move req => exact absurd hfor id
  | query => exact absurd hfor id

/-! ## Iterations that end -/

theorem send_response_returns {env : SendEnv} (henv : env.NoSignal) {res : Response}
    (hfits : res.Fits) (out : Outgoing) :
    ∃ sent out', ClientConn.send_response env res out = .ok (sent, out') := by
  unfold ClientConn.send_response sendItem
  split
  · exact ⟨false, out, rfl⟩
  · rename_i msg hmsg
    exact send_message_returns henv (serialize_response_sized hmsg) (hfits msg hmsg)
      (by decide) out

/-- A harmless iteration sends a response or closes the connection. -/
theorem Harmless.ends {server : KvServer} {net : Network} {s : ServerState} {c : Nat}
    {conn : Conn} (h : Harmless server net s c conn) : EndsIteration server net s c conn := by
  intro worker
  unfold iteration ClientConn.recv_request recvItem
  obtain ⟨received, inc, hrecv⟩ :=
    recv_message_returns (net.recvEnv c) (show 0 < messageTimeout by decide) conn.inc
  cases received with
  | none =>
    simp only [hrecv]
    exact ⟨_, _, _, rfl, by decide⟩
  | some msg =>
    obtain ⟨item, hitem, hfor⟩ := (h.benign msg inc hrecv).deserializes
    simp only [hrecv, hitem]
    cases item with
    | none => exact ⟨_, _, _, rfl, by decide⟩
    | some req =>
      obtain ⟨res, store', hres, hfits⟩ :=
        (h.servable msg inc req hrecv hitem).answered (hfor req rfl) worker
      obtain ⟨sent, out, hsend⟩ := send_response_returns h.noSignal hfits conn.out
      simp only [hres, hsend]
      cases sent with
      | true => exact ⟨_, _, _, rfl, by decide⟩
      | false => exact ⟨_, _, _, rfl, by decide⟩

/-! ## Iterations that do not -/

/-- A message that is not benign throws, in the deserializer or in the
dispatch. -/
theorem throws_of_not_benign {env : RecvEnv} {msg : Message} (h : ¬ Benign env msg) :
    (∃ e, deserialize_request env msg = .error e) ∨
      ∃ req, deserialize_request env msg = .ok (some req) ∧ ¬ req.ForStore := by
  have hstore : ∀ {α : Type} {f : Format (alloc env) α} (alternative : α → Request),
      ¬ Decodes f msg → ∃ e, unpack env f alternative msg = .error e := by
    intro α f alternative hdec
    cases hread : f.decode msg.buf with
    | error e => exact ⟨e, by simp [unpack, hread]⟩
    | ok item => exact absurd ⟨item, hread⟩ hdec
  have hcontroller : ∀ {α : Type} {f : Format (alloc env) α} {alternative : α → Request},
      (∀ a, ¬ (alternative a).ForStore) → ¬ Refused f msg →
      (∃ e, unpack env f alternative msg = .error e) ∨
        ∃ req, unpack env f alternative msg = .ok (some req) ∧ ¬ req.ForStore := by
    intro α f alternative hfor href
    cases hread : f.decode msg.buf with
    | error e => exact .inl ⟨e, by simp [unpack, hread]⟩
    | ok item =>
      cases item with
      | none => exact absurd hread href
      | some a => exact .inr ⟨alternative a, by simp [unpack, hread], hfor a⟩
  unfold Benign at h
  unfold deserialize_request
  cases htype : MessageType.ofValue msg.type with
  | none => exact .inl ⟨_, rfl⟩
  | some type =>
    rw [htype] at h
    cases type with
    | get => exact .inl (hstore .get h)
    | put => exact .inl (hstore .put h)
    | append => exact .inl (hstore .append h)
    | delete => exact .inl (hstore .delete h)
    | multiGet => exact .inl (hstore .multiGet h)
    | multiPut => exact .inl (hstore .multiPut h)
    | join => exact hcontroller (fun _ => id) h
    | leave => exact hcontroller (fun _ => id) h
    | move => exact hcontroller (fun _ => id) h
    | query => exact .inr ⟨.query, rfl, id⟩
    | error => exact .inl ⟨_, rfl⟩

/-- A request that reaches a store whose mutex is not free waits. -/
theorem handle_waits {worker : Nat} {request : KvStore.Request} {notResponsible refused : String}
    {store : Store} (hheld : store.owners () ≠ []) :
    handle worker true request notResponsible refused store = none := by
  obtain ⟨k, hk, -⟩ := KvStore.Simple.program_usesMutex (.request request)
  have hblocked : (program (.request request)).exec worker store = none := by
    rw [hk]
    exact if_neg hheld
  simp [handle, hblocked]

theorem process_request_waits {server : KvServer} {req : Request} {store : Store}
    (hfor : req.ForStore) (hresp : server.responsible_for_keys req.keys = true)
    (hheld : store.owners () ≠ []) (worker : Nat) :
    process_request server worker req store = .ok none := by
  cases req with
  | get req | put req | append req | delete req =>
    rw [process_request, responsible_for_eq]
    rw [Request.keys] at hresp
    rw [hresp, handle_waits hheld]
  | multiGet req | multiPut req =>
    rw [process_request]
    rw [Request.keys] at hresp
    rw [hresp, handle_waits hheld]
  | join req => exact absurd hfor id
  | leave req => exact absurd hfor id
  | move req => exact absurd hfor id
  | query => exact absurd hfor id

theorem process_request_throws (server : KvServer) {req : Request} (hfor : ¬ req.ForStore)
    (worker : Nat) (store : Store) : ∃ e, process_request server worker req store = .error e := by
  cases req with
  | join _ | leave _ | move _ | query => exact ⟨_, rfl⟩
  | get _ | put _ | append _ | delete _ | multiGet _ | multiPut _ => exact absurd trivial hfor

/-- An iteration that ends had a benign message, and a free mutex for it. -/
theorem EndsIteration.benign {server : KvServer} {net : Network} {s : ServerState} {c : Nat}
    {conn : Conn} (h : EndsIteration server net s c conn) {msg : Message} {inc : Incoming}
    (hrecv : recv_message (net.recvEnv c) messageTimeout conn.inc = .ok (some msg, inc)) :
    Benign (net.recvEnv c) msg := by
  by_contra hnot
  obtain ⟨ending, conn', store', hiter, -⟩ := h 0
  unfold iteration ClientConn.recv_request recvItem at hiter
  simp only [hrecv] at hiter
  rcases throws_of_not_benign hnot with ⟨e, he⟩ | ⟨req, hreq, hfor⟩
  · simp [he] at hiter
  · obtain ⟨e, he⟩ := process_request_throws server hfor 0 s.store
    simp [hreq, he] at hiter

theorem EndsIteration.mutexFree {server : KvServer} {net : Network} {s : ServerState} {c : Nat}
    {conn : Conn} (h : EndsIteration server net s c conn) {msg : Message} {inc : Incoming}
    {req : Request}
    (hrecv : recv_message (net.recvEnv c) messageTimeout conn.inc = .ok (some msg, inc))
    (hreq : deserialize_request (net.recvEnv c) msg = .ok (some req))
    (hresp : server.responsible_for_keys req.keys = true) : s.store.owners () = [] := by
  by_contra hheld
  obtain ⟨item, hitem, hfor⟩ := (h.benign hrecv).deserializes
  rw [hreq] at hitem
  cases hitem
  obtain ⟨ending, conn', store', hiter, hne⟩ := h 0
  unfold iteration ClientConn.recv_request recvItem at hiter
  simp only [hrecv, hreq, process_request_waits (hfor req rfl) hresp hheld] at hiter
  cases hiter
  exact hne rfl

/-! ## The server -/

/-- The values the next request asks for fit a message. -/
def AsksForFew (net : Network) (s : ServerState) (c : Nat) (conn : Conn) : Prop :=
  ∀ msg inc req, recv_message (net.recvEnv c) messageTimeout conn.inc = .ok (some msg, inc) →
    deserialize_request (net.recvEnv c) msg = .ok (some req) →
    req.valueBytes (s.store.val ()) < 2 ^ 32

theorem endsIteration_iff {server : KvServer} {net : Network} {s : ServerState} {c : Nat}
    {conn : Conn} (hsignal : (net.sendEnv c).NoSignal) (hfew : AsksForFew net s c conn) :
    EndsIteration server net s c conn ↔ Harmless server net s c conn := by
  constructor
  · intro h
    exact ⟨fun msg inc hrecv => h.benign hrecv,
      fun msg inc req hrecv hreq => ⟨h.mutexFree hrecv hreq, hfew msg inc req hrecv hreq⟩, hsignal⟩
  · exact Harmless.ends

/-- Each iteration of a harmless run has responded or closed. -/
theorem Serves.endings {server : KvServer} {net : Network} {s₀ s : ServerState}
    {endings : List Ending} (h : Serves server net (Harmless server net) s₀ endings s) :
    ∀ ending ∈ endings, ending = .responded ∨ ending = .closed := by
  induction h with
  | start => exact fun ending hmem => absurd hmem List.not_mem_nil
  | iterate _ _ hguard hiter ih =>
    intro e he
    rcases List.mem_append.mp he with hold | hnew
    · exact ih e hold
    · obtain rfl := List.mem_singleton.mp hnew
      obtain ⟨ending', conn₁, store₁, hends, hne⟩ := hguard.ends _
      rw [hiter] at hends
      cases hends
      cases e with
      | responded => exact .inl rfl
      | closed => exact .inr rfl
      | waits => exact absurd rfl hne

/-- **Server robustness**: in a run whose iterations are all harmless, each
has sent a response or closed its connection, and the next harmless one
will; and as long as the pipe holds and the values fit, only a harmless
iteration does. -/
theorem server_ends_iterations (server : KvServer) (net : Network) :
    (∀ (s₀ s : ServerState) (endings : List Ending),
      Serves server net (Harmless server net) s₀ endings s →
        (∀ ending ∈ endings, ending = .responded ∨ ending = .closed) ∧
        ∀ c conn, Harmless server net s c conn → EndsIteration server net s c conn) ∧
    ∀ (s : ServerState) (c : Nat) (conn : Conn), (net.sendEnv c).NoSignal →
      AsksForFew net s c conn →
      (EndsIteration server net s c conn ↔ Harmless server net s c conn) := by
  constructor
  · intro s₀ s endings h
    exact ⟨h.endings, fun c conn hnext => hnext.ends⟩
  · intro s c conn hsignal hfew
    exact endsIteration_iff hsignal hfew

/-! ## Clients of a new server -/

/-- A server without a shardcontroller. -/
def aloneServer : KvServer := ⟨[], [], ⟨⟨[], .nil⟩⟩⟩

/-- Every client's bytes arrive one by one and in time. -/
def trickle : Network := ⟨fun _ => trickleIn, fun _ => trickleOut⟩

/-- An empty store, and one client that has sent some bytes. -/
def newServer (bytes : List UInt8) : ServerState :=
  ⟨⟨fun _ => [], fun _ => []⟩,
    Function.update (fun _ => none) 0 (some ⟨⟨bytes, 0, 0⟩, ⟨[], 0, 0⟩⟩)⟩

/-- An `Append` of the empty value to the key "k", as a message. -/
def appendMessage : Message := ⟨MessageType.append.value, 9, [1, 0, 0, 0, 107, 0, 0, 0, 0]⟩

theorem deserialize_appendMessage :
    deserialize_request trickleIn appendMessage = .ok (some (.append ⟨[107], []⟩)) :=
  deserialize_serialize_request (fun _ => rfl)
    (show serialize_request (.append ⟨[107], []⟩) = some appendMessage from rfl) (by decide)

theorem harmless_appendMessage :
    Harmless aloneServer trickle (newServer (frame appendMessage)) 0
      ⟨⟨frame appendMessage, 0, 0⟩, ⟨[], 0, 0⟩⟩ := by
  have hmessage : recv_message trickleIn messageTimeout ⟨frame appendMessage, 0, 0⟩ =
      .ok (some appendMessage, ⟨[], 21, 9⟩) := rfl
  refine ⟨fun msg inc hrecv => ?_, fun msg inc req hrecv hreq => ?_, fun n hpipe => ?_⟩
  · cases hmessage.symm.trans hrecv
    exact ⟨some ⟨[107], []⟩, (appendRequest (alloc trickleIn)).decode_write
      (alloc_of_grants fun _ => rfl) ⟨[107], []⟩ (by decide)⟩
  · cases hmessage.symm.trans hrecv
    cases deserialize_appendMessage.symm.trans hreq
    exact ⟨fun _ => rfl, by decide⟩
  · cases hpipe

/-- A client of a new server is answered, or its connection closed. -/
theorem server_ends_iterations_append :
    ∃ ending s, Serves aloneServer trickle (Harmless aloneServer trickle)
        (newServer (frame appendMessage)) [ending] s ∧
      (ending = .responded ∨ ending = .closed) := by
  obtain ⟨ending, conn', store', hiter, -⟩ := harmless_appendMessage.ends 0
  have hstart : Serves aloneServer trickle (Harmless aloneServer trickle)
    (newServer (frame appendMessage)) [] (newServer (frame appendMessage)) := .start
  have hrun := hstart.iterate rfl harmless_appendMessage hiter
  exact ⟨ending, _, hrun, ((server_ends_iterations aloneServer trickle).1 _ _ _ hrun).1 ending
    List.mem_cons_self⟩

/-- **One message stops the server**: its type is 11, which no enumerator
has, and the exception leaves `work_loop`. -/
theorem unknown_type_stops_server :
    ¬ ∀ (server : KvServer) (net : Network) (s₀ s : ServerState) (endings : List Ending),
      s₀.store.owners () = [] → Serves server net (fun _ _ _ => True) s₀ endings s →
        (∀ ending ∈ endings, ending = .responded ∨ ending = .closed) ∧
        ∀ c conn, s.conn c = some conn → EndsIteration server net s c conn := by
  intro hclaim
  have hends := (hclaim aloneServer trickle
    (newServer (frame ⟨11, 0, []⟩)) _ [] rfl .start).2 0 _ rfl
  have hmessage : recv_message trickleIn messageTimeout ⟨frame ⟨11, 0, []⟩, 0, 0⟩ =
      .ok (some ⟨11, 0, []⟩, ⟨[], 12, 0⟩) := rfl
  exact absurd (hends.benign hmessage) id

end SystemsProjects.Net
