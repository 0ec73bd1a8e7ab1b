/-
SystemsProjects.Net.ServerThreads — the threads of a KvServer that is being
stopped: stop, accept_clients_loop and work_loop (server/server.cpp).

The server is started and has no shard controller. Each worker has a queue
of connections with a mutex of its own. The listener hands the connections
it accepts to the workers in turn; a worker serves one connection until a
call on it fails, then closes it. `stop` waits for the listener, shuts down
what is still in the queues, and waits for the workers.

The store has one mutex, and its operations keep it where they return
early (KvStore.SimpleKvStore): a worker whose request comes after one that
was refused waits for ever. Nothing catches an exception and nothing
ignores SIGPIPE, so a thread can also end the process.

`places` counts where a connection is: with the listener, in its queue, at
its worker, or closed. The invariant is that this is one for a connection
that was accepted.
-/
import Mathlib.Data.List.Count
import Mathlib.Data.List.Pairwise
import Mathlib.Data.Set.Basic
import Mathlib.Logic.Function.Basic
import SystemsProjects.Base.CriticalSection
import SystemsProjects.Base.Interleaving

namespace SystemsProjects.Net.ServerThreads

open SystemsProjects.Base

/-! ## The threads -/

inductive Thread where
  | stop
  | listener
  | worker (i : Nat)
  deriving DecidableEq, Repr

/-- Where the caller of `stop` is. -/
inductive StopPc where
  /-- `stop` is not called. -/
  | idle
  | shutListener
  | joining
  | locking (i : Nat)
  /-- Shutting down what is in queue `i`, with its mutex. -/
  | closing (i : Nat) (rest : List Nat)
  | joinWorker (i : Nat)
  | returned
  deriving DecidableEq, Repr

/-- Where accept_clients_loop is. -/
inductive ListenerPc where
  | loop
  | accepting
  | locking (client : Nat)
  | pushing (client : Nat)
  | unlocking
  | done
  deriving DecidableEq, Repr

/-- Where work_loop is. -/
inductive WorkerPc where
  | loop
  | locking
  /-- At the check of the queue, with its mutex. -/
  | popping
  | unlocking (client : Option Nat)
  | sleeping
  | receiving (client : Nat)
  /-- In a call of the store. -/
  | processing (client : Nat)
  /-- Sending the type and the size of the response. -/
  | responding (client : Nat)
  /-- Sending the bytes of the response: without MSG_NOSIGNAL. -/
  | payload (client : Nat)
  | closing (client : Nat)
  | done
  deriving DecidableEq, Repr

/-- Connections are numbered by the order of acceptance. -/
structure State where
  is_stopped : Bool
  listenerShut : Bool
  /-- The owners of `conn_queue_mtxs`. -/
  owner : Nat → Option Thread
  conn_queues : Nat → List Nat
  /-- The connections that were shut down. -/
  shut : Nat → Bool
  closed : Nat → Bool
  accepted : Nat
  next_worker : Nat
  stopper : StopPc
  listener : ListenerPc
  worker : Nat → WorkerPc
  /-- A request was refused, and the store has kept its mutex. -/
  storeKept : Bool
  /-- A signal or an exception has ended the process. -/
  killed : Bool

/-- After `start`; there are `n_workers` workers. -/
def started (n_workers : Nat) : State :=
  ⟨false, false, fun _ => none, fun _ => [], fun _ => false, fun _ => false, 0, 0, .idle, .loop,
    fun i => if i < n_workers then .loop else .done, false, false⟩

namespace State

variable (s : State)

def goStop (pc : StopPc) : State := { s with stopper := pc }

def goListener (pc : ListenerPc) : State := { s with listener := pc }

def goWorker (i : Nat) (pc : WorkerPc) : State :=
  { s with worker := Function.update s.worker i pc }

/-- `conn_queue_mtxs[i]` taken by a thread, which waits as long as it is
held. -/
def lock (i : Nat) (t : Thread) : Option State :=
  if s.owner i = none then some { s with owner := Function.update s.owner i (some t) } else none

def unlock (i : Nat) : State := { s with owner := Function.update s.owner i none }

def setQueue (i : Nat) (queue : List Nat) : State :=
  { s with conn_queues := Function.update s.conn_queues i queue }

def shutdown (client : Nat) : State := { s with shut := Function.update s.shut client true }

def close (client : Nat) : State := { s with closed := Function.update s.closed client true }

end State

/-! ## Steps -/

/-- The loop over the workers that joins them. -/
def StopPc.join (n i : Nat) : StopPc := if i < n then .joinWorker i else .returned

/-- The loop over the queues, then over the workers. -/
def StopPc.sweep (n i : Nat) : StopPc := if i < n then .locking i else .join n 0

namespace State

variable (n : Nat) (s : State)

def stepStop : Option State :=
  match s.stopper with
  | .idle => some ({ s with is_stopped := true }.goStop .shutListener)
  | .shutListener => some ({ s with listenerShut := true }.goStop .joining)
  | .joining => if s.listener = .done then some (s.goStop (.sweep n 0)) else none
  | .locking i => (s.lock i .stop).map (·.goStop (.closing i (s.conn_queues i)))
  | .closing i [] => some ((s.unlock i).goStop (.sweep n (i + 1)))
  | .closing i (client :: rest) => some ((s.shutdown client).goStop (.closing i rest))
  | .joinWorker i => if s.worker i = .done then some (s.goStop (.join n (i + 1))) else none
  | .returned => none

/-- `accept` on a listener that was shut down fails. -/
def stepListener : Option State :=
  match s.listener with
  | .loop => some (s.goListener (if s.is_stopped then .done else .accepting))
  | .accepting => if s.listenerShut then some (s.goListener .done) else none
  | .locking client => (s.lock s.next_worker .listener).map (·.goListener (.pushing client))
  | .pushing client =>
    some ((s.setQueue s.next_worker (s.conn_queues s.next_worker ++ [client])).goListener
      .unlocking)
  | .unlocking =>
    some (({ s with next_worker := (s.next_worker + 1) % n }.unlock s.next_worker).goListener .loop)
  | .done => none

/-- A call on a connection that was shut down fails; the send of the bytes
of a response raises SIGPIPE as well. A request goes through the store as
long as the mutex is given back. -/
def stepWorker (i : Nat) : Option State :=
  match s.worker i with
  | .loop => some (s.goWorker i (if s.is_stopped then .done else .locking))
  | .locking => (s.lock i (.worker i)).map (·.goWorker i .popping)
  | .popping =>
    match s.conn_queues i with
    | [] => some (s.goWorker i (.unlocking none))
    | client :: rest => some ((s.setQueue i rest).goWorker i (.unlocking (some client)))
  | .unlocking none => some ((s.unlock i).goWorker i .sleeping)
  | .unlocking (some client) => some ((s.unlock i).goWorker i (.receiving client))
  | .sleeping => some (s.goWorker i .loop)
  | .receiving client => if s.shut client then some (s.goWorker i (.closing client)) else none
  | .processing client => if s.storeKept then none else some (s.goWorker i (.responding client))
  | .responding client => if s.shut client then some (s.goWorker i (.closing client)) else none
  | .payload client => if s.shut client then some { s with killed := true } else none
  | .closing client => some ((s.close client).goWorker i .loop)
  | .done => none

/-- Where an exception can leave a thread: the listener allocates, a worker
reads or processes what a client sent. At the bytes of a response a worker
also gets SIGPIPE, when the client is gone. -/
def MayDie : Thread → Bool
  | .stop => false
  | .listener =>
    match s.listener with
    | .accepting | .pushing _ => true
    | .loop | .locking _ | .unlocking | .done => false
  | .worker i =>
    match s.worker i with
    | .receiving _ | .processing _ | .responding _ | .payload _ => true
    | .loop | .locking | .popping | .unlocking _ | .sleeping | .closing _ | .done => false

end State

/-- A step of a thread by itself, or one that the clients and the system
bring about: a connection is accepted or `accept` fails, a receive or a
send returns, the store refuses a request, a thread ends the process. -/
inductive Action where
  | stop
  | listener
  | worker (i : Nat)
  | accepts
  | acceptFails
  | receives (i : Nat) (request : Bool)
  /-- The store answers `false`, with its mutex. -/
  | refuses (i : Nat)
  /-- The type and the size of a response are sent, and bytes follow. -/
  | heads (i : Nat)
  /-- All of a response is sent, or a send of it fails. -/
  | responds (i : Nat) (sent : Bool)
  | dies (t : Thread)
  deriving DecidableEq, Repr

/-- The bytes of a response follow only on a connection that was not shut
down: `stop` shuts down what is in a queue, and on what a worker pops after
that the send of the type fails. -/
def State.move (n : Nat) (s : State) : Action → Option State
  | .stop => s.stepStop n
  | .listener => s.stepListener n
  | .worker i => s.stepWorker i
  | .accepts =>
    if s.listener = .accepting ∧ s.listenerShut = false then
      some ({ s with accepted := s.accepted + 1 }.goListener (.locking s.accepted))
    else none
  | .acceptFails => if s.listener = .accepting then some (s.goListener .done) else none
  | .receives i request =>
    match s.worker i with
    | .receiving client =>
      some (s.goWorker i (if request then .processing client else .closing client))
    | _ => none
  | .refuses i =>
    match s.worker i with
    | .processing client =>
      if s.storeKept then none
      else some ({ s with storeKept := true }.goWorker i (.responding client))
    | _ => none
  | .heads i =>
    match s.worker i with
    | .responding client =>
      if s.shut client then none else some (s.goWorker i (.payload client))
    | _ => none
  | .responds i sent =>
    match s.worker i with
    | .responding client | .payload client =>
      some (s.goWorker i (if sent then .receiving client else .closing client))
    | _ => none
  | .dies t => if s.MayDie t then some { s with killed := true } else none

def step (n : Nat) (s : State) (a : Action) : Option State :=
  if s.killed then none else s.move n a

abbrev Run (n : Nat) : State → List Action → State → Prop := Runs (step n)

/-- The states some interleaving reaches. -/
def Reaches (n : Nat) (s : State) : Prop := ∃ as, Run n (started n) as s

/-! ## The invariant -/

/-- The connection a listener has accepted and not pushed yet. -/
def ListenerPc.client : ListenerPc → Option Nat
  | .locking c | .pushing c => some c
  | .loop | .accepting | .unlocking | .done => none

/-- The connection a worker serves. -/
def WorkerPc.client : WorkerPc → Option Nat
  | .unlocking client => client
  | .receiving c | .processing c | .responding c | .payload c | .closing c => some c
  | .loop | .locking | .popping | .sleeping | .done => none

def WorkerPc.Inside : WorkerPc → Prop
  | .popping | .unlocking _ => True
  | _ => False

def ListenerPc.Inside : ListenerPc → Prop
  | .pushing _ | .unlocking => True
  | _ => False

/-- Accepted, and the turn not passed on to the next worker. -/
def ListenerPc.pending : ListenerPc → Nat
  | .locking _ | .pushing _ | .unlocking => 1
  | .loop | .accepting | .done => 0

/-- Past the join of the listener. -/
def StopPc.Joined : StopPc → Prop
  | .idle | .shutListener | .joining => False
  | _ => True

/-- Queue `i` was gone through. -/
def StopPc.Swept (i : Nat) : StopPc → Prop
  | .idle | .shutListener | .joining => False
  | .locking j | .closing j _ => i < j
  | .joinWorker _ | .returned => True

/-- Worker `i` was joined. -/
def StopPc.Waited (i : Nat) : StopPc → Prop
  | .joinWorker j => i < j
  | .returned => True
  | _ => False

namespace State

variable (n : Nat) (s : State)

/-- The threads that run in a section of the mutex of queue `i`. -/
def Holds (i : Nat) : Thread → Prop
  | .stop => ∃ rest, s.stopper = .closing i rest
  | .listener => s.listener.Inside ∧ s.next_worker = i
  | .worker j => j = i ∧ (s.worker j).Inside

/-- In how many places a connection is. -/
def places (c : Nat) : Nat :=
  (if s.listener.client = some c then 1 else 0) + (s.conn_queues (c % n)).count c +
    (if (s.worker (c % n)).client = some c then 1 else 0) + (if s.closed c then 1 else 0)

end State

/-- The part of the invariant about the connections. -/
structure Placed (n : Nat) (s : State) : Prop where
  place : ∀ c, s.places n c = if c < s.accepted then 1 else 0
  queued : ∀ i, ∀ c ∈ s.conn_queues i, c % n = i
  served : ∀ i c, (s.worker i).client = some c → c % n = i
  last : ∀ c, s.listener.client = some c → c + 1 = s.accepted
  turn : s.next_worker = (s.accepted - s.listener.pending) % n
  pending : s.listener.pending ≤ s.accepted
  sorted : ∀ i, (s.conn_queues i).Pairwise (· < ·)
  /-- A worker is through with the connections accepted before its own. -/
  order : ∀ c c', c < c' → c % n = c' % n →
    (s.worker (c' % n)).client = some c' ∨ s.closed c' = true → s.closed c = true

/-- The part about `stop`. -/
structure Stopping (n : Nat) (s : State) : Prop where
  stopped : s.is_stopped = true ↔ s.stopper ≠ .idle
  listenerShut : s.listenerShut = true ↔ s.stopper ≠ .idle ∧ s.stopper ≠ .shutListener
  joined : s.stopper.Joined → s.listener = .done
  swept : ∀ i, s.stopper.Swept i → ∀ c ∈ s.conn_queues i, s.shut c = true
  closing : ∀ i rest, s.stopper = .closing i rest →
    (∀ c ∈ s.conn_queues i, s.shut c = true ∨ c ∈ rest) ∧ ∀ c ∈ rest, c ∈ s.conn_queues i
  waited : ∀ i, s.stopper.Waited i → s.worker i = .done
  outside : ∀ i, n ≤ i → s.worker i = .done ∧ s.conn_queues i = []

structure Inv (n : Nat) (s : State) : Prop where
  owner : ∀ i, Guarded (s.Holds i) (s.owner i)
  placed : Placed n s
  stopping : Stopping n s

theorem inv_started (n : Nat) : Inv n (started n) where
  owner := by
    intro i t
    cases t with
    | stop => simp [State.Holds, started]
    | listener => simp [State.Holds, started, ListenerPc.Inside]
    | worker j =>
      simp only [State.Holds, started]
      split <;> simp [WorkerPc.Inside]
  placed := {
    place := by
      intro c
      simp only [State.places, started, ListenerPc.client]
      by_cases hc : c % n < n <;> simp [hc, WorkerPc.client]
    queued := by simp [started]
    served := by
      intro i c
      simp only [started]
      split <;> simp [WorkerPc.client]
    last := by simp [started, ListenerPc.client]
    turn := by simp [started]
    pending := by simp [started, ListenerPc.pending]
    sorted := by simp [started]
    order := by
      intro c c' _ _ h
      simp only [started] at h
      split at h <;> simp [WorkerPc.client] at h }
  stopping := {
    stopped := by simp [started]
    listenerShut := by simp [started]
    joined := by simp [started, StopPc.Joined]
    swept := by simp [started, StopPc.Swept]
    closing := by simp [started]
    waited := by simp [started, StopPc.Waited]
    outside := by
      intro i hi
      simp [started, Nat.not_lt.mpr hi] }

variable {n i : Nat} {s s' : State}

/-! ### The connections -/

/-- One value of a family is replaced. -/
theorem forall_update {α : Type} (p : Nat → α → Prop) {f : Nat → α} {a : α} (ha : p i a)
    (hf : ∀ j, p j (f j)) : ∀ j, p j (Function.update f i a j) :=
  (Function.forall_update_iff f p).mpr ⟨ha, fun j _ => hf j⟩

namespace Placed

/-- The steps of `stop` move no connection. -/
theorem stop (h : Placed n s) {stopped listenerShut : Bool} {owner : Nat → Option Thread}
    {shut : Nat → Bool} {pc : StopPc} :
    Placed n ⟨stopped, listenerShut, owner, s.conn_queues, shut, s.closed, s.accepted,
      s.next_worker, pc, s.listener, s.worker, s.storeKept, s.killed⟩ :=
  ⟨h.place, h.queued, h.served, h.last, h.turn, h.pending, h.sorted, h.order⟩

theorem listener (h : Placed n s) {pc : ListenerPc} {owner : Nat → Option Thread}
    (hclient : pc.client = s.listener.client) (hpending : pc.pending = s.listener.pending) :
    Placed n { s with owner := owner, listener := pc } where
  place := by
    intro c
    simp only [State.places, hclient]
    exact h.place c
  queued := h.queued
  served := h.served
  last := fun c hc => h.last c (hclient ▸ hc)
  turn := hpending ▸ h.turn
  pending := hpending ▸ h.pending
  sorted := h.sorted
  order := h.order

theorem accept (h : Placed n s) (hpc : s.listener = .accepting) :
    Placed n { s with accepted := s.accepted + 1, listener := .locking s.accepted } where
  place := by
    intro c
    have hc := h.place c
    simp only [State.places, hpc, ListenerPc.client, Option.some.injEq] at hc ⊢
    by_cases he : s.accepted = c
    · subst he
      rw [if_neg (Nat.lt_irrefl _)] at hc
      simp only [reduceCtorEq, if_false] at hc
      rw [if_pos rfl, if_pos (Nat.lt_succ_self _)]
      omega
    · have hlt : c < s.accepted + 1 ↔ c < s.accepted := by omega
      simp only [if_neg he, hlt]
      simpa using hc
  queued := h.queued
  served := h.served
  last := by
    intro c hc
    exact congrArg (· + 1) (Option.some.inj hc).symm
  turn := by
    have hturn := h.turn
    rw [hpc] at hturn
    exact hturn
  pending := Nat.succ_pos _
  sorted := h.sorted
  order := h.order

/-- A connection in a queue was accepted, and is nowhere else. -/
theorem of_mem {c : Nat} (h : Placed n s) (hc : c ∈ s.conn_queues i) :
    c < s.accepted ∧ s.listener.client ≠ some c ∧ (s.conn_queues i).count c = 1 ∧
      (s.worker i).client ≠ some c ∧ s.closed c = false := by
  have hi := h.queued i c hc
  have hcount : 0 < (s.conn_queues i).count c := List.count_pos_iff.mpr hc
  have hplace := h.place c
  rw [State.places, hi] at hplace
  have hlt : c < s.accepted := by
    by_contra hlt
    rw [if_neg hlt] at hplace
    omega
  rw [if_pos hlt] at hplace
  refine ⟨hlt, fun he => ?_, by omega, fun he => ?_, ?_⟩
  · rw [if_pos he] at hplace
    omega
  · rw [if_pos he] at hplace
    omega
  · by_contra hclosed
    have htrue : s.closed c = true := by simpa using hclosed
    rw [if_pos htrue] at hplace
    omega

theorem push (h : Placed n s) {c : Nat} (hpc : s.listener = .pushing c) :
    Placed n { s with
      conn_queues :=
        Function.update s.conn_queues s.next_worker (s.conn_queues s.next_worker ++ [c])
      listener := .unlocking } := by
  have hlast : c + 1 = s.accepted := h.last c (by rw [hpc]; rfl)
  have hturn : c % n = s.next_worker := by
    have hturn := h.turn
    rw [hpc, ListenerPc.pending, ← hlast, Nat.add_sub_cancel] at hturn
    exact hturn.symm
  have hplace := h.place
  simp only [State.places, hpc, ListenerPc.client, Option.some.injEq] at hplace
  have hold : ∀ x ∈ s.conn_queues s.next_worker, x < c := by
    intro x hx
    obtain ⟨hlt, hne, -⟩ := h.of_mem hx
    rw [hpc] at hne
    have hxc : c ≠ x := fun he => hne (congrArg some he)
    omega
  have hqueue : ∀ x ∈ s.conn_queues s.next_worker ++ [c], x % n = s.next_worker := by
    simpa [or_imp, forall_and, hturn] using h.queued s.next_worker
  have hqueued := forall_update (fun j q => ∀ x ∈ q, x % n = j) hqueue h.queued
  have hlater : (s.conn_queues s.next_worker ++ [c]).Pairwise (· < ·) :=
    List.pairwise_append.mpr ⟨h.sorted _, List.pairwise_singleton _ _, by simpa using hold⟩
  have hsorted := forall_update (fun _ (q : List Nat) => q.Pairwise (· < ·)) (i := s.next_worker)
    hlater h.sorted
  refine ⟨fun x => ?_, hqueued, h.served, (fun x hx => nomatch hx), ?_, ?_, hsorted, h.order⟩
  · have hx := hplace x
    simp only [State.places, ListenerPc.client]
    by_cases hj : x % n = s.next_worker
    · rw [hj] at hx ⊢
      rw [Function.update_self, List.count_append, List.count_singleton]
      by_cases he : c = x
      · simp only [he, if_true, beq_self_eq_true] at hx ⊢
        simp only [reduceCtorEq, if_false]
        omega
      · simp only [if_neg he, beq_iff_eq] at hx ⊢
        simpa using hx
    · rw [Function.update_of_ne hj]
      have he : c ≠ x := by
        rintro rfl
        exact hj hturn
      rw [if_neg he] at hx
      simpa using hx
  · have hturn := h.turn
    rw [hpc] at hturn
    exact hturn
  · have hpending := h.pending
    rw [hpc] at hpending
    exact hpending

theorem pass (h : Placed n s) (hpc : s.listener = .unlocking) {owner : Nat → Option Thread} :
    Placed n { s with owner := owner
                      next_worker := (s.next_worker + 1) % n
                      listener := .loop } where
  place := by
    intro c
    have hc := h.place c
    simp only [State.places, hpc, ListenerPc.client] at hc ⊢
    exact hc
  queued := h.queued
  served := h.served
  last := fun c hc => nomatch hc
  turn := by
    have hturn := h.turn
    have hpending := h.pending
    rw [hpc, ListenerPc.pending] at hturn hpending
    simp only [ListenerPc.pending]
    rw [hturn, Nat.mod_add_mod, Nat.sub_add_cancel hpending, Nat.sub_zero]
  pending := Nat.zero_le _
  sorted := h.sorted
  order := h.order

/-- A worker goes on with the connection it has, or without one. -/
theorem worker (h : Placed n s) {pc : WorkerPc} {owner : Nat → Option Thread}
    (hclient : pc.client = (s.worker i).client) :
    Placed n { s with owner := owner, worker := Function.update s.worker i pc } := by
  have hsame : ∀ j, (Function.update s.worker i pc j).client = (s.worker j).client := by
    intro j
    by_cases hj : j = i
    · subst hj
      rw [Function.update_self, hclient]
    · rw [Function.update_of_ne hj]
  refine ⟨fun c => ?_, h.queued, fun j c hc => ?_, h.last, h.turn, h.pending, h.sorted,
    fun c c' hlt hmod hc => ?_⟩
  · simp only [State.places, hsame]
    exact h.place c
  · exact h.served j c (hsame j ▸ hc)
  · simp only [hsame] at hc
    exact h.order c c' hlt hmod hc

theorem pop (h : Placed n s) {c : Nat} {rest : List Nat} (hpc : s.worker i = .popping)
    (hqueue : s.conn_queues i = c :: rest) :
    Placed n { s with
      conn_queues := Function.update s.conn_queues i rest
      worker := Function.update s.worker i (.unlocking (some c)) } := by
  have hmem : c ∈ s.conn_queues i := by
    rw [hqueue]
    exact List.mem_cons_self
  have hi : c % n = i := h.queued i c hmem
  have hlt : c < s.accepted := (h.of_mem hmem).1
  obtain ⟨hfirst, hsorted⟩ := List.pairwise_cons.mp (hqueue ▸ h.sorted i)
  have hqueued := forall_update (fun j q => ∀ x ∈ q, x % n = j) (a := rest)
    (fun x hx => h.queued i x (by rw [hqueue]; exact List.mem_cons_of_mem _ hx)) h.queued
  have hserved := forall_update (fun j (pc : WorkerPc) => ∀ x, pc.client = some x → x % n = j)
    (a := .unlocking (some c)) (fun x hx => Option.some.inj hx ▸ hi) h.served
  refine ⟨fun x => ?_, hqueued, hserved, h.last, h.turn, h.pending,
    forall_update (fun _ (q : List Nat) => q.Pairwise (· < ·)) hsorted h.sorted,
    fun x x' hxx hmod hx' => ?_⟩
  · have hx := h.place x
    simp only [State.places] at hx ⊢
    by_cases hj : x % n = i
    · simp only [hj, hpc, hqueue, List.count_cons, WorkerPc.client, reduceCtorEq, if_false,
        beq_iff_eq] at hx
      simp only [hj, Function.update_self, WorkerPc.client, Option.some.injEq]
      omega
    · simp only [Function.update_of_ne hj]
      exact hx
  · dsimp only at hx' ⊢
    by_cases hj : x' % n = i
    · rw [hj, Function.update_self] at hx'
      rcases hx' with hx' | hx'
      · -- what was accepted before the connection is in no place but closed
        obtain rfl : c = x' := Option.some.inj hx'
        have hplace := h.place x
        rw [if_pos (Nat.lt_trans hxx hlt), State.places, hmod, hj, hqueue, hpc] at hplace
        have hlistener : s.listener.client ≠ some x := fun he => by
          have hlast := h.last x he
          omega
        have hcount : (c :: rest).count x = 0 := by
          refine List.count_eq_zero_of_not_mem fun hx => ?_
          rcases List.mem_cons.mp hx with rfl | hx
          · exact Nat.lt_irrefl _ hxx
          · exact Nat.lt_asymm hxx (hfirst x hx)
        rw [if_neg hlistener, hcount] at hplace
        by_contra hclosed
        simp [WorkerPc.client, hclosed] at hplace
      · exact h.order x x' hxx hmod (.inr hx')
    · rw [Function.update_of_ne hj] at hx'
      exact h.order x x' hxx hmod hx'

theorem close (h : Placed n s) {c : Nat} (hpc : s.worker i = .closing c) :
    Placed n { s with
      closed := Function.update s.closed c true
      worker := Function.update s.worker i .loop } := by
  have hclient : (s.worker i).client = some c := by
    rw [hpc]
    rfl
  have hi : c % n = i := h.served i c hclient
  have hopen : s.closed c = false := by
    have hplace := h.place c
    by_contra hclosed
    have htrue : s.closed c = true := by simpa using hclosed
    have hle : (if c < s.accepted then 1 else 0) ≤ 1 := by split <;> omega
    rw [State.places, hi, if_pos hclient, if_pos htrue] at hplace
    omega
  have hserved := forall_update (fun j (pc : WorkerPc) => ∀ x, pc.client = some x → x % n = j)
    (i := i) (a := .loop) (fun x hx => nomatch hx) h.served
  refine ⟨fun x => ?_, h.queued, hserved, h.last, h.turn, h.pending, h.sorted,
    fun x x' hxx hmod hx' => ?_⟩
  · have hx := h.place x
    simp only [State.places] at hx ⊢
    by_cases hxc : x = c
    · subst hxc
      simp only [hi, hclient, hopen, if_true] at hx
      simp only [hi, Function.update_self, WorkerPc.client, if_true, reduceCtorEq, if_false] at hx ⊢
      exact hx
    · by_cases hj : x % n = i
      · have hne : c ≠ x := Ne.symm hxc
        simp only [hj, hclient, Option.some.injEq, if_neg hne] at hx
        simp only [hj, Function.update_self, Function.update_of_ne hxc, WorkerPc.client,
          reduceCtorEq, if_false]
        exact hx
      · simp only [Function.update_of_ne hj, Function.update_of_ne hxc]
        exact hx
  · dsimp only at hx' ⊢
    have hbefore : (s.worker (x' % n)).client = some x' ∨ s.closed x' = true := by
      by_cases hxc : x' = c
      · subst hxc
        rw [hi]
        exact .inl hclient
      · rw [Function.update_of_ne hxc] at hx'
        by_cases hj : x' % n = i
        · rw [hj, Function.update_self] at hx'
          exact .inr (hx'.resolve_left fun he => nomatch he)
        · rwa [Function.update_of_ne hj] at hx'
    have hclosed := h.order x x' hxx hmod hbefore
    by_cases hxc : x = c
    · rw [hxc, Function.update_self]
    · rwa [Function.update_of_ne hxc]

end Placed

/-! ### Stopping -/

/-- As long as the listener runs, `stop` is not past its join. -/
theorem Stopping.listener (h : Stopping n s) (hl : s.listener ≠ .done)
    {owner : Nat → Option Thread} {queues : Nat → List Nat} {accepted next_worker : Nat}
    {pc : ListenerPc} (houtside : ∀ i, n ≤ i → queues i = []) :
    Stopping n ⟨s.is_stopped, s.listenerShut, owner, queues, s.shut, s.closed, accepted,
      next_worker, s.stopper, pc, s.worker, s.storeKept, s.killed⟩ := by
  have hnot : ¬ s.stopper.Joined := fun hj => hl (h.joined hj)
  refine ⟨h.stopped, h.listenerShut, fun hj => absurd hj hnot, fun i hi => ?_,
    fun i rest hpc => ?_, h.waited, fun i hi => ⟨(h.outside i hi).1, houtside i hi⟩⟩
  · refine absurd ?_ hnot
    revert hi
    cases s.stopper <;> simp [StopPc.Swept, StopPc.Joined]
  · refine absurd ?_ hnot
    rw [show s.stopper = .closing i rest from hpc]
    trivial

/-- A worker only takes from its queue, and not while `stop` goes through
it. -/
theorem Stopping.worker (h : Stopping n s) (hfrom : s.worker i ≠ .done)
    {owner : Nat → Option Thread} {queues : Nat → List Nat} {closed : Nat → Bool} {pc : WorkerPc}
    (hsub : ∀ j, ∀ c ∈ queues j, c ∈ s.conn_queues j)
    (hclosing : ∀ j rest, s.stopper = .closing j rest → queues j = s.conn_queues j) :
    Stopping n ⟨s.is_stopped, s.listenerShut, owner, queues, s.shut, closed, s.accepted,
      s.next_worker, s.stopper, s.listener, Function.update s.worker i pc, s.storeKept,
      s.killed⟩ := by
  refine ⟨h.stopped, h.listenerShut, h.joined, fun j hj c hc => h.swept j hj c (hsub j c hc),
    fun j rest hpc => ?_, fun j hj => ?_, fun j hj => ?_⟩
  · obtain ⟨hshut, hrest⟩ := h.closing j rest hpc
    have hsame := hclosing j rest hpc
    exact ⟨fun c hc => hshut c (hsub j c hc), fun c hc => by
      dsimp only
      rw [hsame]
      exact hrest c hc⟩
  · have hdone := h.waited j hj
    have hne : j ≠ i := fun he => hfrom (he ▸ hdone)
    dsimp only
    rw [Function.update_of_ne hne]
    exact hdone
  · obtain ⟨hdone, hnil⟩ := h.outside j hj
    have hne : j ≠ i := fun he => hfrom (he ▸ hdone)
    refine ⟨?_, List.eq_nil_iff_forall_not_mem.mpr fun c hc => ?_⟩
    · dsimp only
      rw [Function.update_of_ne hne]
      exact hdone
    · have hold := hsub j c hc
      rw [hnil] at hold
      cases hold

end SystemsProjects.Net.ServerThreads
