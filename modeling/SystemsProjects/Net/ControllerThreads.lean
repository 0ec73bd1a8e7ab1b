/-
SystemsProjects.Net.ControllerThreads — the threads of a
StaticShardController: start, stop, accept_clients_loop and handle_client
(shardcontroller/static_shardcontroller.cpp).

A listener accepts connections and starts a detached thread for each. The
threads are never joined: `stop` shuts their connections down and waits on
a condition variable until the last of them has taken its connection off
the list. The steps below are the ones the threads can interleave at: a
read of `is_stopped`, the mutex, a call on a socket.

Nothing catches an exception and nothing ignores SIGPIPE, so a thread can
end the process. `process_request` takes no lock and comes to an end; it
throws for the requests of a KvServer.
-/
import Mathlib.Data.List.Nodup
import Mathlib.Data.Set.Basic
import Mathlib.Logic.Function.Basic
import SystemsProjects.Base.CriticalSection
import SystemsProjects.Base.Interleaving

namespace SystemsProjects.Net.Controller

open SystemsProjects.Base

/-! ## The threads -/

/-- A connection, by the order of acceptance; also the thread that handles
it. -/
abbrev ConnId := Nat

inductive Thread where
  | stop
  | listener
  | handler (c : ConnId)
  deriving DecidableEq, Repr

/-- Where the caller of `stop` is. -/
inductive StopPc where
  /-- `stop` is not called. -/
  | idle
  | shutListener
  | joining
  | locking
  /-- Shutting the connections down, with the mutex. -/
  | closing (rest : List ConnId)
  /-- At the predicate of the wait, with the mutex. -/
  | checking
  | sleeping
  | waking
  | returned
  deriving DecidableEq, Repr

/-- Where accept_clients_loop is. -/
inductive ListenerPc where
  | loop
  | accepting
  | locking (c : ConnId)
  /-- Starting the thread, with the mutex. -/
  | spawning (c : ConnId)
  | pushing (c : ConnId)
  | unlocking
  | done
  deriving DecidableEq, Repr

/-- Where handle_client is. -/
inductive HandlerPc where
  | notStarted
  | loop
  | receiving
  /-- Processing a request, or sending the type and the size of the
  response. -/
  | responding
  /-- Sending the bytes of the response: without MSG_NOSIGNAL. -/
  | payload
  | leaving
  | locking
  /-- At `find` and `erase`, with the mutex. -/
  | erasing
  | notifying
  | unlocking
  | done
  deriving DecidableEq, Repr

structure State where
  is_stopped : Bool
  listenerShut : Bool
  /-- The owner of `conns_mtx`. -/
  owner : Option Thread
  current_conns : List ConnId
  /-- The connections that were shut down: `is_connected` is false. -/
  shut : ConnId → Bool
  accepted : Nat
  stopper : StopPc
  listener : ListenerPc
  handler : ConnId → HandlerPc
  /-- A signal or an exception has ended the process. -/
  killed : Bool

/-- After `start`. -/
def started : State :=
  ⟨false, false, none, [], fun _ => false, 0, .idle, .loop, fun _ => .notStarted, false⟩

namespace State

variable (s : State)

def goStop (pc : StopPc) : State := { s with stopper := pc }

def goListener (pc : ListenerPc) : State := { s with listener := pc }

def goHandler (c : ConnId) (pc : HandlerPc) : State :=
  { s with handler := Function.update s.handler c pc }

/-- `conns_mtx` taken by a thread, which waits as long as it is held. -/
def lock (t : Thread) : Option State :=
  if s.owner = none then some { s with owner := some t } else none

def unlock : State := { s with owner := none }

def shutdown (c : ConnId) : State := { s with shut := Function.update s.shut c true }

/-! ## Steps -/

def stepStop : Option State :=
  match s.stopper with
  | .idle => some ({ s with is_stopped := true }.goStop .shutListener)
  | .shutListener => some ({ s with listenerShut := true }.goStop .joining)
  | .joining => if s.listener = .done then some (s.goStop .locking) else none
  | .locking => (s.lock .stop).map (·.goStop (.closing s.current_conns))
  | .closing [] => some (s.goStop .checking)
  | .closing (c :: rest) => some ((s.shutdown c).goStop (.closing rest))
  | .checking => some (s.unlock.goStop (if s.current_conns = [] then .returned else .sleeping))
  | .sleeping => none
  | .waking => (s.lock .stop).map (·.goStop .checking)
  | .returned => none

/-- `accept` on a listener that was shut down fails. -/
def stepListener : Option State :=
  match s.listener with
  | .loop => some (s.goListener (if s.is_stopped then .done else .accepting))
  | .accepting => if s.listenerShut then some (s.goListener .done) else none
  | .locking c => (s.lock .listener).map (·.goListener (.spawning c))
  | .spawning c => some ((s.goHandler c .loop).goListener (.pushing c))
  | .pushing c => some ({ s with current_conns := s.current_conns ++ [c] }.goListener .unlocking)
  | .unlocking => some (s.unlock.goListener .loop)
  | .done => none

/-- A call on a connection that was shut down fails; the send of the bytes
of a response raises SIGPIPE as well. -/
def stepHandler (c : ConnId) : Option State :=
  match s.handler c with
  | .notStarted => none
  | .loop => some (s.goHandler c (if s.is_stopped || s.shut c then .leaving else .receiving))
  | .receiving => if s.shut c then some (s.goHandler c .leaving) else none
  | .responding => if s.shut c then some (s.goHandler c .leaving) else none
  | .payload => if s.shut c then some { s with killed := true } else none
  | .leaving => some ((s.shutdown c).goHandler c .locking)
  | .locking => (s.lock (.handler c)).map (·.goHandler c .erasing)
  | .erasing => some ({ s with current_conns := s.current_conns.erase c }.goHandler c .notifying)
  | .notifying =>
    some ((if s.current_conns = [] ∧ s.stopper = .sleeping then s.goStop .waking else s).goHandler
      c .unlocking)
  | .unlocking => some (s.unlock.goHandler c .done)
  | .done => none

/-- Where an exception can leave a thread: the listener starts a thread or
allocates, a handler reads or processes what a client sent. At the bytes of
a response a handler also gets SIGPIPE, when the client is gone. -/
def MayDie : Thread → Bool
  | .stop => false
  | .listener =>
    match s.listener with
    | .accepting | .spawning _ | .pushing _ => true
    | .loop | .locking _ | .unlocking | .done => false
  | .handler c =>
    match s.handler c with
    | .receiving | .responding | .payload => true
    | .notStarted | .loop | .leaving | .locking | .erasing | .notifying | .unlocking | .done =>
      false

end State

/-- A step of a thread by itself, or one that the clients and the system
bring about: a connection is accepted or `accept` fails, a receive or a
send returns, the wait ends without a notification, a thread ends the
process. -/
inductive Action where
  | stop
  | listener
  | handler (c : ConnId)
  | accepts
  | acceptFails
  | receives (c : ConnId) (request : Bool)
  /-- The type and the size of a response are sent, and bytes follow. -/
  | heads (c : ConnId)
  /-- All of a response is sent, or a send of it fails. -/
  | responds (c : ConnId) (sent : Bool)
  | wakes
  | dies (t : Thread)
  deriving DecidableEq, Repr

def State.move (s : State) : Action → Option State
  | .stop => s.stepStop
  | .listener => s.stepListener
  | .handler c => s.stepHandler c
  | .accepts =>
    if s.listener = .accepting ∧ s.listenerShut = false then
      some ({ s with accepted := s.accepted + 1 }.goListener (.locking s.accepted))
    else none
  | .acceptFails => if s.listener = .accepting then some (s.goListener .done) else none
  | .receives c request =>
    if s.handler c = .receiving then
      some (s.goHandler c (if request then .responding else .leaving))
    else none
  | .heads c => if s.handler c = .responding then some (s.goHandler c .payload) else none
  | .responds c sent =>
    if s.handler c = .responding ∨ s.handler c = .payload then
      some (s.goHandler c (if sent then .loop else .leaving))
    else none
  | .wakes => if s.stopper = .sleeping then some (s.goStop .waking) else none
  | .dies t => if s.MayDie t then some { s with killed := true } else none

def step (s : State) (a : Action) : Option State := if s.killed then none else s.move a

abbrev Run : State → List Action → State → Prop := Runs step

/-- The states some interleaving reaches. -/
def Reaches (s : State) : Prop := ∃ as, Run started as s

/-! ## The invariant -/

namespace HandlerPc

/-- Started, and its connection not yet taken off the list. -/
def Live : HandlerPc → Prop
  | .loop | .receiving | .responding | .payload | .leaving | .locking | .erasing => True
  | .notStarted | .notifying | .unlocking | .done => False

/-- With the mutex. -/
def Inside : HandlerPc → Prop
  | .erasing | .notifying | .unlocking => True
  | _ => False

end HandlerPc

namespace State

/-- The threads that run in a section of `conns_mtx`. -/
def Holds (s : State) : Thread → Prop
  | .stop => s.stopper = .checking ∨ ∃ rest, s.stopper = .closing rest
  | .listener => s.listener = .unlocking ∨ ∃ c, s.listener = .spawning c ∨ s.listener = .pushing c
  | .handler c => (s.handler c).Inside

end State

/-- Past the join of the listener. -/
def StopPc.Joined : StopPc → Prop
  | .idle | .shutListener | .joining => False
  | _ => True

structure Inv (s : State) : Prop where
  owner : Guarded s.Holds s.owner
  nodup : s.current_conns.Nodup
  conns : ∀ c, c ∈ s.current_conns ↔ (s.handler c).Live ∧ s.listener ≠ .pushing c
  notStarted : ∀ c, s.handler c = .notStarted ↔
    s.accepted ≤ c ∨ s.listener = .locking c ∨ s.listener = .spawning c
  pending : ∀ c, s.listener = .locking c ∨ s.listener = .spawning c ∨ s.listener = .pushing c →
    c < s.accepted
  pushing : ∀ c, s.listener = .pushing c → (s.handler c).Live
  stopped : s.is_stopped = true ↔ s.stopper ≠ .idle
  listenerShut : s.listenerShut = true ↔ s.stopper ≠ .idle ∧ s.stopper ≠ .shutListener
  joined : s.stopper.Joined → s.listener = .done
  closing : ∀ rest, s.stopper = .closing rest → ∀ c ∈ s.current_conns, s.shut c = true ∨ c ∈ rest
  closed : s.stopper = .checking ∨ s.stopper = .sleeping ∨ s.stopper = .waking →
    ∀ c ∈ s.current_conns, s.shut c = true
  notified : s.stopper = .sleeping → s.current_conns = [] → ∃ c, s.handler c = .notifying
  returned : s.stopper = .returned → s.current_conns = [] ∧ ∀ c, ¬ (s.handler c).Inside

theorem inv_started : Inv started where
  owner := by
    intro t
    cases t <;> simp [State.Holds, started, HandlerPc.Inside]
  nodup := List.nodup_nil
  conns := by
    intro c
    simp [started, HandlerPc.Live]
  notStarted := by simp [started]
  pending := by simp [started]
  pushing := by simp [started]
  stopped := by simp [started]
  listenerShut := by simp [started]
  joined := by simp [started, StopPc.Joined]
  closing := by simp [started]
  closed := by simp [started]
  notified := by simp [started]
  returned := by simp [started]

variable {s s' : State} {c : ConnId}

/-- The end of the process leaves everything where it is. -/
theorem Inv.kill (h : Inv s) : Inv { s with killed := true } :=
  ⟨h.owner, h.nodup, h.conns, h.notStarted, h.pending, h.pushing, h.stopped, h.listenerShut,
    h.joined, h.closing, h.closed, h.notified, h.returned⟩

/-! ### The mutex -/

theorem Inv.not_holds (h : Inv s) (hfree : s.owner = none) (t : Thread) : ¬ s.Holds t :=
  Guarded.not_holds (hfree ▸ h.owner) t

theorem Inv.owner_acquire (h : Inv s) (s' : State) (hfree : s.owner = none) {t : Thread}
    (hown : s'.owner = some t) (hholds : ∀ t', s'.Holds t' ↔ t' = t ∨ s.Holds t') :
    Guarded s'.Holds s'.owner :=
  hown ▸ Guarded.acquire (hfree ▸ h.owner) hholds

theorem Inv.owner_release (h : Inv s) (s' : State) {t : Thread} (ht : s.Holds t)
    (hown : s'.owner = none) (hholds : ∀ t', s'.Holds t' ↔ s.Holds t' ∧ t' ≠ t) :
    Guarded s'.Holds s'.owner :=
  hown ▸ h.owner.release ht hholds

theorem Inv.owner_keep (h : Inv s) (s' : State) (hown : s'.owner = s.owner)
    (hholds : ∀ t, s'.Holds t ↔ s.Holds t) : Guarded s'.Holds s'.owner :=
  hown ▸ h.owner.keep hholds

/-! ### Steps of `stop` -/

/-- The parts of the invariant that say nothing of `stop`. -/
theorem Inv.withStop (h : Inv s) {stopped listenerShut : Bool} {owner : Option Thread}
    {shut : ConnId → Bool} {pc : StopPc}
    (howner : ∀ t, State.Holds { s with stopper := pc } t ↔ owner = some t)
    (hstopped : stopped = true ↔ pc ≠ .idle)
    (hlistener : listenerShut = true ↔ pc ≠ .idle ∧ pc ≠ .shutListener)
    (hjoined : pc.Joined → s.listener = .done)
    (hclosing : ∀ rest, pc = .closing rest → ∀ c ∈ s.current_conns, shut c = true ∨ c ∈ rest)
    (hclosed : pc = .checking ∨ pc = .sleeping ∨ pc = .waking →
      ∀ c ∈ s.current_conns, shut c = true)
    (hnotified : pc = .sleeping → s.current_conns = [] → ∃ c, s.handler c = .notifying)
    (hreturned : pc = .returned → s.current_conns = [] ∧ ∀ c, ¬ (s.handler c).Inside) :
    Inv ⟨stopped, listenerShut, owner, s.current_conns, shut, s.accepted, pc, s.listener,
      s.handler, s.killed⟩ where
  owner := howner
  nodup := h.nodup
  conns := h.conns
  notStarted := h.notStarted
  pending := h.pending
  pushing := h.pushing
  stopped := hstopped
  listenerShut := hlistener
  joined := hjoined
  closing := hclosing
  closed := hclosed
  notified := hnotified
  returned := hreturned

/-- Outside of the sections of `stop` only its place changes. -/
theorem holds_goStop {pc : StopPc} (hfrom : ¬ s.Holds .stop)
    (hto : pc ≠ .checking ∧ ∀ rest, pc ≠ .closing rest) (t : Thread) :
    State.Holds { s with stopper := pc } t ↔ s.Holds t := by
  cases t with
  | stop => exact iff_of_false (fun he => he.elim hto.1 fun ⟨rest, hr⟩ => hto.2 rest hr) hfrom
  | listener => exact Iff.rfl
  | handler c => exact Iff.rfl

theorem lock_eq_some {t : Thread} (h : s.lock t = some s') :
    s.owner = none ∧ s' = { s with owner := some t } := by
  unfold State.lock at h
  split at h
  · cases h
    exact ⟨by assumption, rfl⟩
  · cases h

/-- A thread in its section keeps the other two kinds out of theirs. -/
theorem Inv.alone (h : Inv s) (hstop : s.Holds .stop) (c : ConnId) : ¬ (s.handler c).Inside :=
  fun hin => nomatch h.owner.unique .stop (.handler c) hstop hin

theorem Inv.stepStop (h : Inv s) (hs : s.stepStop = some s') : Inv s' := by
  unfold State.stepStop at hs
  split at hs
  · rename_i hpc
    cases hs
    have hout : ¬ s.Holds .stop := by simp [State.Holds, hpc]
    exact h.withStop (h.owner_keep _ rfl (holds_goStop hout (by simp))) (by simp)
      (by simp [h.listenerShut, hpc]) (fun hj => absurd hj id) (by simp) (by simp) (by simp)
      (by simp)
  · rename_i hpc
    cases hs
    have hout : ¬ s.Holds .stop := by simp [State.Holds, hpc]
    exact h.withStop (h.owner_keep _ rfl (holds_goStop hout (by simp))) (by simp [h.stopped, hpc])
      (by simp) (fun hj => absurd hj id) (by simp) (by simp) (by simp) (by simp)
  · rename_i hpc
    split at hs
    · rename_i hdone
      cases hs
      have hout : ¬ s.Holds .stop := by simp [State.Holds, hpc]
      exact h.withStop (h.owner_keep _ rfl (holds_goStop hout (by simp)))
        (by simp [h.stopped, hpc]) (by simp [h.listenerShut, hpc]) (fun _ => hdone) (by simp)
        (by simp) (by simp) (by simp)
    · cases hs
  · rename_i hpc
    obtain ⟨s₁, hlock, rfl⟩ := Option.map_eq_some_iff.mp hs
    obtain ⟨hfree, rfl⟩ := lock_eq_some hlock
    have howner := h.owner_acquire ({ s with owner := some .stop }.goStop
      (.closing s.current_conns)) hfree rfl fun t => by
        cases t <;> simp [State.Holds, State.goStop, hpc]
    exact h.withStop howner (by simp [h.stopped, hpc]) (by simp [h.listenerShut, hpc])
      (fun _ => h.joined (by rw [hpc]; trivial))
      (fun rest hrest c hc => .inr (by cases hrest; exact hc)) (by simp) (by simp) (by simp)
  · rename_i hpc
    cases hs
    have howner := h.owner_keep (s.goStop .checking) rfl fun t => by
      cases t <;> simp [State.Holds, State.goStop, hpc]
    exact h.withStop howner (by simp [h.stopped, hpc]) (by simp [h.listenerShut, hpc])
      (fun _ => h.joined (by rw [hpc]; trivial)) (by simp)
      (fun _ c hc => (h.closing [] hpc c hc).resolve_right List.not_mem_nil) (by simp) (by simp)
  · rename_i c rest hpc
    cases hs
    have howner := h.owner_keep ((s.shutdown c).goStop (.closing rest)) rfl fun t => by
      cases t <;> simp [State.Holds, State.goStop, State.shutdown, hpc]
    refine h.withStop howner (by simp [State.shutdown, h.stopped, hpc])
      (by simp [State.shutdown, h.listenerShut, hpc]) (fun _ => h.joined (by rw [hpc]; trivial))
      (fun rest' he d hd => ?_) (by simp) (by simp) (by simp)
    cases he
    by_cases hdc : d = c
    · subst hdc
      exact .inl (Function.update_self _ _ _)
    · rcases h.closing _ hpc d hd with hshut | hrest
      · exact .inl ((Function.update_of_ne hdc _ _).trans hshut)
      · exact .inr ((List.mem_cons.mp hrest).resolve_left hdc)
  · rename_i hpc
    cases hs
    have hin : s.Holds .stop := .inl hpc
    by_cases hempty : s.current_conns = []
    · rw [if_pos hempty]
      have howner := h.owner_release (s.unlock.goStop .returned) hin rfl fun t => by
        cases t <;> simp [State.Holds, State.goStop, State.unlock]
      exact h.withStop howner (by simp [State.unlock, h.stopped, hpc])
        (by simp [State.unlock, h.listenerShut, hpc]) (fun _ => h.joined (by rw [hpc]; trivial))
        (by simp) (by simp) (by simp) (fun _ => ⟨hempty, h.alone hin⟩)
    · rw [if_neg hempty]
      have howner := h.owner_release (s.unlock.goStop .sleeping) hin rfl fun t => by
        cases t <;> simp [State.Holds, State.goStop, State.unlock]
      exact h.withStop howner (by simp [State.unlock, h.stopped, hpc])
        (by simp [State.unlock, h.listenerShut, hpc]) (fun _ => h.joined (by rw [hpc]; trivial))
        (by simp) (fun _ => h.closed (.inl hpc)) (fun _ he => absurd he hempty) (by simp)
  · cases hs
  · rename_i hpc
    obtain ⟨s₁, hlock, rfl⟩ := Option.map_eq_some_iff.mp hs
    obtain ⟨hfree, rfl⟩ := lock_eq_some hlock
    have howner := h.owner_acquire ({ s with owner := some .stop }.goStop .checking) hfree
      rfl fun t => by cases t <;> simp [State.Holds, State.goStop, hpc]
    exact h.withStop howner (by simp [h.stopped, hpc]) (by simp [h.listenerShut, hpc])
      (fun _ => h.joined (by rw [hpc]; trivial)) (by simp)
      (fun _ => h.closed (.inr (.inr hpc))) (by simp) (by simp)
  · cases hs

/-- The wait ends without a notification. -/
theorem Inv.wakes (h : Inv s) (hpc : s.stopper = .sleeping) : Inv (s.goStop .waking) := by
  have hout : ¬ s.Holds .stop := by simp [State.Holds, hpc]
  exact h.withStop (h.owner_keep _ rfl (holds_goStop hout (by simp))) (by simp [h.stopped, hpc])
    (by simp [h.listenerShut, hpc]) (fun _ => h.joined (by rw [hpc]; trivial)) (by simp)
    (fun _ => h.closed (.inr (.inl hpc))) (by simp) (by simp)

/-! ### Steps of the listener -/

/-- Outside of the sections of the listener only its place changes, and
that a connection is accepted. -/
theorem Inv.goListener (h : Inv s) {pc : ListenerPc} {accepted : Nat}
    (hfrom : s.listener = .loop ∨ s.listener = .accepting)
    (hto : pc = .accepting ∧ accepted = s.accepted ∨ pc = .done ∧ accepted = s.accepted ∨
      pc = .locking s.accepted ∧ accepted = s.accepted + 1) :
    Inv { s with accepted := accepted, listener := pc } where
  owner := h.owner_keep _ rfl fun t => by
    rcases hfrom with hl | hl <;> rcases hto with ⟨rfl, -⟩ | ⟨rfl, -⟩ | ⟨rfl, -⟩ <;>
      cases t <;> simp [State.Holds, hl]
  nodup := h.nodup
  conns := by
    intro c
    have hc := h.conns c
    rcases hfrom with hl | hl <;> rcases hto with ⟨rfl, -⟩ | ⟨rfl, -⟩ | ⟨rfl, -⟩ <;>
      simpa [hl] using hc
  notStarted := by
    intro c
    have hc := h.notStarted c
    rcases hfrom with hl | hl <;> rcases hto with ⟨rfl, rfl⟩ | ⟨rfl, rfl⟩ | ⟨rfl, rfl⟩ <;>
      simp [hl] at hc ⊢ <;> grind
  pending := by
    intro c hc
    rcases hto with ⟨rfl, rfl⟩ | ⟨rfl, rfl⟩ | ⟨rfl, rfl⟩
    · simp at hc
    · simp at hc
    · have he : s.accepted = c := by simpa using hc
      exact he ▸ Nat.lt_succ_self _
  pushing := by
    intro c hpush
    rcases hto with ⟨rfl, rfl⟩ | ⟨rfl, rfl⟩ | ⟨rfl, rfl⟩ <;> cases hpush
  stopped := h.stopped
  listenerShut := h.listenerShut
  joined := by
    intro hj
    have hdone := h.joined hj
    rcases hfrom with hl | hl <;> rw [hl] at hdone <;> cases hdone
  closing := h.closing
  closed := h.closed
  notified := h.notified
  returned := h.returned

/-- The listener is not done, so `stop` is not past its join. -/
theorem Inv.not_joined (h : Inv s) (hl : s.listener ≠ .done) : ¬ s.stopper.Joined :=
  fun hj => hl (h.joined hj)

theorem StopPc.not_joined_cases {pc : StopPc} (h : ¬ pc.Joined) :
    pc = .idle ∨ pc = .shutListener ∨ pc = .joining := by
  cases pc <;> simp_all [StopPc.Joined]

/-- The parts of the invariant about a `stop` that is past its join. -/
theorem Inv.withListener (h : Inv s) (hl : s.listener ≠ .done) {owner : Option Thread}
    {conns : List ConnId} {pc : ListenerPc} {handler : ConnId → HandlerPc}
    (howner : ∀ t, State.Holds { s with listener := pc, handler := handler } t ↔ owner = some t)
    (hnodup : conns.Nodup)
    (hconns : ∀ c, c ∈ conns ↔ (handler c).Live ∧ pc ≠ .pushing c)
    (hnotStarted : ∀ c, handler c = .notStarted ↔
      s.accepted ≤ c ∨ pc = .locking c ∨ pc = .spawning c)
    (hpending : ∀ c, pc = .locking c ∨ pc = .spawning c ∨ pc = .pushing c → c < s.accepted)
    (hpushing : ∀ c, pc = .pushing c → (handler c).Live) :
    Inv ⟨s.is_stopped, s.listenerShut, owner, conns, s.shut, s.accepted, s.stopper, pc,
      handler, s.killed⟩ := by
  have hpc := StopPc.not_joined_cases (h.not_joined hl)
  refine ⟨howner, hnodup, hconns, hnotStarted, hpending, hpushing, h.stopped, h.listenerShut,
    fun hj => absurd hj (h.not_joined hl), ?_, ?_, ?_, ?_⟩
  all_goals
    rcases hpc with hpc | hpc | hpc <;> simp [hpc]

theorem Inv.stepListener (h : Inv s) (hs : s.stepListener = some s') : Inv s' := by
  unfold State.stepListener at hs
  split at hs
  · rename_i hpc
    cases hs
    refine h.goListener (.inl hpc) ?_
    split
    · exact .inr (.inl ⟨rfl, rfl⟩)
    · exact .inl ⟨rfl, rfl⟩
  · rename_i hpc
    split at hs
    · cases hs
      exact h.goListener (.inr hpc) (.inr (.inl ⟨rfl, rfl⟩))
    · cases hs
  · rename_i c hpc
    obtain ⟨s₁, hlock, rfl⟩ := Option.map_eq_some_iff.mp hs
    obtain ⟨hfree, rfl⟩ := lock_eq_some hlock
    have howner := h.owner_acquire ({ s with owner := some .listener }.goListener
      (.spawning c)) hfree rfl fun t => by
        cases t <;> simp [State.Holds, State.goListener, hpc]
    refine h.withListener (by rw [hpc]; exact fun he => nomatch he) howner h.nodup (fun d => ?_)
      (fun d => ?_) (fun d hd => ?_) (fun d hd => nomatch hd)
    · rw [h.conns d, hpc]
      simp
    · rw [h.notStarted d, hpc]
      simp
    · refine h.pending d (.inl ?_)
      rw [hpc]
      simpa using hd
  · rename_i c hpc
    cases hs
    have hnot := (h.notStarted c).mpr (.inr (.inr hpc))
    have howner := h.owner_keep ((s.goHandler c .loop).goListener (.pushing c)) rfl
      fun t => by
        cases t with
        | stop => simp [State.Holds, State.goListener, State.goHandler]
        | listener => simp [State.Holds, State.goListener, State.goHandler, hpc]
        | handler d =>
          by_cases hd : d = c
          · subst hd
            simp [State.Holds, State.goListener, State.goHandler, hnot, HandlerPc.Inside]
          · simp [State.Holds, State.goListener, State.goHandler, hd]
    refine h.withListener (by rw [hpc]; exact fun he => nomatch he) howner h.nodup (fun d => ?_)
      (fun d => ?_) (fun d hd => ?_) (fun d hd => ?_)
    · by_cases hd : d = c
      · subst hd
        simp [State.goHandler, h.conns, hnot, HandlerPc.Live]
      · simp [State.goHandler, h.conns, hpc, hd, Ne.symm hd]
    · by_cases hd : d = c
      · subst hd
        simpa [State.goHandler] using h.pending d (.inr (.inl hpc))
      · simp [State.goHandler, h.notStarted, hpc, hd, Ne.symm hd]
    · refine h.pending d (.inr (.inl ?_))
      rw [hpc]
      simpa using hd
    · obtain rfl : c = d := by simpa using hd
      simp [State.goHandler, HandlerPc.Live]
  · rename_i c hpc
    cases hs
    have hlive := h.pushing c hpc
    have hnew : c ∉ s.current_conns := fun hc => ((h.conns c).mp hc).2 hpc
    have howner := h.owner_keep ({ s with current_conns := s.current_conns ++ [c] }.goListener
      .unlocking) rfl fun t => by
        cases t <;> simp [State.Holds, State.goListener, hpc]
    refine h.withListener (by rw [hpc]; exact fun he => nomatch he) howner ?_ (fun d => ?_)
      (fun d => ?_) (fun d hd => by simp at hd) (fun d hd => nomatch hd)
    · exact List.nodup_append.mpr ⟨h.nodup, List.nodup_singleton c, fun a ha b hb => by
        rw [List.mem_singleton.mp hb]
        exact fun he => hnew (he ▸ ha)⟩
    · by_cases hd : d = c
      · subst hd
        simp [hlive]
      · simp [h.conns, hpc, hd, Ne.symm hd]
    · rw [h.notStarted d, hpc]
      simp
  · rename_i hpc
    cases hs
    have hin : s.Holds .listener := .inl hpc
    have howner := h.owner_release (s.unlock.goListener .loop) hin rfl fun t => by
      cases t <;> simp [State.Holds, State.goListener, State.unlock]
    refine h.withListener (by rw [hpc]; exact fun he => nomatch he) howner h.nodup (fun d => ?_)
      (fun d => ?_) (fun d hd => by simp at hd) (fun d hd => nomatch hd)
    · have hd := h.conns d
      rw [hpc] at hd
      simpa [State.unlock] using hd
    · have hd := h.notStarted d
      rw [hpc] at hd
      simpa [State.unlock] using hd
  · cases hs

/-! ### Steps of the handlers -/

/-- The parts of the invariant about the other threads. -/
theorem Inv.withHandler (h : Inv s) (hfrom : s.handler c ≠ .notStarted) {owner : Option Thread}
    {conns : List ConnId} {shut : ConnId → Bool} {pc : HandlerPc} (hto : pc ≠ .notStarted)
    (howner : ∀ t, State.Holds { s with handler := Function.update s.handler c pc } t ↔
      owner = some t)
    (hnodup : conns.Nodup) (hsub : ∀ d ∈ conns, d ∈ s.current_conns)
    (hconns : ∀ d, d ∈ conns ↔ (Function.update s.handler c pc d).Live ∧ s.listener ≠ .pushing d)
    (hpushing : s.listener = .pushing c → pc.Live) (hshut : ∀ d, s.shut d = true → shut d = true)
    (hnotified : s.stopper = .sleeping → conns = [] →
      ∃ d, Function.update s.handler c pc d = .notifying)
    (hreturned : s.stopper = .returned → ¬ pc.Inside) :
    Inv ⟨s.is_stopped, s.listenerShut, owner, conns, shut, s.accepted, s.stopper, s.listener,
      Function.update s.handler c pc, s.killed⟩ where
  owner := howner
  nodup := hnodup
  conns := hconns
  notStarted := by
    intro d
    by_cases hd : d = c
    · subst hd
      simp only [Function.update_self]
      exact iff_of_false hto fun he => hfrom ((h.notStarted d).mpr he)
    · simp only [Function.update_of_ne hd]
      exact h.notStarted d
  pending := h.pending
  pushing := by
    intro d hd
    by_cases hdc : d = c
    · subst hdc
      simp only [Function.update_self]
      exact hpushing hd
    · simp only [Function.update_of_ne hdc]
      exact h.pushing d hd
  stopped := h.stopped
  listenerShut := h.listenerShut
  joined := h.joined
  closing := fun rest hrest d hd => (h.closing rest hrest d (hsub d hd)).imp (hshut d) id
  closed := fun hpc d hd => hshut d (h.closed hpc d (hsub d hd))
  notified := hnotified
  returned := by
    intro hr
    obtain ⟨hempty, hout⟩ := h.returned hr
    refine ⟨List.eq_nil_iff_forall_not_mem.mpr fun d hd => ?_, fun d => ?_⟩
    · have hold := hsub d hd
      rw [hempty] at hold
      cases hold
    · by_cases hd : d = c
      · subst hd
        simp only [Function.update_self]
        exact hreturned hr
      · simp only [Function.update_of_ne hd]
        exact hout d

/-- A handler of a connection on the list moves outside of the sections. -/
theorem Inv.goHandler (h : Inv s) (pc : HandlerPc)
    (hfrom : (s.handler c).Live ∧ ¬ (s.handler c).Inside) (hto : pc.Live ∧ ¬ pc.Inside)
    {shut : ConnId → Bool} (hshut : ∀ d, s.shut d = true → shut d = true) :
    Inv { s with shut := shut, handler := Function.update s.handler c pc } := by
  have hlive : ∀ d, (Function.update s.handler c pc d).Live ↔ (s.handler d).Live := by
    intro d
    by_cases hd : d = c
    · subst hd
      rw [Function.update_self]
      exact iff_of_true hto.1 hfrom.1
    · rw [Function.update_of_ne hd]
  refine h.withHandler (fun he => by rw [he] at hfrom; exact hfrom.1) (fun he => by
    rw [he] at hto; exact hto.1) (h.owner_keep _ rfl fun t => ?_) h.nodup (fun _ hd => hd)
    (fun d => by rw [hlive]; exact h.conns d) (fun _ => hto.1) hshut (fun hs hempty => ?_)
    (fun _ => hto.2)
  · cases t with
    | stop => exact Iff.rfl
    | listener => exact Iff.rfl
    | handler d =>
      by_cases hd : d = c
      · subst hd
        simp [State.Holds, hfrom.2, hto.2]
      · simp [State.Holds, hd]
  · obtain ⟨d, hd⟩ := h.notified hs hempty
    refine ⟨d, ?_⟩
    have hdc : d ≠ c := by
      rintro rfl
      rw [hd] at hfrom
      exact hfrom.1
    rw [Function.update_of_ne hdc]
    exact hd

theorem Inv.lockHandler (h : Inv s) (hpc : s.handler c = .locking) (hfree : s.owner = none) :
    Inv ({ s with owner := some (.handler c) }.goHandler c .erasing) := by
  have hmem : s.listener ≠ .pushing c → c ∈ s.current_conns := fun hl =>
    (h.conns c).mpr ⟨by rw [hpc]; trivial, hl⟩
  have hlive : ∀ d, (Function.update s.handler c .erasing d).Live ↔ (s.handler d).Live := by
    intro d
    by_cases hd : d = c
    · subst hd
      rw [Function.update_self, hpc]
      exact Iff.rfl
    · rw [Function.update_of_ne hd]
  have howner := h.owner_acquire ({ s with owner := some (.handler c) }.goHandler c .erasing)
    hfree rfl fun t => by
      cases t with
      | stop => simp [State.Holds, State.goHandler]
      | listener => simp [State.Holds, State.goHandler]
      | handler d =>
        by_cases hd : d = c
        · subst hd
          simp [State.Holds, State.goHandler, HandlerPc.Inside]
        · simp [State.Holds, State.goHandler, hd]
  refine h.withHandler (by rw [hpc]; exact fun he => nomatch he) (fun he => nomatch he) howner
    h.nodup (fun _ hd => hd) (fun d => by rw [hlive]; exact h.conns d) (fun _ => trivial)
    (fun _ hd => hd) (fun hs hempty => ?_) (fun hr => ?_)
  · obtain ⟨d, hd⟩ := h.notified hs hempty
    refine absurd (h.not_holds hfree (.handler d)) (not_not_intro ?_)
    rw [State.Holds, hd]
    trivial
  · have hdone := h.joined (by rw [hr]; trivial)
    have hc := hmem (by rw [hdone]; exact fun he => nomatch he)
    rw [(h.returned hr).1] at hc
    cases hc

/-- The connection is on the list, and is taken off. -/
theorem Inv.eraseHandler (h : Inv s) (hpc : s.handler c = .erasing) :
    Inv ({ s with current_conns := s.current_conns.erase c }.goHandler c .notifying) := by
  have hin : s.Holds (.handler c) := by
    rw [State.Holds, hpc]
    trivial
  have hnotPushing : s.listener ≠ .pushing c := fun hl =>
    nomatch h.owner.unique (.handler c) .listener hin (.inr ⟨c, .inr hl⟩)
  refine h.withHandler (by rw [hpc]; exact fun he => nomatch he) (fun he => nomatch he)
    (h.owner_keep _ rfl fun t => ?_) (h.nodup.erase c) (fun _ hd => List.mem_of_mem_erase hd)
    (fun d => ?_) (fun hl => absurd hl hnotPushing) (fun _ hd => hd)
    (fun _ _ => ⟨c, Function.update_self _ _ _⟩) (fun hr _ => (h.returned hr).2 c hin)
  · cases t with
    | stop => simp [State.Holds]
    | listener => simp [State.Holds]
    | handler d =>
      by_cases hd : d = c
      · subst hd
        simp [State.Holds, HandlerPc.Inside, hpc]
      · simp [State.Holds, hd]
  · rw [h.nodup.mem_erase_iff]
    by_cases hd : d = c
    · subst hd
      simp [HandlerPc.Live]
    · simp [hd, h.conns]

/-- Nothing but the place of a handler changes, past its `erase`. -/
theorem Inv.finishHandler (h : Inv s) {pc : HandlerPc} {owner : Option Thread}
    (hpc : s.handler c = .notifying ∨ s.handler c = .unlocking)
    (hto : pc = .unlocking ∨ pc = .done)
    (howner : ∀ t, State.Holds { s with handler := Function.update s.handler c pc } t ↔
      owner = some t)
    (hsleeping : s.handler c = .notifying → s.stopper = .sleeping → s.current_conns ≠ []) :
    Inv { s with owner := owner, handler := Function.update s.handler c pc } := by
  have hin : s.Holds (.handler c) := by
    rcases hpc with hpc | hpc <;> simp [State.Holds, hpc, HandlerPc.Inside]
  have hdead : ¬ (s.handler c).Live := by
    rcases hpc with hpc | hpc <;> simp [hpc, HandlerPc.Live]
  have hlive : ∀ d, (Function.update s.handler c pc d).Live ↔ (s.handler d).Live := by
    intro d
    by_cases hd : d = c
    · subst hd
      rw [Function.update_self]
      exact iff_of_false (by rcases hto with rfl | rfl <;> exact id) hdead
    · rw [Function.update_of_ne hd]
  refine h.withHandler (fun he => by rw [he] at hpc; simp at hpc)
    (by rcases hto with rfl | rfl <;> exact fun he => nomatch he) howner h.nodup
    (fun _ hd => hd) (fun d => by rw [hlive]; exact h.conns d)
    (fun hl => absurd (h.pushing c hl) hdead) (fun _ hd => hd) (fun hs hempty => ?_)
    (fun hr _ => (h.returned hr).2 c hin)
  obtain ⟨d, hd⟩ := h.notified hs hempty
  refine ⟨d, ?_⟩
  have hdc : d ≠ c := by
    rintro rfl
    exact hsleeping hd hs hempty
  rw [Function.update_of_ne hdc]
  exact hd

theorem Inv.stepHandler (h : Inv s) (hs : s.stepHandler c = some s') : Inv s' := by
  have hsame : ∀ d, s.shut d = true → s.shut d = true := fun _ hd => hd
  unfold State.stepHandler at hs
  split at hs
  · cases hs
  · rename_i hpc
    cases hs
    refine h.goHandler _ (by rw [hpc]; exact ⟨trivial, id⟩) ?_ hsame
    split <;> exact ⟨trivial, id⟩
  · rename_i hpc
    split at hs
    · cases hs
      exact h.goHandler .leaving (by rw [hpc]; exact ⟨trivial, id⟩) ⟨trivial, id⟩ hsame
    · cases hs
  · rename_i hpc
    split at hs
    · cases hs
      exact h.goHandler .leaving (by rw [hpc]; exact ⟨trivial, id⟩) ⟨trivial, id⟩ hsame
    · cases hs
  · split at hs <;> cases hs
    exact h.kill
  · rename_i hpc
    cases hs
    refine h.goHandler .locking (by rw [hpc]; exact ⟨trivial, id⟩) ⟨trivial, id⟩ fun d hd => ?_
    by_cases hdc : d = c
    · simp [State.shutdown, hdc]
    · simpa [State.shutdown, hdc] using hd
  · rename_i hpc
    obtain ⟨s₁, hlock, rfl⟩ := Option.map_eq_some_iff.mp hs
    obtain ⟨hfree, rfl⟩ := lock_eq_some hlock
    exact h.lockHandler hpc hfree
  · rename_i hpc
    cases hs
    exact h.eraseHandler hpc
  · rename_i hpc
    cases hs
    have howner : ∀ {s : State}, Inv s → s.handler c = .notifying → ∀ t,
        (s.goHandler c .unlocking).Holds t ↔ s.owner = some t := by
      intro s h hpc
      refine h.owner_keep (s.goHandler c .unlocking) rfl fun t => ?_
      cases t with
      | stop => exact Iff.rfl
      | listener => exact Iff.rfl
      | handler d =>
        by_cases hd : d = c
        · subst hd
          simp [State.Holds, State.goHandler, HandlerPc.Inside, hpc]
        · simp [State.Holds, State.goHandler, hd]
    split
    · rename_i hlast
      have hw := h.wakes hlast.2
      exact hw.finishHandler (.inl hpc) (.inl rfl) (howner hw hpc) fun _ he => nomatch he
    · rename_i hlast
      exact h.finishHandler (.inl hpc) (.inl rfl) (howner h hpc) fun _ he hempty =>
        hlast ⟨hempty, he⟩
  · rename_i hpc
    cases hs
    have hin : s.Holds (.handler c) := by
      rw [State.Holds, hpc]
      trivial
    have howner := h.owner_release (s.unlock.goHandler c .done) hin rfl fun t => by
      cases t with
      | stop => simp [State.Holds, State.goHandler, State.unlock]
      | listener => simp [State.Holds, State.goHandler, State.unlock]
      | handler d =>
        by_cases hd : d = c
        · subst hd
          simp [State.Holds, State.goHandler, State.unlock, HandlerPc.Inside]
        · simp [State.Holds, State.goHandler, State.unlock, hd]
    exact h.finishHandler (.inr hpc) (.inr rfl) howner fun he => by
      rw [hpc] at he
      cases he
  · cases hs

/-! ### Every reachable state -/

theorem step_eq_some {a : Action} (hs : step s a = some s') :
    s.killed = false ∧ s.move a = some s' := by
  unfold Controller.step at hs
  split at hs
  · cases hs
  · exact ⟨Bool.eq_false_iff.mpr (by assumption), hs⟩

theorem accepts_eq_some (hs : s.move .accepts = some s') :
    (s.listener = .accepting ∧ s.listenerShut = false) ∧
      s' = { s with accepted := s.accepted + 1 }.goListener (.locking s.accepted) := by
  simp only [State.move] at hs
  split at hs <;> cases hs
  exact ⟨by assumption, rfl⟩

theorem acceptFails_eq_some (hs : s.move .acceptFails = some s') :
    s.listener = .accepting ∧ s' = s.goListener .done := by
  simp only [State.move] at hs
  split at hs <;> cases hs
  exact ⟨by assumption, rfl⟩

theorem receives_eq_some {request : Bool} (hs : s.move (.receives c request) = some s') :
    s.handler c = .receiving ∧
      s' = s.goHandler c (if request then .responding else .leaving) := by
  simp only [State.move] at hs
  split at hs <;> cases hs
  exact ⟨by assumption, rfl⟩

theorem heads_eq_some (hs : s.move (.heads c) = some s') :
    s.handler c = .responding ∧ s' = s.goHandler c .payload := by
  simp only [State.move] at hs
  split at hs <;> cases hs
  exact ⟨by assumption, rfl⟩

theorem responds_eq_some {sent : Bool} (hs : s.move (.responds c sent) = some s') :
    (s.handler c = .responding ∨ s.handler c = .payload) ∧
      s' = s.goHandler c (if sent then .loop else .leaving) := by
  simp only [State.move] at hs
  split at hs <;> cases hs
  exact ⟨by assumption, rfl⟩

theorem wakes_eq_some (hs : s.move .wakes = some s') :
    s.stopper = .sleeping ∧ s' = s.goStop .waking := by
  simp only [State.move] at hs
  split at hs <;> cases hs
  exact ⟨by assumption, rfl⟩

theorem dies_eq_some {t : Thread} (hs : s.move (.dies t) = some s') :
    s.MayDie t = true ∧ s' = { s with killed := true } := by
  simp only [State.move] at hs
  split at hs <;> cases hs
  exact ⟨by assumption, rfl⟩

theorem Inv.step {a : Action} (h : Inv s) (hs : step s a = some s') : Inv s' := by
  have hsame : ∀ d, s.shut d = true → s.shut d = true := fun _ hd => hd
  replace hs := (step_eq_some hs).2
  cases a with
  | stop => exact h.stepStop hs
  | listener => exact h.stepListener hs
  | handler c => exact h.stepHandler hs
  | accepts =>
    obtain ⟨hl, rfl⟩ := accepts_eq_some hs
    exact h.goListener (.inr hl.1) (.inr (.inr ⟨rfl, rfl⟩))
  | acceptFails =>
    obtain ⟨hl, rfl⟩ := acceptFails_eq_some hs
    exact h.goListener (.inr hl) (.inr (.inl ⟨rfl, rfl⟩))
  | receives c request =>
    obtain ⟨hpc, rfl⟩ := receives_eq_some hs
    refine h.goHandler _ (by rw [hpc]; exact ⟨trivial, id⟩) ?_ hsame
    split <;> exact ⟨trivial, id⟩
  | heads c =>
    obtain ⟨hpc, rfl⟩ := heads_eq_some hs
    exact h.goHandler .payload (by rw [hpc]; exact ⟨trivial, id⟩) ⟨trivial, id⟩ hsame
  | responds c sent =>
    obtain ⟨hpc, rfl⟩ := responds_eq_some hs
    refine h.goHandler _ (by rcases hpc with hpc | hpc <;> rw [hpc] <;> exact ⟨trivial, id⟩) ?_
      hsame
    split <;> exact ⟨trivial, id⟩
  | wakes =>
    obtain ⟨hpc, rfl⟩ := wakes_eq_some hs
    exact h.wakes hpc
  | dies t =>
    obtain ⟨-, rfl⟩ := dies_eq_some hs
    exact h.kill

theorem Inv.run {as : List Action} (h : Inv s) (hr : Run s as s') : Inv s' :=
  hr.keeps (fun _ _ _ h hs => h.step hs) h

theorem Reaches.inv (h : Reaches s) : Inv s := h.elim fun _ hr => inv_started.run hr

end SystemsProjects.Net.Controller
