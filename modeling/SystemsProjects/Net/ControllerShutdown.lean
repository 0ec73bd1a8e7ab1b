/-
SystemsProjects.Net.ControllerShutdown — stopping a StaticShardController.

The destructor that runs after `stop` relies on three things, in every
interleaving: a thread finds its connection on the list, no thread touches
the controller once `stop` has returned, and the wakeup is not lost.
`shutdown_safe` is the first two and that the mutex is held by one thread
at a time; `shutdown_ends` the third, as a bound on the steps of the
threads after `stop` is called.

What `stop` does not do is spare a handler that is at the bytes of a
response: the send on the connection it shut down raises SIGPIPE, and the
process ends before `stop` has returned.
-/
import Mathlib.Algebra.Order.BigOperators.Group.Finset
import Mathlib.Algebra.Group.Action.Defs
import SystemsProjects.Net.ControllerThreads

namespace SystemsProjects.Net.Controller

open SystemsProjects.Base

variable {s s' : State} {c : ConnId}

/-! ## The connections of the threads that left their loop -/

/-- Past its `shutdown`. -/
def HandlerPc.Closed : HandlerPc → Prop
  | .locking | .erasing | .notifying | .unlocking | .done => True
  | .notStarted | .loop | .receiving | .responding | .payload | .leaving => False

def State.LeftShut (s : State) : Prop := ∀ c, (s.handler c).Closed → s.shut c = true

theorem State.LeftShut.goHandler (h : s.LeftShut) {pc : HandlerPc}
    (hpc : pc.Closed → s.shut c = true) : (s.goHandler c pc).LeftShut := by
  intro d hd
  by_cases hdc : d = c
  · subst hdc
    exact hpc (by simpa [State.goHandler] using hd)
  · exact h d (by simpa [State.goHandler, hdc] using hd)

theorem State.LeftShut.shutdown (h : s.LeftShut) (c : ConnId) : (s.shutdown c).LeftShut := by
  intro d hd
  by_cases hdc : d = c
  · simp [State.shutdown, hdc]
  · simpa [State.shutdown, hdc] using h d hd

theorem State.LeftShut.stepHandler (h : s.LeftShut) (hs : s.stepHandler c = some s') :
    s'.LeftShut := by
  unfold State.stepHandler at hs
  split at hs
  · cases hs
  · cases hs
    refine h.goHandler ?_
    split <;> exact False.elim
  · split at hs
    · cases hs
      exact h.goHandler False.elim
    · cases hs
  · split at hs
    · cases hs
      exact h.goHandler False.elim
    · cases hs
  · split at hs <;> cases hs
    exact h
  · cases hs
    refine (h.shutdown c).goHandler fun _ => ?_
    simp [State.shutdown]
  · rename_i hpc
    obtain ⟨s₁, hlock, rfl⟩ := Option.map_eq_some_iff.mp hs
    obtain ⟨-, rfl⟩ := lock_eq_some hlock
    exact State.LeftShut.goHandler h fun _ => h c (by rw [hpc]; trivial)
  · rename_i hpc
    cases hs
    exact State.LeftShut.goHandler h fun _ => h c (by rw [hpc]; trivial)
  · rename_i hpc
    cases hs
    have hc := h c (by rw [hpc]; trivial)
    split
    · exact State.LeftShut.goHandler h fun _ => hc
    · exact h.goHandler fun _ => hc
  · rename_i hpc
    cases hs
    exact State.LeftShut.goHandler h fun _ => h c (by rw [hpc]; trivial)
  · cases hs

theorem State.LeftShut.stepStop (h : s.LeftShut) (hs : s.stepStop = some s') : s'.LeftShut := by
  unfold State.stepStop at hs
  split at hs
  · cases hs
    exact h
  · cases hs
    exact h
  · split at hs <;> cases hs
    exact h
  · obtain ⟨s₁, hlock, rfl⟩ := Option.map_eq_some_iff.mp hs
    obtain ⟨-, rfl⟩ := lock_eq_some hlock
    exact h
  · cases hs
    exact h
  · cases hs
    exact h.shutdown _
  · cases hs
    exact h
  · cases hs
  · obtain ⟨s₁, hlock, rfl⟩ := Option.map_eq_some_iff.mp hs
    obtain ⟨-, rfl⟩ := lock_eq_some hlock
    exact h
  · cases hs

theorem State.LeftShut.stepListener (h : s.LeftShut) (hs : s.stepListener = some s') :
    s'.LeftShut := by
  unfold State.stepListener at hs
  split at hs
  · cases hs
    exact h
  · split at hs <;> cases hs
    exact h
  · obtain ⟨s₁, hlock, rfl⟩ := Option.map_eq_some_iff.mp hs
    obtain ⟨-, rfl⟩ := lock_eq_some hlock
    exact h
  · cases hs
    exact h.goHandler False.elim
  · cases hs
    exact h
  · cases hs
    exact h
  · cases hs

theorem State.LeftShut.step {a : Action} (h : s.LeftShut) (hs : step s a = some s') :
    s'.LeftShut := by
  replace hs := (step_eq_some hs).2
  cases a with
  | stop => exact h.stepStop hs
  | listener => exact h.stepListener hs
  | handler c => exact h.stepHandler hs
  | accepts =>
    obtain ⟨-, rfl⟩ := accepts_eq_some hs
    exact h
  | acceptFails =>
    obtain ⟨-, rfl⟩ := acceptFails_eq_some hs
    exact h
  | wakes =>
    obtain ⟨-, rfl⟩ := wakes_eq_some hs
    exact h
  | dies t =>
    obtain ⟨-, rfl⟩ := dies_eq_some hs
    exact h
  | receives c request =>
    obtain ⟨-, rfl⟩ := receives_eq_some hs
    refine h.goHandler ?_
    split <;> exact False.elim
  | heads c =>
    obtain ⟨-, rfl⟩ := heads_eq_some hs
    exact h.goHandler False.elim
  | responds c sent =>
    obtain ⟨-, rfl⟩ := responds_eq_some hs
    refine h.goHandler ?_
    split <;> exact False.elim

theorem State.LeftShut.run {as : List Action} (h : s.LeftShut) (hr : Run s as s') :
    s'.LeftShut :=
  hr.keeps (fun _ _ _ h hs => State.LeftShut.step h hs) h

theorem Reaches.leftShut (h : Reaches s) : s.LeftShut :=
  h.elim fun _ hr => State.LeftShut.run (fun _ => False.elim) hr

/-! ## Safety -/

/-- After `stop` has returned the threads of the accepted connections are
done. -/
theorem Inv.handler_done (h : Inv s) (hr : s.stopper = .returned) (hc : c < s.accepted) :
    s.handler c = .done := by
  obtain ⟨hempty, hout⟩ := h.returned hr
  have hlistener := h.joined (by rw [hr]; trivial)
  have hlive : ¬ (s.handler c).Live := by
    intro hl
    have hmem := (h.conns c).mpr ⟨hl, by rw [hlistener]; exact fun he => nomatch he⟩
    rw [hempty] at hmem
    cases hmem
  have hstarted : s.handler c ≠ .notStarted := by
    intro he
    rcases (h.notStarted c).mp he with hle | hl | hl
    · exact absurd hc (Nat.not_lt.mpr hle)
    · rw [hlistener] at hl
      cases hl
    · rw [hlistener] at hl
      cases hl
  have hinside := hout c
  cases hpc : s.handler c <;> simp_all [HandlerPc.Live, HandlerPc.Inside]

theorem Inv.over (h : Inv s) (hr : s.stopper = .returned) (a : Action) :
    Controller.step s a = none := by
  refine Option.eq_none_iff_forall_ne_some.mpr fun s' hs => ?_
  replace hs := (step_eq_some hs).2
  have hlistener := h.joined (by rw [hr]; trivial)
  have hhandler : ∀ c, s.handler c = .notStarted ∨ s.handler c = .done := fun c =>
    (Nat.lt_or_ge c s.accepted).symm.imp (fun hc => (h.notStarted c).mpr (.inl hc))
      (h.handler_done hr)
  cases a with
  | stop => simp [State.move, State.stepStop, hr] at hs
  | listener => simp [State.move, State.stepListener, hlistener] at hs
  | handler c =>
    rcases hhandler c with hc | hc <;> simp [State.move, State.stepHandler, hc] at hs
  | accepts | acceptFails => simp [State.move, hlistener] at hs
  | receives c request | heads c | responds c sent =>
    rcases hhandler c with hc | hc <;> simp [State.move, hc] at hs
  | wakes => simp [State.move, hr] at hs
  | dies t =>
    cases t with
    | stop => simp [State.move, State.MayDie] at hs
    | listener => simp [State.move, State.MayDie, hlistener] at hs
    | handler c => rcases hhandler c with hc | hc <;> simp [State.move, State.MayDie, hc] at hs

/-- In every state that some interleaving of the threads and the clients
reaches: one thread holds `conns_mtx`, a thread finds its connection on the
list, and once `stop` has returned every connection that was accepted is
shut down, its thread is done, and nothing takes a step any more. -/
theorem shutdown_safe {s : State} (h : Reaches s) :
    (∀ t t', s.Holds t → s.Holds t' → t = t') ∧
    (∀ c, s.handler c = .erasing → c ∈ s.current_conns) ∧
    (s.stopper = .returned → s.current_conns = [] ∧
      (∀ c < s.accepted, s.handler c = .done ∧ s.shut c = true) ∧ ∀ a, step s a = none) := by
  refine ⟨h.inv.owner.unique, fun c hc => ?_, fun hr => ?_⟩
  · refine (h.inv.conns c).mpr ⟨by rw [hc]; trivial, fun hl => ?_⟩
    have hin : s.Holds (.handler c) := by
      rw [State.Holds, hc]
      trivial
    cases h.inv.owner.unique (.handler c) .listener hin (.inr ⟨c, .inr hl⟩)
  · refine ⟨(h.inv.returned hr).1, fun c hc => ?_, h.inv.over hr⟩
    have hdone := h.inv.handler_done hr hc
    exact ⟨hdone, h.leftShut c (by rw [hdone]; trivial)⟩

/-- A client is connected and sends a request. -/
def connect : List Action :=
  [.listener, .accepts, .listener, .listener, .listener, .listener, .handler 0, .receives 0 true]

/-- `stop` up to its wait, then the thread of the client up to its end. -/
def stopOne : List Action :=
  [.stop, .listener, .stop, .stop, .stop, .stop, .stop, .responds 0 true, .handler 0,
    .handler 0, .handler 0, .handler 0, .handler 0, .handler 0, .stop, .stop]

theorem shutdown_safe_one_client : ∃ s, Run started (connect ++ .stop :: stopOne) s ∧
    s.accepted = 1 ∧ ∀ a, step s a = none := by
  have hrun : Run started (connect ++ .stop :: stopOne) _ := .cons rfl <| .cons rfl <|
    .cons rfl <| .cons rfl <| .cons rfl <| .cons rfl <| .cons rfl <| .cons rfl <| .cons rfl <|
    .cons rfl <| .cons rfl <| .cons rfl <| .cons rfl <| .cons rfl <| .cons rfl <| .cons rfl <|
    .cons rfl <| .cons rfl <| .cons rfl <| .cons rfl <| .cons rfl <| .cons rfl <| .cons rfl <|
    .cons rfl <| .cons rfl <| .nil _
  exact ⟨_, hrun, rfl, ((shutdown_safe ⟨_, hrun⟩).2.2 rfl).2.2⟩

/-! ## The threads come to an end -/

namespace HandlerPc

/-- The steps a handler still has to take, once `is_stopped` is set; that
of the notification counts for the steps of the waiter it wakes. -/
def work : HandlerPc → Nat
  | .receiving => 11
  | .responding => 10
  | .payload => 9
  | .notStarted | .loop => 8
  | .leaving => 7
  | .locking => 6
  | .erasing => 5
  | .notifying => 4
  | .unlocking => 1
  | .done => 0

theorem work_le (pc : HandlerPc) : pc.work ≤ 11 := by
  cases pc <;> decide

end HandlerPc

/-- A connection may still be accepted: its thread has a place in the loop
and in the list that `stop` goes through. -/
def ListenerPc.work : ListenerPc → Nat
  | .accepting => 15
  | .locking _ => 5
  | .spawning _ => 4
  | .pushing _ => 3
  | .unlocking => 2
  | .loop => 1
  | .done => 0

def StopPc.work (accepted : Nat) : StopPc → Nat
  | .idle => accepted + 7
  | .shutListener => accepted + 6
  | .joining => accepted + 5
  | .locking => accepted + 4
  | .closing rest => rest.length + 3
  | .waking => 3
  | .checking => 2
  | .sleeping => 1
  | .returned => 0

namespace State

def handlerWork (s : State) : Nat := ∑ c ∈ Finset.range s.accepted, (s.handler c).work

def work (s : State) : Nat :=
  s.handlerWork + s.listener.work + s.stopper.work s.accepted + (!s.killed).toNat

end State

/-- The end of the process is a step of its own. -/
theorem work_kill (hlive : s.killed = false) : State.work { s with killed := true } < s.work := by
  simp [State.work, State.handlerWork, hlive]

theorem Inv.accepted_of_started (h : Inv s) (hc : s.handler c ≠ .notStarted) :
    c < s.accepted :=
  Nat.lt_of_not_le fun hle => hc ((h.notStarted c).mpr (.inl hle))

theorem Inv.length_le (h : Inv s) : s.current_conns.length ≤ s.accepted := by
  have hsub : s.current_conns.toFinset ⊆ Finset.range s.accepted := by
    intro c hc
    have hlive := ((h.conns c).mp (List.mem_toFinset.mp hc)).1
    refine Finset.mem_range.mpr (h.accepted_of_started fun he => ?_)
    rw [he] at hlive
    exact hlive
  have hcard := Finset.card_le_card hsub
  rwa [List.toFinset_card_of_nodup h.nodup, Finset.card_range] at hcard

/-- A handler that moves on to a place with less work. -/
theorem Inv.work_goHandler (h : Inv s) {pc : HandlerPc} (hfrom : s.handler c ≠ .notStarted)
    (hwork : pc.work < (s.handler c).work) : (s.goHandler c pc).work < s.work := by
  have hsum := sum_update HandlerPc.work s.handler (h.accepted_of_started hfrom) pc
  simp only [State.work, State.handlerWork, State.goHandler]
  omega

theorem Inv.work_stepStop (h : Inv s) (hs : s.stepStop = some s') : s'.work < s.work := by
  have hlen := h.length_le
  unfold State.stepStop at hs
  split at hs
  · rename_i hpc
    cases hs
    simp only [State.work, State.handlerWork, State.goStop, hpc, StopPc.work]
    omega
  · rename_i hpc
    cases hs
    simp only [State.work, State.handlerWork, State.goStop, hpc, StopPc.work]
    omega
  · rename_i hpc
    split at hs <;> cases hs
    simp only [State.work, State.handlerWork, State.goStop, hpc, StopPc.work]
    omega
  · rename_i hpc
    obtain ⟨s₁, hlock, rfl⟩ := Option.map_eq_some_iff.mp hs
    obtain ⟨-, rfl⟩ := lock_eq_some hlock
    simp only [State.work, State.handlerWork, State.goStop, hpc, StopPc.work]
    omega
  · rename_i hpc
    cases hs
    simp only [State.work, State.handlerWork, State.goStop, hpc, StopPc.work, List.length_nil]
    omega
  · rename_i c rest hpc
    cases hs
    simp only [State.work, State.handlerWork, State.goStop, State.shutdown, hpc, StopPc.work,
      List.length_cons]
    omega
  · rename_i hpc
    cases hs
    simp only [State.work, State.handlerWork, State.goStop, State.unlock, hpc, StopPc.work]
    by_cases hempty : s.current_conns = []
    · simp only [if_pos hempty]
      omega
    · simp only [if_neg hempty]
      omega
  · cases hs
  · rename_i hpc
    obtain ⟨s₁, hlock, rfl⟩ := Option.map_eq_some_iff.mp hs
    obtain ⟨-, rfl⟩ := lock_eq_some hlock
    simp only [State.work, State.handlerWork, State.goStop, hpc, StopPc.work]
    omega
  · cases hs

theorem Inv.work_stepListener (h : Inv s) (hstop : s.stopper ≠ .idle)
    (hs : s.stepListener = some s') : s'.work < s.work := by
  unfold State.stepListener at hs
  split at hs
  · rename_i hpc
    rw [if_pos (h.stopped.mpr hstop)] at hs
    cases hs
    simp only [State.work, State.handlerWork, State.goListener, hpc, ListenerPc.work]
    omega
  · rename_i hpc
    split at hs <;> cases hs
    simp only [State.work, State.handlerWork, State.goListener, hpc, ListenerPc.work]
    omega
  · rename_i hpc
    obtain ⟨s₁, hlock, rfl⟩ := Option.map_eq_some_iff.mp hs
    obtain ⟨-, rfl⟩ := lock_eq_some hlock
    simp only [State.work, State.handlerWork, State.goListener, hpc, ListenerPc.work]
    omega
  · rename_i c hpc
    cases hs
    have hnot := (h.notStarted c).mpr (.inr (.inr hpc))
    have hsum := sum_update HandlerPc.work s.handler (h.pending c (.inr (.inl hpc))) .loop
    rw [hnot] at hsum
    change _ + 8 = _ + 8 at hsum
    simp only [State.work, State.handlerWork, State.goListener, State.goHandler, hpc,
      ListenerPc.work]
    omega
  · rename_i hpc
    cases hs
    simp only [State.work, State.handlerWork, State.goListener, hpc, ListenerPc.work]
    omega
  · rename_i hpc
    cases hs
    simp only [State.work, State.handlerWork, State.goListener, State.unlock, hpc,
      ListenerPc.work]
    omega
  · cases hs

theorem Inv.work_stepHandler (h : Inv s) (hstop : s.stopper ≠ .idle) (hlive : s.killed = false)
    (hs : s.stepHandler c = some s') : s'.work < s.work := by
  have hmove : ∀ {pc}, s.handler c = pc → pc ≠ .notStarted → ∀ pc' : HandlerPc,
      pc'.work < pc.work → (s.goHandler c pc').work < s.work := by
    rintro pc rfl hfrom pc' hwork
    exact h.work_goHandler hfrom hwork
  unfold State.stepHandler at hs
  split at hs
  · cases hs
  · rename_i hpc
    rw [h.stopped.mpr hstop, Bool.true_or, if_pos rfl] at hs
    cases hs
    exact hmove hpc (by simp) _ (by decide)
  · rename_i hpc
    split at hs <;> cases hs
    exact hmove hpc (by simp) _ (by decide)
  · rename_i hpc
    split at hs <;> cases hs
    exact hmove hpc (by simp) _ (by decide)
  · split at hs <;> cases hs
    exact work_kill hlive
  · rename_i hpc
    cases hs
    exact hmove hpc (by simp) .locking (by decide)
  · rename_i hpc
    obtain ⟨s₁, hlock, rfl⟩ := Option.map_eq_some_iff.mp hs
    obtain ⟨-, rfl⟩ := lock_eq_some hlock
    exact hmove hpc (by simp) .erasing (by decide)
  · rename_i hpc
    cases hs
    exact hmove hpc (by simp) .notifying (by decide)
  · rename_i hpc
    cases hs
    split
    · rename_i hlast
      -- The waiter gets two more steps: `waking` and `checking`.
      have hfrom : s.handler c ≠ .notStarted := by
        rw [hpc]
        exact fun he => nomatch he
      have hsum := sum_update HandlerPc.work s.handler (h.accepted_of_started hfrom) .unlocking
      rw [hpc] at hsum
      change _ + 4 = _ + 1 at hsum
      simp only [State.work, State.handlerWork, State.goHandler, State.goStop, hlast.2,
        StopPc.work]
      omega
    · exact hmove hpc (by simp) .unlocking (by decide)
  · rename_i hpc
    cases hs
    exact hmove hpc (by simp) .done (by decide)
  · cases hs

/-- Once `stop` is called each step takes work off, except that a wait
that ends without a notification adds its two steps. -/
theorem Inv.work_step {a : Action} (h : Inv s) (hstop : s.stopper ≠ .idle)
    (hs : Controller.step s a = some s') :
    s'.work + 1 ≤ s.work + if a = .wakes then 3 else 0 := by
  obtain ⟨hlive, hs⟩ := step_eq_some hs
  cases a with
  | stop => exact h.work_stepStop hs
  | listener => exact h.work_stepListener hstop hs
  | handler c => exact h.work_stepHandler hstop hlive hs
  | accepts =>
    obtain ⟨⟨hl, -⟩, rfl⟩ := accepts_eq_some hs
    have hnew := (h.notStarted s.accepted).mpr (.inl (Nat.le_refl _))
    have hstopper : s.stopper.work (s.accepted + 1) ≤ s.stopper.work s.accepted + 1 := by
      cases s.stopper <;> simp only [StopPc.work] <;> omega
    simp only [State.work, State.handlerWork, State.goListener, Finset.sum_range_succ, hnew,
      hl, HandlerPc.work, ListenerPc.work]
    simp only [reduceCtorEq, if_false]
    omega
  | acceptFails =>
    obtain ⟨hl, rfl⟩ := acceptFails_eq_some hs
    simp only [State.work, State.handlerWork, State.goListener, hl, ListenerPc.work]
    simp only [reduceCtorEq, if_false]
    omega
  | receives c request =>
    obtain ⟨hpc, rfl⟩ := receives_eq_some hs
    refine h.work_goHandler (by simp [hpc]) ?_
    rw [hpc]
    cases request <;> decide
  | heads c =>
    obtain ⟨hpc, rfl⟩ := heads_eq_some hs
    refine h.work_goHandler (by simp [hpc]) ?_
    rw [hpc]
    decide
  | responds c sent =>
    obtain ⟨hpc, rfl⟩ := responds_eq_some hs
    refine h.work_goHandler (by rcases hpc with hpc | hpc <;> simp [hpc]) ?_
    rcases hpc with hpc | hpc <;> rw [hpc] <;> cases sent <;> decide
  | wakes =>
    obtain ⟨hpc, rfl⟩ := wakes_eq_some hs
    simp only [State.work, State.handlerWork, State.goStop, hpc, StopPc.work]
    simp only [if_true]
    omega
  | dies t =>
    obtain ⟨-, rfl⟩ := dies_eq_some hs
    exact work_kill hlive

/-! ## What a step does to the flags -/

/-- A handler is at the bytes of a response, on a connection that was shut
down. -/
def State.Pipe (s : State) : Prop := ∃ c, s.handler c = .payload ∧ s.shut c = true

theorem flags_stepStop (hs : s.stepStop = some s') :
    (s.is_stopped = true → s'.is_stopped = true) ∧ s'.killed = s.killed := by
  unfold State.stepStop at hs
  split at hs
  · cases hs
    exact ⟨fun _ => rfl, rfl⟩
  · cases hs
    exact ⟨id, rfl⟩
  · split at hs <;> cases hs
    exact ⟨id, rfl⟩
  · obtain ⟨s₁, hlock, rfl⟩ := Option.map_eq_some_iff.mp hs
    obtain ⟨-, rfl⟩ := lock_eq_some hlock
    exact ⟨id, rfl⟩
  · cases hs
    exact ⟨id, rfl⟩
  · cases hs
    exact ⟨id, rfl⟩
  · cases hs
    exact ⟨id, rfl⟩
  · cases hs
  · obtain ⟨s₁, hlock, rfl⟩ := Option.map_eq_some_iff.mp hs
    obtain ⟨-, rfl⟩ := lock_eq_some hlock
    exact ⟨id, rfl⟩
  · cases hs

theorem flags_stepListener (hs : s.stepListener = some s') :
    s'.is_stopped = s.is_stopped ∧ s'.killed = s.killed := by
  unfold State.stepListener at hs
  split at hs
  · cases hs
    exact ⟨rfl, rfl⟩
  · split at hs <;> cases hs
    exact ⟨rfl, rfl⟩
  · obtain ⟨s₁, hlock, rfl⟩ := Option.map_eq_some_iff.mp hs
    obtain ⟨-, rfl⟩ := lock_eq_some hlock
    exact ⟨rfl, rfl⟩
  · cases hs
    exact ⟨rfl, rfl⟩
  · cases hs
    exact ⟨rfl, rfl⟩
  · cases hs
    exact ⟨rfl, rfl⟩
  · cases hs

theorem flags_stepHandler (hs : s.stepHandler c = some s') :
    s'.is_stopped = s.is_stopped ∧ (s'.killed = s.killed ∨ s'.Pipe) := by
  unfold State.stepHandler at hs
  split at hs
  · cases hs
  · cases hs
    exact ⟨rfl, .inl rfl⟩
  · split at hs <;> cases hs
    exact ⟨rfl, .inl rfl⟩
  · split at hs <;> cases hs
    exact ⟨rfl, .inl rfl⟩
  · rename_i hpc
    split at hs
    · rename_i hshut
      cases hs
      exact ⟨rfl, .inr ⟨c, hpc, hshut⟩⟩
    · cases hs
  · cases hs
    exact ⟨rfl, .inl rfl⟩
  · obtain ⟨s₁, hlock, rfl⟩ := Option.map_eq_some_iff.mp hs
    obtain ⟨-, rfl⟩ := lock_eq_some hlock
    exact ⟨rfl, .inl rfl⟩
  · cases hs
    exact ⟨rfl, .inl rfl⟩
  · cases hs
    split <;> exact ⟨rfl, .inl rfl⟩
  · cases hs
    exact ⟨rfl, .inl rfl⟩
  · cases hs

/-- The one step of a thread by itself that ends the process is the send on
a connection that was shut down. -/
theorem flags_step {a : Action} (hs : step s a = some s') :
    (s.is_stopped = true → s'.is_stopped = true) ∧
    ((∃ t, a = .dies t) ∨ s'.killed = false ∨ s'.Pipe) := by
  obtain ⟨hlive, hs⟩ := step_eq_some hs
  cases a with
  | stop =>
    obtain ⟨hstop, hkill⟩ := flags_stepStop hs
    exact ⟨hstop, .inr (.inl (hkill.trans hlive))⟩
  | listener =>
    obtain ⟨hstop, hkill⟩ := flags_stepListener hs
    exact ⟨hstop.trans, .inr (.inl (hkill.trans hlive))⟩
  | handler c =>
    obtain ⟨hstop, hkill⟩ := flags_stepHandler hs
    exact ⟨hstop.trans, .inr (hkill.imp_left (·.trans hlive))⟩
  | accepts | acceptFails | receives | heads | responds | wakes =>
    simp only [State.move] at hs
    split at hs <;> cases hs
    exact ⟨id, .inr (.inl hlive)⟩
  | dies t =>
    simp only [State.move] at hs
    split at hs <;> cases hs
    exact ⟨id, .inl ⟨t, rfl⟩⟩

theorem is_stopped_run {as : List Action} (hstop : s.is_stopped = true) (hr : Run s as s') :
    s'.is_stopped = true :=
  hr.keeps (fun _ _ _ hstop hs => (flags_step hs).1 hstop) hstop

/-- The steps of a run after `stop` is called. -/
theorem Inv.length_le_work {as : List Action} (h : Inv s) (hstop : s.stopper ≠ .idle)
    (hr : Run s as s') : as.length + s'.work ≤ s.work + 3 * as.count .wakes := by
  refine hr.length_le (I := fun s => Inv s ∧ s.is_stopped = true)
    (fun _ _ _ h hs => ⟨h.1.step hs, (flags_step hs).1 h.2⟩) (fun s a s' h hs => ?_)
    ⟨h, h.stopped.mpr hstop⟩
  simp only [beq_iff_eq]
  exact h.1.work_step (h.1.stopped.mp h.2) hs

theorem work_le (s : State) (hpc : s.stopper = .shutListener) :
    s.work ≤ 12 * s.accepted + 22 := by
  have hhandlers : s.handlerWork ≤ 11 * s.accepted := by
    have hsum := Finset.sum_le_card_nsmul (Finset.range s.accepted)
      (fun c => (s.handler c).work) 11 fun c _ => HandlerPc.work_le _
    rwa [Finset.card_range, smul_eq_mul, Nat.mul_comm] at hsum
  have hlistener : s.listener.work ≤ 15 := by
    cases s.listener <;> simp only [ListenerPc.work] <;> omega
  have hlive := Bool.toNat_le (!s.killed)
  rw [State.work, hpc, StopPc.work]
  omega

/-! ## A step is left until `stop` has returned -/

/-- The step of a thread by itself. -/
def Thread.act : Thread → Action
  | .stop => .stop
  | .listener => .listener
  | .handler c => .handler c

/-- The thread that holds the mutex goes on. -/
theorem holds_act (hlive : s.killed = false) {t : Thread} (h : s.Holds t) :
    (step s t.act).isSome := by
  cases t with
  | stop =>
    rcases h with hpc | ⟨rest, hpc⟩
    · simp [Thread.act, step, State.move, State.stepStop, hlive, hpc]
    · cases rest <;> simp [Thread.act, step, State.move, State.stepStop, hlive, hpc]
  | listener =>
    rcases h with hpc | ⟨c, hpc | hpc⟩ <;>
      simp [Thread.act, step, State.move, State.stepListener, hlive, hpc]
  | handler c =>
    cases hpc : s.handler c <;> simp_all [State.Holds, HandlerPc.Inside, Thread.act, step,
      State.move, State.stepHandler]

/-- A connection on the list that was shut down: its thread goes on. -/
theorem Inv.handler_act (h : Inv s) (hlive : s.killed = false) (hfree : s.owner = none)
    (hmem : c ∈ s.current_conns) (hshut : s.shut c = true) :
    (Controller.step s (.handler c)).isSome := by
  have hpc := ((h.conns c).mp hmem).1
  cases hpc : s.handler c <;>
    simp_all [HandlerPc.Live, Controller.step, State.move, State.stepHandler, State.lock]

/-- The listener was shut down and the mutex is free. -/
theorem Inv.listener_act (h : Inv s) (hlive : s.killed = false) (hfree : s.owner = none)
    (hpc : s.stopper = .joining) (hl : s.listener ≠ .done) :
    (Controller.step s .listener).isSome := by
  have hshut := h.listenerShut.mpr (by simp [hpc])
  cases hlistener : s.listener <;>
    simp_all [Controller.step, State.move, State.stepListener, State.lock]

theorem step_stop (hlive : s.killed = false) (hs : (s.stepStop).isSome) :
    (step s Thread.stop.act).isSome := by
  simpa [Thread.act, step, State.move, hlive] using hs

theorem Inv.act (h : Inv s) (hlive : s.killed = false) (hidle : s.stopper ≠ .idle)
    (hr : s.stopper ≠ .returned) : ∃ t : Thread, (Controller.step s t.act).isSome := by
  cases hfree : s.owner with
  | some t => exact ⟨t, holds_act hlive ((h.owner t).mpr hfree)⟩
  | none =>
    cases hpc : s.stopper with
    | idle => exact absurd hpc hidle
    | shutListener => exact ⟨.stop, step_stop hlive (by simp [State.stepStop, hpc])⟩
    | joining =>
      by_cases hl : s.listener = .done
      · exact ⟨.stop, step_stop hlive (by simp [State.stepStop, hpc, hl])⟩
      · exact ⟨.listener, h.listener_act hlive hfree hpc hl⟩
    | locking =>
      exact ⟨.stop, step_stop hlive (by simp [State.stepStop, State.lock, hpc, hfree])⟩
    | closing rest => exact absurd (.inr ⟨rest, hpc⟩) (h.not_holds hfree .stop)
    | checking => exact absurd (.inl hpc) (h.not_holds hfree .stop)
    | sleeping =>
      cases hconns : s.current_conns with
      | nil =>
        -- The last thread is at its notification: the wakeup is not lost.
        obtain ⟨c, hc⟩ := h.notified hpc hconns
        exact absurd (by rw [State.Holds, hc]; trivial) (h.not_holds hfree (.handler c))
      | cons c rest =>
        have hmem : c ∈ s.current_conns := by
          rw [hconns]
          exact List.mem_cons_self
        exact ⟨.handler c, h.handler_act hlive hfree hmem (h.closed (.inr (.inl hpc)) c hmem)⟩
    | waking =>
      exact ⟨.stop, step_stop hlive (by simp [State.stepStop, State.lock, hpc, hfree])⟩
    | returned => exact absurd hpc hr

/-- What ended a process that was not ended before the run. -/
theorem killed_by {as : List Action} (hr : Run s as s') (hlive : s.killed = false) :
    (∃ a ∈ as, ∃ t, a = .dies t) ∨ s'.killed = false ∨ s'.Pipe := by
  refine hr.keeps_unless (fun a => ∃ t, a = .dies t) (fun _ _ _ _ hs => (flags_step hs).2)
    (.inl hlive)

/-- From the moment `stop` is called, in every interleaving: the run has a
bounded number of steps in all, besides three for each wait that ends
without a notification; as long as `stop` has not returned and the process
has not ended some thread has a step it takes by itself, whatever the
clients do; and the process only ends by an exception, by a client that
goes away, or at a send on a connection that was shut down. -/
theorem shutdown_ends {s : State} (h : Reaches s) (hpc : s.stopper = .shutListener)
    (hlive : s.killed = false) {as : List Action} {s' : State} (hr : Run s as s') :
    as.length ≤ 12 * s.accepted + 22 + 3 * as.count .wakes ∧
    (s'.stopper ≠ .returned → s'.killed = false → ∃ t : Thread, (step s' t.act).isSome) ∧
    (s'.killed = true → (∃ t, .dies t ∈ as) ∨ s'.Pipe) := by
  have hstop : s.stopper ≠ .idle := by
    rw [hpc]
    exact fun he => nomatch he
  have hstop' := (h.inv.run hr).stopped.mp (is_stopped_run (h.inv.stopped.mpr hstop) hr)
  refine ⟨?_, fun hret hlive' => (h.inv.run hr).act hlive' hstop' hret, fun hkill => ?_⟩
  · have hlen := h.inv.length_le_work hstop hr
    have hwork := work_le s hpc
    omega
  · rcases killed_by hr hlive with ⟨_, ha, t, rfl⟩ | hlive' | hpipe
    · exact .inl ⟨t, ha⟩
    · exact absurd hkill (by simp [hlive'])
    · exact .inr hpipe

theorem shutdown_ends_one_client : ∃ s s', Run started (connect ++ [.stop]) s ∧
    Run s (stopOne.take 7) s' ∧ s'.stopper = .sleeping ∧
    (stopOne.take 7).length ≤ 12 * s.accepted + 22 ∧ ∃ t : Thread, (step s' t.act).isSome := by
  have hruns : ∃ s s', Run started (connect ++ [.stop]) s ∧ Run s (stopOne.take 7) s' ∧
      s.stopper = .shutListener ∧ s'.stopper = .sleeping ∧ s.killed = false ∧
      s'.killed = false :=
    ⟨_, _, .cons rfl <| .cons rfl <| .cons rfl <| .cons rfl <| .cons rfl <| .cons rfl <|
      .cons rfl <| .cons rfl <| .cons rfl <| .nil _, .cons rfl <| .cons rfl <| .cons rfl <|
      .cons rfl <| .cons rfl <| .cons rfl <| .cons rfl <| .nil _, rfl, rfl, rfl, rfl⟩
  obtain ⟨s, s', hstart, hwait, hpc, hpc', hlive, hlive'⟩ := hruns
  obtain ⟨hlen, hact, -⟩ := shutdown_ends ⟨_, hstart⟩ hpc hlive hwait
  exact ⟨s, s', hstart, hwait, hpc', hlen,
    hact (by rw [hpc']; exact fun he => nomatch he) hlive'⟩

/-- `stop` closes the connection between two sends of its thread. -/
example : ∃ s, Run started (connect ++ [.heads 0, .stop, .stop, .listener, .stop, .stop, .stop,
    .handler 0]) s ∧ s.killed = true ∧ s.stopper = .closing [] :=
  ⟨_, .cons rfl <| .cons rfl <| .cons rfl <| .cons rfl <| .cons rfl <| .cons rfl <|
    .cons rfl <| .cons rfl <| .cons rfl <| .cons rfl <| .cons rfl <| .cons rfl <| .cons rfl <|
    .cons rfl <| .cons rfl <| .cons rfl <| .nil _, rfl, rfl⟩

end SystemsProjects.Net.Controller
