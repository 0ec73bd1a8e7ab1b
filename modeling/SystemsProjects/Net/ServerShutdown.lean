/-
SystemsProjects.Net.ServerShutdown — stopping a KvServer.

`stop_safe`: in every interleaving a connection is in one place, each
worker serves its own in the order of acceptance, and once `stop` has
returned no thread is left and every connection was served or shut down.

A worker in the middle of a connection is another matter: `stop` shuts
down what is in the queues only. `stop_ends` bounds the steps that are
left when it is called and says what it may wait for at the end: a client
that is being served, or a store that has kept its mutex. `stop_waits` and
`stop_hangs` are the converse, that it does wait until a call on the
connection fails, and for ever behind the store.
-/
import Mathlib.Algebra.Group.Action.Defs
import Mathlib.Algebra.Order.BigOperators.Group.Finset
import SystemsProjects.Net.ServerSteps

namespace SystemsProjects.Net.ServerThreads

open SystemsProjects.Base

variable {n i : Nat} {s s' : State}

/-! ## Safety -/

theorem Inv.over (h : Inv n s) (hpc : s.stopper = .returned) (a : Action) :
    ServerThreads.step n s a = none := by
  have hdone : s.listener = .done := h.stopping.joined (by rw [hpc]; trivial)
  have hworker : ∀ i, s.worker i = .done := fun i => h.stopping.waited i (by rw [hpc]; trivial)
  refine Option.eq_none_iff_forall_ne_some.mpr fun s' hs => ?_
  replace hs := (step_eq_some hs).2
  cases a with
  | dies t => cases t <;> simp [State.move, State.MayDie, hdone, hworker] at hs
  | _ =>
    simp [State.move, State.stepStop, State.stepListener, State.stepWorker, hpc, hdone,
      hworker] at hs

/-- A connection that is with no thread any more. -/
theorem Inv.left (h : Inv n s) (hpc : s.stopper = .returned) {c : Nat} (hc : c < s.accepted) :
    s.closed c = true ∨ c ∈ s.conn_queues (c % n) ∧ s.shut c = true := by
  have hdone : s.listener = .done := h.stopping.joined (by rw [hpc]; trivial)
  have hworker : s.worker (c % n) = .done :=
    h.stopping.waited (c % n) (by rw [hpc]; trivial)
  have hplace := h.placed.place c
  rw [if_pos hc, State.places, hdone, hworker] at hplace
  by_cases hclosed : s.closed c = true
  · exact .inl hclosed
  · have hmem : c ∈ s.conn_queues (c % n) := by
      refine List.count_pos_iff.mp ?_
      simp only [ListenerPc.client, WorkerPc.client, reduceCtorEq, if_false, hclosed] at hplace
      omega
    exact .inr ⟨hmem, h.stopping.swept _ (by rw [hpc]; trivial) c hmem⟩

/-- In every state that some interleaving of the threads and the clients
reaches: one thread is inside of each mutex; a connection that was accepted
is in one place, and only worker `c % n_workers` ever has it; a worker is
through with the earlier ones; and once `stop` has returned every
connection is closed, or shut down in its queue, and nothing takes a step
any more. -/
theorem stop_safe (h : Reaches n s) (hn : 0 < n) :
    (∀ i t t', s.Holds i t → s.Holds i t' → t = t') ∧
    (∀ c < s.accepted, s.places n c = 1) ∧
    (∀ i c, c ∈ s.conn_queues i ∨ (s.worker i).client = some c → i = c % n) ∧
    (∀ c c', c < c' → c % n = c' % n →
      (s.worker (c' % n)).client = some c' ∨ s.closed c' = true → s.closed c = true) ∧
    (s.stopper = .returned →
      (∀ c < s.accepted, s.closed c = true ∨ c ∈ s.conn_queues (c % n) ∧ s.shut c = true) ∧
      ∀ a, step n s a = none) := by
  have hinv := h.inv hn
  refine ⟨fun i => (hinv.owner i).unique, fun c hc => ?_, fun i c hc => ?_, hinv.placed.order,
    fun hpc => ⟨fun c => hinv.left hpc, hinv.over hpc⟩⟩
  · rw [hinv.placed.place c, if_pos hc]
  · rcases hc with hc | hc
    · exact (hinv.placed.queued i c hc).symm
    · exact (hinv.placed.served i c hc).symm

/-- Two clients connect; one worker serves the first. -/
def serveOne : List Action :=
  [.listener, .accepts, .listener, .listener, .listener, .listener, .accepts, .listener, .listener,
    .listener, .worker 0, .worker 0, .worker 0, .worker 0]

/-- `stop` up to its wait for the worker. -/
def stopOne : List Action := [.stop, .listener, .stop, .stop, .stop, .stop]

/-- The first client sends a request more and hangs up. -/
def hangUp : List Action :=
  [.receives 0 true, .worker 0, .responds 0 true, .receives 0 false, .worker 0, .worker 0, .stop]

theorem stop_safe_two_clients : ∃ s,
    Run 1 (started 1) (serveOne ++ .stop :: (stopOne ++ hangUp)) s ∧ s.closed 0 = true ∧
    s.shut 1 = true ∧ ∀ a, step 1 s a = none := by
  have hrun : Run 1 (started 1) (serveOne ++ .stop :: (stopOne ++ hangUp)) _ := .cons rfl <|
    .cons rfl <| .cons rfl <| .cons rfl <| .cons rfl <| .cons rfl <| .cons rfl <| .cons rfl <|
    .cons rfl <| .cons rfl <| .cons rfl <| .cons rfl <| .cons rfl <| .cons rfl <| .cons rfl <|
    .cons rfl <| .cons rfl <| .cons rfl <| .cons rfl <| .cons rfl <| .cons rfl <| .cons rfl <|
    .cons rfl <| .cons rfl <| .cons rfl <| .cons rfl <| .cons rfl <| .cons rfl <| .nil _
  exact ⟨_, hrun, rfl, rfl, ((stop_safe ⟨_, hrun⟩ Nat.one_pos).2.2.2.2 rfl).2⟩

/-! ## What `stop` waits for -/

/-- The step of a thread by itself. -/
def Thread.act : Thread → Action
  | .stop => .stop
  | .listener => .listener
  | .worker i => .worker i

theorem step_of_move {a : Action} (hlive : s.killed = false) (hs : (s.move n a).isSome) :
    (step n s a).isSome := by
  simpa [step, hlive] using hs

/-- A thread inside of a mutex goes on. -/
theorem holds_move {t : Thread} (h : s.Holds i t) : (s.move n t.act).isSome := by
  cases t with
  | stop =>
    obtain ⟨rest, hpc⟩ := h
    cases rest <;> simp [Thread.act, State.move, State.stepStop, hpc]
  | listener =>
    obtain ⟨hin, -⟩ := h
    cases hpc : s.listener <;>
      simp_all [ListenerPc.Inside, Thread.act, State.move, State.stepListener]
  | worker j =>
    obtain ⟨-, hin⟩ := h
    cases hpc : s.worker j with
    | popping =>
      cases hq : s.conn_queues j <;> simp [Thread.act, State.move, State.stepWorker, hpc, hq]
    | unlocking client => cases client <;> simp [Thread.act, State.move, State.stepWorker, hpc]
    | loop | locking | sleeping | receiving | processing | responding | payload | closing | done =>
      rw [hpc] at hin
      exact hin.elim

/-- In a call on a connection that was not shut down. -/
def State.Waits (s : State) (i : Nat) : Prop :=
  ∃ c, (s.worker i = .receiving c ∨ s.worker i = .responding c ∨ s.worker i = .payload c) ∧
    s.shut c = false

/-- In a call of the store, behind a request that was refused. -/
def State.Blocked (s : State) (i : Nat) : Prop :=
  ∃ c, s.worker i = .processing c ∧ s.storeKept = true

theorem worker_move (hfree : ∀ i, s.owner i = none) (hrun : s.worker i ≠ .done) :
    (s.move n (.worker i)).isSome ∨ s.Waits i ∨ s.Blocked i := by
  cases hpc : s.worker i with
  | done => exact absurd hpc hrun
  | receiving c | responding c | payload c =>
    cases hshut : s.shut c with
    | true => exact .inl (by simp [State.move, State.stepWorker, hpc, hshut])
    | false => exact .inr (.inl ⟨c, by simp [hpc], hshut⟩)
  | processing c =>
    cases hkept : s.storeKept with
    | true => exact .inr (.inr ⟨c, hpc, hkept⟩)
    | false => exact .inl (by simp [State.move, State.stepWorker, hpc, hkept])
  | popping => exact .inl (holds_move (i := i) (t := .worker i) ⟨rfl, by rw [hpc]; trivial⟩)
  | unlocking client =>
    exact .inl (holds_move (i := i) (t := .worker i) ⟨rfl, by rw [hpc]; trivial⟩)
  | locking => exact .inl (by simp [State.move, State.stepWorker, State.lock, hpc, hfree])
  | loop | sleeping | closing =>
    exact .inl (by simp [State.move, State.stepWorker, hpc])

theorem Inv.listener_move (h : Inv n s) (hfree : ∀ i, s.owner i = none)
    (hpc : s.stopper = .joining) (hl : s.listener ≠ .done) : (s.move n .listener).isSome := by
  have hshut := h.stopping.listenerShut.mpr (by simp [hpc])
  cases hlistener : s.listener <;>
    simp_all [State.move, State.stepListener, State.lock]

theorem Inv.move (h : Inv n s) (hidle : s.stopper ≠ .idle) (hr : s.stopper ≠ .returned) :
    (∃ t : Thread, (s.move n t.act).isSome) ∨ (∃ i, s.Waits i) ∨ ∃ i, s.Blocked i := by
  by_cases hfree : ∀ i, s.owner i = none
  · have hstop : (s.stepStop n).isSome → ∃ t : Thread, (s.move n t.act).isSome :=
      fun hs => ⟨.stop, hs⟩
    cases hpc : s.stopper with
    | idle => exact absurd hpc hidle
    | returned => exact absurd hpc hr
    | shutListener => exact .inl (hstop (by simp [State.stepStop, hpc]))
    | joining =>
      by_cases hl : s.listener = .done
      · exact .inl (hstop (by simp [State.stepStop, hpc, hl]))
      · exact .inl ⟨.listener, h.listener_move hfree hpc hl⟩
    | locking i => exact .inl (hstop (by simp [State.stepStop, State.lock, hpc, hfree]))
    | closing i rest =>
      have hin : s.Holds i .stop := ⟨rest, hpc⟩
      exact .inl ⟨.stop, holds_move hin⟩
    | joinWorker i =>
      by_cases hdone : s.worker i = .done
      · exact .inl (hstop (by simp [State.stepStop, hpc, hdone]))
      · rcases worker_move hfree hdone with hs | hw | hb
        · exact .inl ⟨.worker i, hs⟩
        · exact .inr (.inl ⟨i, hw⟩)
        · exact .inr (.inr ⟨i, hb⟩)
  · obtain ⟨i, hown⟩ := not_forall.mp hfree
    obtain ⟨t, ht⟩ := Option.ne_none_iff_exists'.mp hown
    exact .inl ⟨t, holds_move ((h.owner i t).mpr ht)⟩

/-! ## The steps that are left -/

/-- The steps a worker still has to take once `is_stopped` is set, if no
request arrives any more. -/
def WorkerPc.work : WorkerPc → Nat
  | .locking | .processing _ => 6
  | .popping | .responding _ => 5
  | .unlocking (some _) | .payload _ => 4
  | .unlocking none | .receiving _ => 3
  | .sleeping | .closing _ => 2
  | .loop => 1
  | .done => 0

theorem WorkerPc.work_le (pc : WorkerPc) : pc.work ≤ 6 := by
  cases pc with
  | unlocking client => cases client <;> simp [WorkerPc.work]
  | _ => simp [WorkerPc.work]

/-- A connection may still be accepted: `stop` may find it in any queue. -/
def ListenerPc.work (n : Nat) : ListenerPc → Nat
  | .accepting => n + 5
  | .locking _ => 4
  | .pushing _ => 3
  | .unlocking => 2
  | .loop => 1
  | .done => 0

def StopPc.work (n accepted : Nat) : StopPc → Nat
  | .idle => n * (accepted + 2) + n + 3
  | .shutListener => n * (accepted + 2) + n + 2
  | .joining => n * (accepted + 2) + n + 1
  | .locking i => accepted + 2 + (n - (i + 1)) * (accepted + 2) + n
  | .closing i rest => rest.length + 1 + (n - (i + 1)) * (accepted + 2) + n
  | .joinWorker i => n - (i + 1) + 1
  | .returned => 0

namespace State

def workersWork (n : Nat) (s : State) : Nat := ∑ i ∈ Finset.range n, (s.worker i).work

def work (n : Nat) (s : State) : Nat :=
  s.workersWork n + s.listener.work n + s.stopper.work n s.accepted + (!s.killed).toNat

end State

/-- The end of the process is a step of its own. -/
theorem work_kill (hlive : s.killed = false) :
    State.work n { s with killed := true } + 1 ≤ s.work n := by
  simp [State.work, State.workersWork, hlive]

/-- The work of the loop over the workers. -/
theorem work_join (n i accepted : Nat) : (StopPc.join n i).work n accepted = n - i := by
  rcases join_cases n i with ⟨he, hi⟩ | ⟨he, hi⟩ <;> rw [he, StopPc.work] <;> omega

/-- The work of the loop over the queues. -/
theorem work_sweep (n i accepted : Nat) :
    (StopPc.sweep n i).work n accepted = (n - i) * (accepted + 2) + n := by
  rcases sweep_cases n i with ⟨he, hi⟩ | ⟨he, hi⟩
  · have hsucc : n - i = n - (i + 1) + 1 := by omega
    rw [he, StopPc.work, hsucc, Nat.add_mul, Nat.one_mul]
    omega
  · rw [he, work_join, Nat.sub_eq_zero_of_le hi]
    omega

theorem Inv.length_le (h : Inv n s) (i : Nat) : (s.conn_queues i).length ≤ s.accepted := by
  have hnodup : (s.conn_queues i).Nodup := (h.placed.sorted i).imp Nat.ne_of_lt
  have hsub : (s.conn_queues i).toFinset ⊆ Finset.range s.accepted := fun c hc =>
    Finset.mem_range.mpr (h.placed.of_mem (List.mem_toFinset.mp hc)).1
  have hcard := Finset.card_le_card hsub
  rwa [List.toFinset_card_of_nodup hnodup, Finset.card_range] at hcard

/-- A worker that moves on; it takes work off or gets some for a request. -/
theorem Inv.work_goWorker (h : Inv n s) {pc : WorkerPc} (back : Nat) (hfrom : s.worker i ≠ .done)
    (hwork : pc.work + 1 ≤ (s.worker i).work + back) :
    (s.goWorker i pc).work n + 1 ≤ s.work n + back := by
  have hi : i < n := Nat.lt_of_not_le fun hle => hfrom (h.stopping.outside i hle).1
  have hsum := sum_update WorkerPc.work s.worker hi pc
  simp only [State.work, State.workersWork, State.goWorker]
  omega

theorem Inv.work_stepWorker (h : Inv n s) (hstop : s.is_stopped = true)
    (hlive : s.killed = false) (hs : s.stepWorker i = some s') : s'.work n + 1 ≤ s.work n := by
  have hmove : ∀ {pc}, s.worker i = pc → pc ≠ .done → ∀ pc' : WorkerPc,
      pc'.work < pc.work → (s.goWorker i pc').work n + 1 ≤ s.work n := by
    rintro pc rfl hfrom pc' hwork
    exact h.work_goWorker 0 hfrom hwork
  unfold State.stepWorker at hs
  split at hs
  · rename_i hpc
    rw [if_pos hstop] at hs
    cases hs
    exact hmove hpc (by simp) .done (by decide)
  · rename_i hpc
    obtain ⟨s₁, hlock, rfl⟩ := Option.map_eq_some_iff.mp hs
    obtain ⟨-, rfl⟩ := lock_eq_some hlock
    exact hmove hpc (by simp) .popping (by decide)
  · rename_i hpc
    split at hs
    · cases hs
      exact hmove hpc (by simp) (.unlocking none) (by decide)
    · cases hs
      exact hmove hpc (by simp) (.unlocking (some _)) (by simp [WorkerPc.work])
  · rename_i hpc
    cases hs
    exact hmove hpc (by simp) .sleeping (by decide)
  · rename_i client hpc
    cases hs
    exact hmove hpc (by simp) (.receiving client) (by simp [WorkerPc.work])
  · rename_i hpc
    cases hs
    exact hmove hpc (by simp) .loop (by decide)
  · rename_i client hpc
    split at hs <;> cases hs
    exact hmove hpc (by simp) (.closing client) (by simp [WorkerPc.work])
  · rename_i client hpc
    split at hs <;> cases hs
    exact hmove hpc (by simp) (.responding client) (by simp [WorkerPc.work])
  · rename_i client hpc
    split at hs <;> cases hs
    exact hmove hpc (by simp) (.closing client) (by simp [WorkerPc.work])
  · split at hs <;> cases hs
    exact work_kill hlive
  · rename_i client hpc
    cases hs
    exact hmove hpc (by simp) .loop (by simp [WorkerPc.work])
  · cases hs

theorem work_stepListener (hstop : s.is_stopped = true) (hs : s.stepListener n = some s') :
    s'.work n + 1 ≤ s.work n := by
  unfold State.stepListener at hs
  split at hs
  · rename_i hpc
    rw [if_pos hstop] at hs
    cases hs
    simp only [State.work, State.workersWork, State.goListener, hpc, ListenerPc.work]
    omega
  · rename_i hpc
    split at hs <;> cases hs
    simp only [State.work, State.workersWork, State.goListener, hpc, ListenerPc.work]
    omega
  · rename_i hpc
    obtain ⟨s₁, hlock, rfl⟩ := Option.map_eq_some_iff.mp hs
    obtain ⟨-, rfl⟩ := lock_eq_some hlock
    simp only [State.work, State.workersWork, State.goListener, hpc, ListenerPc.work]
    omega
  · rename_i hpc
    cases hs
    simp only [State.work, State.workersWork, State.goListener, State.setQueue, hpc,
      ListenerPc.work]
    omega
  · rename_i hpc
    cases hs
    simp only [State.work, State.workersWork, State.goListener, State.unlock, hpc,
      ListenerPc.work]
    omega
  · cases hs

/-- `stop` goes on to a place with less work. -/
theorem work_goStop {t : State} {pc : StopPc} (hworker : t.worker = s.worker)
    (hlistener : t.listener = s.listener) (haccepted : t.accepted = s.accepted)
    (hkilled : t.killed = s.killed)
    (hwork : pc.work n s.accepted + 1 ≤ s.stopper.work n s.accepted) :
    (t.goStop pc).work n + 1 ≤ s.work n := by
  simp only [State.work, State.workersWork, State.goStop, hworker, hlistener, haccepted, hkilled]
  omega

theorem Inv.work_stepStop (h : Inv n s) (hs : s.stepStop n = some s') :
    s'.work n + 1 ≤ s.work n := by
  unfold State.stepStop at hs
  split at hs
  · rename_i hpc
    cases hs
    exact work_goStop rfl rfl rfl rfl (by rw [hpc]; exact Nat.le_refl _)
  · rename_i hpc
    cases hs
    exact work_goStop rfl rfl rfl rfl (by rw [hpc]; exact Nat.le_refl _)
  · rename_i hpc
    split at hs <;> cases hs
    exact work_goStop rfl rfl rfl rfl (by rw [hpc, work_sweep]; exact Nat.le_refl _)
  · rename_i j hpc
    obtain ⟨s₁, hlock, rfl⟩ := Option.map_eq_some_iff.mp hs
    obtain ⟨-, rfl⟩ := lock_eq_some hlock
    refine work_goStop rfl rfl rfl rfl ?_
    have hlen := h.length_le j
    rw [hpc]
    simp only [StopPc.work]
    omega
  · rename_i j hpc
    cases hs
    refine work_goStop rfl rfl rfl rfl ?_
    rw [hpc, work_sweep]
    simp only [StopPc.work, List.length_nil]
    omega
  · rename_i j client rest hpc
    cases hs
    refine work_goStop rfl rfl rfl rfl ?_
    rw [hpc]
    simp only [StopPc.work, List.length_cons]
    omega
  · rename_i j hpc
    split at hs <;> cases hs
    refine work_goStop rfl rfl rfl rfl ?_
    rw [hpc, work_join]
    exact Nat.le_refl _
  · cases hs

/-- A request arrives. -/
def Action.request : Action → Bool
  | .receives _ request => request
  | _ => false

/-- Once `stop` is called each step takes work off, except that a request
keeps its worker from the end. -/
theorem Inv.work_step {a : Action} (h : Inv n s) (hstop : s.is_stopped = true)
    (hs : ServerThreads.step n s a = some s') :
    s'.work n + 1 ≤ s.work n + if a.request then 4 else 0 := by
  obtain ⟨hlive, hs⟩ := step_eq_some hs
  cases a with
  | stop => exact h.work_stepStop hs
  | listener => exact work_stepListener hstop hs
  | worker i => exact h.work_stepWorker hstop hlive hs
  | accepts =>
    obtain ⟨⟨hl, -⟩, rfl⟩ := accepts_eq_some hs
    have hfrom : ¬ s.stopper.Joined := fun hj => by
      have hdone := h.stopping.joined hj
      rw [hl] at hdone
      cases hdone
    have hstopper : s.stopper.work n (s.accepted + 1) ≤ s.stopper.work n s.accepted + n := by
      have hmul : n * (s.accepted + 1 + 2) = n * (s.accepted + 2) + n := Nat.mul_succ _ _
      cases hpc : s.stopper <;> rw [hpc] at hfrom <;>
        first | exact absurd trivial hfrom | (simp only [StopPc.work]; omega)
    simp only [State.work, State.workersWork, State.goListener, hl, ListenerPc.work,
      Action.request, Bool.false_eq_true, if_false]
    omega
  | acceptFails =>
    obtain ⟨hl, rfl⟩ := acceptFails_eq_some hs
    simp only [State.work, State.workersWork, State.goListener, hl, ListenerPc.work,
      Action.request, Bool.false_eq_true, if_false]
    omega
  | receives i request =>
    obtain ⟨c, hpc, rfl⟩ := receives_eq_some hs
    refine h.work_goWorker _ (by simp [hpc]) ?_
    rw [hpc]
    cases request <;> simp [WorkerPc.work, Action.request]
  | refuses i =>
    obtain ⟨c, hpc, rfl⟩ := refuses_eq_some hs
    have hfrom : s.worker i ≠ .done := by simp [hpc]
    have hwork : (WorkerPc.responding c).work + 1 ≤ (s.worker i).work + 0 := by
      rw [hpc]
      exact Nat.le_refl 6
    exact (h.withFlags true s.killed).work_goWorker 0 hfrom hwork
  | heads i =>
    obtain ⟨c, hpc, -, rfl⟩ := heads_eq_some hs
    refine h.work_goWorker _ (by simp [hpc]) ?_
    rw [hpc]
    simp [WorkerPc.work, Action.request]
  | responds i sent =>
    obtain ⟨c, hpc, rfl⟩ := responds_eq_some hs
    refine h.work_goWorker _ (by rcases hpc with hpc | hpc <;> simp [hpc]) ?_
    rcases hpc with hpc | hpc <;> rw [hpc] <;> cases sent <;>
      simp [WorkerPc.work, Action.request]
  | dies t =>
    obtain ⟨-, rfl⟩ := dies_eq_some hs
    exact work_kill hlive

/-! ## What the other threads leave alone -/

/-- The worker an action is about. -/
def Action.ofWorker : Action → Option Nat
  | .worker i | .receives i _ | .refuses i | .heads i | .responds i _ => some i
  | .stop | .listener | .accepts | .acceptFails | .dies _ => none

/-- A worker is at the bytes of a response, on a connection that was shut
down. -/
def State.Pipe (s : State) : Prop := ∃ i c, s.worker i = .payload c ∧ s.shut c = true

/-- What a step leaves alone: the flags stay set, the other workers stay
where they are, no thread but that of `stop` shuts a connection down, and
the process goes on. -/
structure Frame (a : Action) (s s' : State) : Prop where
  stopped : s.is_stopped = true → s'.is_stopped = true
  kept : s.storeKept = true → s'.storeKept = true
  killed : s'.killed = s.killed ∨ (∃ t, a = .dies t) ∨ s.Pipe
  worker : ∀ j, a.ofWorker ≠ some j → s'.worker j = s.worker j
  shut : a ≠ .stop → s'.shut = s.shut

theorem frame_listener (hs : s.stepListener n = some s') : Frame .listener s s' := by
  unfold State.stepListener at hs
  split at hs
  · cases hs
    exact ⟨id, id, .inl rfl, fun _ _ => rfl, fun _ => rfl⟩
  · split at hs <;> cases hs
    exact ⟨id, id, .inl rfl, fun _ _ => rfl, fun _ => rfl⟩
  · obtain ⟨s₁, hlock, rfl⟩ := Option.map_eq_some_iff.mp hs
    obtain ⟨-, rfl⟩ := lock_eq_some hlock
    exact ⟨id, id, .inl rfl, fun _ _ => rfl, fun _ => rfl⟩
  · cases hs
    exact ⟨id, id, .inl rfl, fun _ _ => rfl, fun _ => rfl⟩
  · cases hs
    exact ⟨id, id, .inl rfl, fun _ _ => rfl, fun _ => rfl⟩
  · cases hs

/-- A worker moves, or gets SIGPIPE. -/
theorem stepWorker_moves (hs : s.stepWorker i = some s') :
    (∃ c, s.worker i = .payload c ∧ s.shut c = true ∧ s' = { s with killed := true }) ∨
    ∃ pc, s'.worker = Function.update s.worker i pc ∧ s'.is_stopped = s.is_stopped ∧
      s'.storeKept = s.storeKept ∧ s'.killed = s.killed ∧ s'.shut = s.shut ∧
      ∀ c, pc ≠ .payload c := by
  unfold State.stepWorker at hs
  split at hs
  · cases hs
    exact .inr ⟨_, rfl, rfl, rfl, rfl, rfl, by split <;> exact fun _ he => nomatch he⟩
  · obtain ⟨s₁, hlock, rfl⟩ := Option.map_eq_some_iff.mp hs
    obtain ⟨-, rfl⟩ := lock_eq_some hlock
    exact .inr ⟨_, rfl, rfl, rfl, rfl, rfl, fun _ he => nomatch he⟩
  · split at hs <;> cases hs <;>
      exact .inr ⟨_, rfl, rfl, rfl, rfl, rfl, fun _ he => nomatch he⟩
  · cases hs
    exact .inr ⟨_, rfl, rfl, rfl, rfl, rfl, fun _ he => nomatch he⟩
  · cases hs
    exact .inr ⟨_, rfl, rfl, rfl, rfl, rfl, fun _ he => nomatch he⟩
  · cases hs
    exact .inr ⟨_, rfl, rfl, rfl, rfl, rfl, fun _ he => nomatch he⟩
  · split at hs <;> cases hs
    exact .inr ⟨_, rfl, rfl, rfl, rfl, rfl, fun _ he => nomatch he⟩
  · split at hs <;> cases hs
    exact .inr ⟨_, rfl, rfl, rfl, rfl, rfl, fun _ he => nomatch he⟩
  · split at hs <;> cases hs
    exact .inr ⟨_, rfl, rfl, rfl, rfl, rfl, fun _ he => nomatch he⟩
  · rename_i client hpc
    split at hs <;> cases hs
    exact .inl ⟨client, hpc, by assumption, rfl⟩
  · cases hs
    exact .inr ⟨_, rfl, rfl, rfl, rfl, rfl, fun _ he => nomatch he⟩
  · cases hs

/-- Where the others are, when worker `i` moves. -/
theorem update_other (w : Nat → WorkerPc) (pc : WorkerPc) (j : Nat) (hj : some i ≠ some j) :
    Function.update w i pc j = w j :=
  Function.update_of_ne (fun he => hj (congrArg some he.symm)) _ _

theorem frame_worker (hs : s.stepWorker i = some s') : Frame (.worker i) s s' := by
  rcases stepWorker_moves hs with
    ⟨c, hpc, hshut, rfl⟩ | ⟨pc, hworker, hstop, hkept, hkill, hshut, -⟩
  · exact ⟨id, id, .inr (.inr ⟨i, c, hpc, hshut⟩), fun _ _ => rfl, fun _ => rfl⟩
  · refine ⟨hstop.trans, hkept.trans, .inl hkill, fun j hj => ?_, fun _ => hshut⟩
    rw [hworker, update_other _ _ j hj]

/-- `stop` shuts down the connection it is at. -/
theorem frame_stop (hs : s.stepStop n = some s') :
    Frame .stop s s' ∧
    ∀ c, s'.shut c = s.shut c ∨ ∃ i rest, s.stopper = .closing i (c :: rest) := by
  unfold State.stepStop at hs
  split at hs
  · cases hs
    exact ⟨⟨fun _ => rfl, id, .inl rfl, fun _ _ => rfl, fun _ => rfl⟩, fun _ => .inl rfl⟩
  · cases hs
    exact ⟨⟨id, id, .inl rfl, fun _ _ => rfl, fun _ => rfl⟩, fun _ => .inl rfl⟩
  · split at hs <;> cases hs
    exact ⟨⟨id, id, .inl rfl, fun _ _ => rfl, fun _ => rfl⟩, fun _ => .inl rfl⟩
  · obtain ⟨s₁, hlock, rfl⟩ := Option.map_eq_some_iff.mp hs
    obtain ⟨-, rfl⟩ := lock_eq_some hlock
    exact ⟨⟨id, id, .inl rfl, fun _ _ => rfl, fun _ => rfl⟩, fun _ => .inl rfl⟩
  · cases hs
    exact ⟨⟨id, id, .inl rfl, fun _ _ => rfl, fun _ => rfl⟩, fun _ => .inl rfl⟩
  · rename_i j client rest hpc
    cases hs
    refine ⟨⟨id, id, .inl rfl, fun _ _ => rfl, fun hne => absurd rfl hne⟩, fun c => ?_⟩
    by_cases hc : c = client
    · subst hc
      exact .inr ⟨j, rest, hpc⟩
    · exact .inl (Function.update_of_ne hc _ _)
  · split at hs <;> cases hs
    exact ⟨⟨id, id, .inl rfl, fun _ _ => rfl, fun _ => rfl⟩, fun _ => .inl rfl⟩
  · cases hs

theorem frame_step {a : Action} (hs : step n s a = some s') : Frame a s s' := by
  replace hs := (step_eq_some hs).2
  cases a with
  | stop => exact (frame_stop hs).1
  | listener => exact frame_listener hs
  | worker i => exact frame_worker hs
  | accepts =>
    obtain ⟨-, rfl⟩ := accepts_eq_some hs
    exact ⟨id, id, .inl rfl, fun _ _ => rfl, fun _ => rfl⟩
  | acceptFails =>
    obtain ⟨-, rfl⟩ := acceptFails_eq_some hs
    exact ⟨id, id, .inl rfl, fun _ _ => rfl, fun _ => rfl⟩
  | dies t =>
    obtain ⟨-, rfl⟩ := dies_eq_some hs
    exact ⟨id, id, .inr (.inl ⟨t, rfl⟩), fun _ _ => rfl, fun _ => rfl⟩
  | receives i request =>
    obtain ⟨c, -, rfl⟩ := receives_eq_some hs
    exact ⟨id, id, .inl rfl, update_other _ _, fun _ => rfl⟩
  | refuses i =>
    obtain ⟨c, -, rfl⟩ := refuses_eq_some hs
    exact ⟨id, fun _ => rfl, .inl rfl, update_other _ _, fun _ => rfl⟩
  | heads i =>
    obtain ⟨c, -, -, rfl⟩ := heads_eq_some hs
    exact ⟨id, id, .inl rfl, update_other _ _, fun _ => rfl⟩
  | responds i sent =>
    obtain ⟨c, -, rfl⟩ := responds_eq_some hs
    exact ⟨id, id, .inl rfl, update_other _ _, fun _ => rfl⟩

/-- `stop` shuts down what is in a queue, never what a worker has. -/
theorem Inv.shut_stepStop (h : Inv n s) {c : Nat} (hserve : (s.worker i).client = some c)
    (hshut : s.shut c = false) (hs : s.stepStop n = some s') : s'.shut c = false := by
  rcases (frame_stop hs).2 c with heq | ⟨j, rest, hpc⟩
  · rw [heq, hshut]
  · have hmem := (h.stopping.closing j _ hpc).2 c List.mem_cons_self
    have hij : i = j := (h.placed.served i c hserve).symm.trans (h.placed.queued j c hmem)
    exact absurd (hij ▸ hserve) (h.placed.of_mem hmem).2.2.2.1

theorem Inv.shut_step (h : Inv n s) {a : Action} {c : Nat}
    (hserve : (s.worker i).client = some c) (hshut : s.shut c = false)
    (hs : ServerThreads.step n s a = some s') : s'.shut c = false := by
  by_cases ha : a = .stop
  · subst ha
    exact h.shut_stepStop hserve hshut (step_eq_some hs).2
  · rw [(frame_step hs).shut ha, hshut]

/-! ## What ends the process -/

/-- A worker gets to the bytes of a response from the sends in front of
them. -/
theorem payload_step {a : Action} {c : Nat} (hs : step n s a = some s')
    (hpc' : s'.worker i = .payload c) :
    s.worker i = .payload c ∨ s.worker i = .responding c ∧ s.shut c = false := by
  by_cases ha : a.ofWorker = some i
  · replace hs := (step_eq_some hs).2
    cases a with
    | stop | listener | accepts | acceptFails | dies => cases ha
    | worker j =>
      cases ha
      rcases stepWorker_moves hs with ⟨_, -, -, rfl⟩ | ⟨pc, hworker, -, -, -, -, hpc⟩
      · exact .inl hpc'
      · rw [hworker, Function.update_self] at hpc'
        exact absurd hpc' (hpc c)
    | receives j request =>
      cases ha
      obtain ⟨_, -, rfl⟩ := receives_eq_some hs
      cases request <;> simp [State.goWorker] at hpc'
    | refuses j =>
      cases ha
      obtain ⟨_, -, rfl⟩ := refuses_eq_some hs
      simp [State.goWorker] at hpc'
    | heads j =>
      cases ha
      obtain ⟨client, hpc, hshut, rfl⟩ := heads_eq_some hs
      obtain rfl : client = c := by simpa [State.goWorker] using hpc'
      exact .inr ⟨hpc, hshut⟩
    | responds j sent =>
      cases ha
      obtain ⟨_, -, rfl⟩ := responds_eq_some hs
      cases sent <;> simp [State.goWorker] at hpc'
  · exact .inl ((frame_step hs).worker i ha ▸ hpc')

/-- `stop` leaves the connection of a worker alone, so no worker is at a
send that raises SIGPIPE. -/
theorem Inv.not_pipe_step (h : Inv n s) {a : Action} (hpipe : ¬ s.Pipe)
    (hs : ServerThreads.step n s a = some s') : ¬ s'.Pipe := by
  rintro ⟨i, c, hpc', hshut'⟩
  obtain ⟨hclient, hshut⟩ : (s.worker i).client = some c ∧ s.shut c = false := by
    rcases payload_step hs hpc' with hpc | ⟨hpc, hshut⟩
    · exact ⟨by rw [hpc]; rfl, Bool.eq_false_iff.mpr fun hshut => hpipe ⟨i, c, hpc, hshut⟩⟩
    · exact ⟨by rw [hpc]; rfl, hshut⟩
  rw [h.shut_step hclient hshut hs] at hshut'
  cases hshut'

theorem not_pipe_started : ¬ (started n).Pipe := by
  rintro ⟨i, c, hpc, -⟩
  simp only [started] at hpc
  split at hpc <;> cases hpc

theorem Reaches.not_pipe (h : Reaches n s) (hn : 0 < n) : ¬ s.Pipe :=
  h.elim fun _ hr => (hr.keeps (I := fun s => Inv n s ∧ ¬ s.Pipe)
    (fun _ _ _ h hs => ⟨h.1.step hn hs, h.1.not_pipe_step h.2 hs⟩)
    ⟨inv_started n, not_pipe_started⟩).2

theorem Inv.killed_by (h : Inv n s) (hn : 0 < n) (hpipe : ¬ s.Pipe) (hlive : s.killed = false)
    {as : List Action} (hr : Run n s as s') :
    (∃ a ∈ as, ∃ t, a = .dies t) ∨ s'.killed = false := by
  have hrun := hr.keeps_unless (I := fun s => (Inv n s ∧ ¬ s.Pipe) ∧ s.killed = false)
    (fun a => ∃ t, a = .dies t) (fun s a s' h hs => ?_) ⟨⟨h, hpipe⟩, hlive⟩
  · exact hrun.imp_right And.right
  · rcases (frame_step hs).killed with hsame | hdies | hpipe'
    · exact .inr ⟨⟨h.1.1.step hn hs, h.1.1.not_pipe_step h.1.2 hs⟩, hsame.trans h.2⟩
    · exact .inl hdies
    · exact absurd hpipe' h.1.2

/-- From the moment `stop` is called, in every interleaving: the run has a
bounded number of steps, besides four for each request that still arrives;
until `stop` has returned or the process has ended, some thread has a step
it takes by itself, or some worker is in a call on a connection that was
not shut down, or in a call of the store behind a request that was refused;
and the process only ends by an exception or by a client that goes away. -/
theorem stop_ends (h : Reaches n s) (hn : 0 < n) (hpc : s.stopper = .shutListener)
    (hlive : s.killed = false) {as : List Action} (hr : Run n s as s') :
    as.length ≤ n * (s.accepted + 10) + 8 + 4 * as.countP Action.request ∧
    (s'.stopper ≠ .returned → s'.killed = false →
      (∃ t : Thread, (step n s' t.act).isSome) ∨ (∃ i, s'.Waits i) ∨ ∃ i, s'.Blocked i) ∧
    (s'.killed = true → ∃ t, .dies t ∈ as) := by
  have hstop : s.is_stopped = true := (h.inv hn).stopping.stopped.mpr (by simp [hpc])
  have hkeep : ∀ s a s', Inv n s ∧ s.is_stopped = true → step n s a = some s' →
      Inv n s' ∧ s'.is_stopped = true :=
    fun _ _ _ h hs => ⟨h.1.step hn hs, (frame_step hs).stopped h.2⟩
  refine ⟨?_, fun hret hlive' => ?_, fun hkill => ?_⟩
  · have hlen : as.length + s'.work n ≤ s.work n + 4 * as.countP Action.request :=
      hr.length_le hkeep (fun _ _ _ h hs => h.1.work_step h.2 hs) ⟨h.inv hn, hstop⟩
    have hworkers : s.workersWork n ≤ n * 6 := by
      have hsum := Finset.sum_le_card_nsmul (Finset.range n) (fun i => (s.worker i).work) 6
        fun i _ => WorkerPc.work_le _
      rwa [Finset.card_range, smul_eq_mul] at hsum
    have hlistener : s.listener.work n ≤ n + 5 := by
      cases s.listener <;> simp only [ListenerPc.work] <;> omega
    have hwork : s.work n = s.workersWork n + s.listener.work n +
        (n * (s.accepted + 2) + n + 2) + (!s.killed).toNat := by rw [State.work, hpc, StopPc.work]
    have halive := Bool.toNat_le (!s.killed)
    rw [Nat.mul_add] at hwork ⊢
    omega
  · obtain ⟨hinv, hstop'⟩ := hr.keeps hkeep ⟨h.inv hn, hstop⟩
    refine (hinv.move (hinv.stopping.stopped.mp hstop') hret).imp_left ?_
    exact fun ⟨t, ht⟩ => ⟨t, step_of_move hlive' ht⟩
  · rcases (h.inv hn).killed_by hn (h.not_pipe hn) hlive hr with ⟨_, ha, t, rfl⟩ | hlive'
    · exact ⟨t, ha⟩
    · exact absurd hkill (by simp [hlive'])

theorem stop_ends_two_clients : ∃ s s', Run 1 (started 1) (serveOne ++ [.stop]) s ∧
    Run 1 s stopOne s' ∧ stopOne.length ≤ 1 * (s.accepted + 10) + 8 ∧
    ((∃ t : Thread, (step 1 s' t.act).isSome) ∨ (∃ i, s'.Waits i) ∨ ∃ i, s'.Blocked i) := by
  have hruns : ∃ s s', Run 1 (started 1) (serveOne ++ [.stop]) s ∧ Run 1 s stopOne s' ∧
      s.stopper = .shutListener ∧ s'.stopper = .joinWorker 0 ∧ s.killed = false ∧
      s'.killed = false :=
    ⟨_, _, .cons rfl <| .cons rfl <| .cons rfl <| .cons rfl <| .cons rfl <| .cons rfl <|
      .cons rfl <| .cons rfl <| .cons rfl <| .cons rfl <| .cons rfl <| .cons rfl <| .cons rfl <|
      .cons rfl <| .cons rfl <| .nil _, .cons rfl <| .cons rfl <| .cons rfl <| .cons rfl <|
      .cons rfl <| .cons rfl <| .nil _, rfl, rfl, rfl, rfl⟩
  obtain ⟨s, s', hstart, hstop, hpc, hpc', hlive, hlive'⟩ := hruns
  obtain ⟨hlen, hact, -⟩ := stop_ends ⟨_, hstart⟩ Nat.one_pos hpc hlive hstop
  exact ⟨s, s', hstart, hstop, hlen, hact (by rw [hpc']; exact fun he => nomatch he) hlive'⟩

/-! ## A client that is being served -/

/-- With a connection that it popped and found no reason to close. -/
def WorkerPc.Serves (c : Nat) : WorkerPc → Prop
  | .unlocking client => client = some c
  | .receiving c' | .processing c' | .responding c' | .payload c' => c' = c
  | .loop | .locking | .popping | .sleeping | .closing _ | .done => False

theorem WorkerPc.Serves.client {c : Nat} {pc : WorkerPc} (h : pc.Serves c) :
    pc.client = some c := by
  cases pc <;> simp_all [WorkerPc.Serves, WorkerPc.client]

/-- A call of worker `i` on its connection fails. -/
def Action.Hangup (i : Nat) (a : Action) : Prop := a = .receives i false ∨ a = .responds i false

/-- Worker `i` goes on with a connection that was not shut down. -/
theorem serves_stepWorker {c : Nat} (hserve : (s.worker i).Serves c) (hshut : s.shut c = false)
    (hs : s.stepWorker i = some s') : (s'.worker i).Serves c := by
  cases hpc : s.worker i with
  | unlocking client =>
    rw [hpc] at hserve
    cases hserve
    rw [State.stepWorker, hpc] at hs
    cases hs
    simp [State.goWorker, WorkerPc.Serves]
  | processing c' =>
    rw [hpc] at hserve
    cases hserve
    simp only [State.stepWorker, hpc] at hs
    split at hs <;> cases hs
    simp [State.goWorker, WorkerPc.Serves]
  | receiving c' | responding c' | payload c' =>
    rw [hpc] at hserve
    cases hserve
    simp [State.stepWorker, hpc, hshut] at hs
  | loop | locking | popping | sleeping | closing | done =>
    rw [hpc] at hserve
    exact hserve.elim

/-- So it does in every step, until a call on the connection fails. -/
theorem Inv.serves_step (h : Inv n s) {c : Nat} {a : Action} (hserve : (s.worker i).Serves c)
    (hshut : s.shut c = false) (hs : ServerThreads.step n s a = some s') :
    a.Hangup i ∨ (s'.worker i).Serves c ∧ s'.shut c = false := by
  have hshut' := h.shut_step hserve.client hshut hs
  by_cases ha : a.ofWorker = some i
  · replace hs := (step_eq_some hs).2
    cases a with
    | stop | listener | accepts | acceptFails | dies => cases ha
    | worker j =>
      cases ha
      exact .inr ⟨serves_stepWorker hserve hshut hs, hshut'⟩
    | receives j request =>
      cases ha
      obtain ⟨client, hpc, rfl⟩ := receives_eq_some hs
      rw [hpc] at hserve
      cases request with
      | false => exact .inl (.inl rfl)
      | true => exact .inr ⟨by simpa [State.goWorker, WorkerPc.Serves] using hserve, hshut'⟩
    | refuses j =>
      cases ha
      obtain ⟨client, hpc, rfl⟩ := refuses_eq_some hs
      rw [hpc] at hserve
      exact .inr ⟨by simpa [State.goWorker, WorkerPc.Serves] using hserve, hshut'⟩
    | heads j =>
      cases ha
      obtain ⟨client, hpc, -, rfl⟩ := heads_eq_some hs
      rw [hpc] at hserve
      exact .inr ⟨by simpa [State.goWorker, WorkerPc.Serves] using hserve, hshut'⟩
    | responds j sent =>
      cases ha
      cases sent with
      | false => exact .inl (.inr rfl)
      | true =>
        obtain ⟨client, hpc, rfl⟩ := responds_eq_some hs
        have hclient : client = c := by
          rcases hpc with hpc | hpc <;> rw [hpc] at hserve <;> exact hserve
        exact .inr ⟨by simpa [State.goWorker, WorkerPc.Serves] using hclient, hshut'⟩
  · exact .inr ⟨by rwa [(frame_step hs).worker i ha], hshut'⟩

/-- `stop` does not return before a call on the connection fails. -/
theorem stop_waits (h : Reaches n s) (hn : 0 < n) {c : Nat} (hserve : (s.worker i).Serves c)
    (hshut : s.shut c = false) {as : List Action} (hr : Run n s as s')
    (hpc : s'.stopper = .returned) : .receives i false ∈ as ∨ .responds i false ∈ as := by
  have hkeep : ∀ s a s', Inv n s ∧ (s.worker i).Serves c ∧ s.shut c = false →
      step n s a = some s' →
      a.Hangup i ∨ Inv n s' ∧ (s'.worker i).Serves c ∧ s'.shut c = false :=
    fun _ _ _ h hs => (h.1.serves_step h.2.1 h.2.2 hs).imp_right fun hs' => ⟨h.1.step hn hs, hs'⟩
  rcases hr.keeps_unless _ hkeep ⟨h.inv hn, hserve, hshut⟩ with
    ⟨a, hmem, rfl | rfl⟩ | ⟨hinv, hend, -⟩
  · exact .inl hmem
  · exact .inr hmem
  · rw [hinv.stopping.waited i (by rw [hpc]; trivial)] at hend
    exact hend.elim

theorem stop_waits_two_clients :
    .receives 0 false ∈ stopOne ++ hangUp ∨ .responds 0 false ∈ stopOne ++ hangUp := by
  have hruns : ∃ s s', Run 1 (started 1) (serveOne ++ [.stop]) s ∧ Run 1 s (stopOne ++ hangUp) s' ∧
      s.worker 0 = .receiving 0 ∧ s.shut 0 = false ∧ s'.stopper = .returned :=
    ⟨_, _, .cons rfl <| .cons rfl <| .cons rfl <| .cons rfl <| .cons rfl <| .cons rfl <|
      .cons rfl <| .cons rfl <| .cons rfl <| .cons rfl <| .cons rfl <| .cons rfl <| .cons rfl <|
      .cons rfl <| .cons rfl <| .nil _, .cons rfl <| .cons rfl <| .cons rfl <| .cons rfl <|
      .cons rfl <| .cons rfl <| .cons rfl <| .cons rfl <| .cons rfl <| .cons rfl <| .cons rfl <|
      .cons rfl <| .cons rfl <| .nil _, rfl, rfl, rfl⟩
  obtain ⟨s, s', hstart, hstop, hserve, hshut, hpc⟩ := hruns
  exact stop_waits ⟨_, hstart⟩ Nat.one_pos (by rw [hserve]; rfl) hshut hstop hpc

/-! ## A store that has kept its mutex -/

theorem blocked_step {a : Action} (hblocked : s.Blocked i) (hs : step n s a = some s') :
    s'.Blocked i := by
  obtain ⟨c, hpc, hkept⟩ := hblocked
  have hframe := frame_step hs
  refine ⟨c, ?_, hframe.kept hkept⟩
  have ha : a.ofWorker ≠ some i := by
    intro ha
    replace hs := (step_eq_some hs).2
    cases a with
    | stop | listener | accepts | acceptFails | dies => cases ha
    | worker | receives | refuses | heads | responds =>
      cases ha
      simp [State.move, State.stepWorker, hpc, hkept] at hs
  rw [hframe.worker i ha, hpc]

/-- A worker behind a request that was refused stays there, and `stop` does
not return any more. -/
theorem stop_hangs (h : Reaches n s) (hn : 0 < n) (hblocked : s.Blocked i) {as : List Action}
    (hr : Run n s as s') : s'.Blocked i ∧ s'.stopper ≠ .returned := by
  obtain ⟨hinv, hblocked'⟩ := hr.keeps (I := fun s => Inv n s ∧ s.Blocked i)
    (fun _ _ _ h hs => ⟨h.1.step hn hs, blocked_step h.2 hs⟩) ⟨h.inv hn, hblocked⟩
  refine ⟨hblocked', fun hpc => ?_⟩
  obtain ⟨c, hprocessing, -⟩ := hblocked'
  rw [hinv.stopping.waited i (by rw [hpc]; trivial)] at hprocessing
  cases hprocessing

/-- A client that asks for a missing key, and asks again. -/
example : ∃ s, Run 1 (started 1) (serveOne ++ [.receives 0 true, .refuses 0, .heads 0,
    .responds 0 true, .receives 0 true]) s ∧ s.Blocked 0 :=
  ⟨_, .cons rfl <| .cons rfl <| .cons rfl <| .cons rfl <| .cons rfl <| .cons rfl <|
    .cons rfl <| .cons rfl <| .cons rfl <| .cons rfl <| .cons rfl <| .cons rfl <| .cons rfl <|
    .cons rfl <| .cons rfl <| .cons rfl <| .cons rfl <| .cons rfl <| .cons rfl <| .nil _,
    0, rfl, rfl⟩

end SystemsProjects.Net.ServerThreads
