/-
SystemsProjects.Net.ServerSteps — the steps of the threads of a KvServer
that is being stopped keep the invariant.

One part per thread: the workers, the listener, `stop`. Each first says
which of its steps move inside or outside of the section of a mutex, then
goes through its function. `Reaches.inv` is the invariant in every state
that some interleaving reaches.
-/
import SystemsProjects.Net.ServerThreads

namespace SystemsProjects.Net.ServerThreads

open SystemsProjects.Base

variable {n i : Nat} {s s' : State}

/-! ## What a step has done -/

theorem lock_eq_some {t : Thread} (h : s.lock i t = some s') :
    s.owner i = none ∧ s' = { s with owner := Function.update s.owner i (some t) } := by
  unfold State.lock at h
  split at h
  · cases h
    exact ⟨by assumption, rfl⟩
  · cases h

theorem step_eq_some {a : Action} (hs : step n s a = some s') :
    s.killed = false ∧ s.move n a = some s' := by
  unfold step at hs
  split at hs
  · cases hs
  · exact ⟨Bool.eq_false_iff.mpr (by assumption), hs⟩

theorem accepts_eq_some (hs : s.move n .accepts = some s') :
    (s.listener = .accepting ∧ s.listenerShut = false) ∧
      s' = { s with accepted := s.accepted + 1 }.goListener (.locking s.accepted) := by
  simp only [State.move] at hs
  split at hs <;> cases hs
  exact ⟨by assumption, rfl⟩

theorem acceptFails_eq_some (hs : s.move n .acceptFails = some s') :
    s.listener = .accepting ∧ s' = s.goListener .done := by
  simp only [State.move] at hs
  split at hs <;> cases hs
  exact ⟨by assumption, rfl⟩

theorem receives_eq_some {request : Bool} (hs : s.move n (.receives i request) = some s') :
    ∃ c, s.worker i = .receiving c ∧
      s' = s.goWorker i (if request then .processing c else .closing c) := by
  simp only [State.move] at hs
  split at hs <;> cases hs
  exact ⟨_, by assumption, rfl⟩

theorem refuses_eq_some (hs : s.move n (.refuses i) = some s') :
    ∃ c, s.worker i = .processing c ∧
      s' = { s with storeKept := true }.goWorker i (.responding c) := by
  simp only [State.move] at hs
  split at hs
  · split at hs <;> cases hs
    exact ⟨_, by assumption, rfl⟩
  · cases hs

theorem heads_eq_some (hs : s.move n (.heads i) = some s') :
    ∃ c, s.worker i = .responding c ∧ s.shut c = false ∧ s' = s.goWorker i (.payload c) := by
  simp only [State.move] at hs
  split at hs
  · split at hs <;> cases hs
    exact ⟨_, by assumption, Bool.eq_false_iff.mpr (by assumption), rfl⟩
  · cases hs

theorem responds_eq_some {sent : Bool} (hs : s.move n (.responds i sent) = some s') :
    ∃ c, (s.worker i = .responding c ∨ s.worker i = .payload c) ∧
      s' = s.goWorker i (if sent then .receiving c else .closing c) := by
  simp only [State.move] at hs
  split at hs
  · cases hs
    exact ⟨_, .inl (by assumption), rfl⟩
  · cases hs
    exact ⟨_, .inr (by assumption), rfl⟩
  · cases hs

theorem dies_eq_some {t : Thread} (hs : s.move n (.dies t) = some s') :
    s.MayDie t = true ∧ s' = { s with killed := true } := by
  simp only [State.move] at hs
  split at hs <;> cases hs
  exact ⟨by assumption, rfl⟩

/-! ## The mutexes -/

namespace Inv

/-- A step that takes and gives back no mutex. -/
theorem owner_keep (h : Inv n s) (s' : State) (hown : s'.owner = s.owner)
    (hholds : ∀ j t, s'.Holds j t ↔ s.Holds j t) (j : Nat) :
    Guarded (s'.Holds j) (s'.owner j) := by
  rw [hown]
  exact (h.owner j).keep (hholds j)

theorem owner_acquire (h : Inv n s) (s' : State) (hfree : s.owner i = none) {t : Thread}
    (hown : s'.owner = Function.update s.owner i (some t))
    (hin : ∀ t', s'.Holds i t' ↔ t' = t ∨ s.Holds i t')
    (hout : ∀ j, j ≠ i → ∀ t', s'.Holds j t' ↔ s.Holds j t') (j : Nat) :
    Guarded (s'.Holds j) (s'.owner j) := by
  rw [hown]
  by_cases hj : j = i
  · subst hj
    rw [Function.update_self]
    exact (hfree ▸ h.owner j).acquire hin
  · rw [Function.update_of_ne hj]
    exact (h.owner j).keep (hout j hj)

theorem owner_release (h : Inv n s) (s' : State) {t : Thread} (ht : s.Holds i t)
    (hown : s'.owner = Function.update s.owner i none)
    (hin : ∀ t', s'.Holds i t' ↔ s.Holds i t' ∧ t' ≠ t)
    (hout : ∀ j, j ≠ i → ∀ t', s'.Holds j t' ↔ s.Holds j t') (j : Nat) :
    Guarded (s'.Holds j) (s'.owner j) := by
  rw [hown]
  by_cases hj : j = i
  · subst hj
    rw [Function.update_self]
    exact (h.owner j).release ht hin
  · rw [Function.update_of_ne hj]
    exact (h.owner j).keep (hout j hj)

end Inv

/-! ## Steps of the workers -/

/-- The sections of the other threads. -/
theorem holds_worker {pc : WorkerPc} {owner : Nat → Option Thread} {queues : Nat → List Nat}
    {closed : Nat → Bool} {j : Nat} {t : Thread} (ht : t ≠ .worker i) :
    State.Holds ⟨s.is_stopped, s.listenerShut, owner, queues, s.shut, closed, s.accepted,
      s.next_worker, s.stopper, s.listener, Function.update s.worker i pc, s.storeKept,
      s.killed⟩ j t ↔ s.Holds j t := by
  cases t with
  | stop => exact Iff.rfl
  | listener => exact Iff.rfl
  | worker k =>
    have hk : k ≠ i := fun he => ht (congrArg _ he)
    simp only [State.Holds, Function.update_of_ne hk]

theorem holds_worker_self {pc : WorkerPc} {j : Nat} :
    State.Holds { s with worker := Function.update s.worker i pc } j (.worker i) ↔
      i = j ∧ pc.Inside := by
  simp only [State.Holds, Function.update_self]

namespace Inv

/-- The store and the end of the process leave the threads where they
are. -/
theorem withFlags (h : Inv n s) (kept killed : Bool) :
    Inv n { s with storeKept := kept, killed := killed } :=
  ⟨h.owner,
    ⟨h.placed.place, h.placed.queued, h.placed.served, h.placed.last, h.placed.turn,
      h.placed.pending, h.placed.sorted, h.placed.order⟩,
    ⟨h.stopping.stopped, h.stopping.listenerShut, h.stopping.joined, h.stopping.swept,
      h.stopping.closing, h.stopping.waited, h.stopping.outside⟩⟩

theorem goWorker (h : Inv n s) (pc : WorkerPc) (hfrom : s.worker i ≠ .done)
    (hclient : pc.client = (s.worker i).client) (hinside : pc.Inside ↔ (s.worker i).Inside) :
    Inv n (s.goWorker i pc) where
  owner := h.owner_keep (s.goWorker i pc) rfl fun j t => by
    by_cases ht : t = .worker i
    · subst ht
      exact holds_worker_self.trans (and_congr_right fun _ => hinside)
    · exact holds_worker ht
  placed := h.placed.worker hclient
  stopping := h.stopping.worker hfrom (fun _ _ hc => hc) fun _ _ _ => rfl

theorem lockWorker (h : Inv n s) (hpc : s.worker i = .locking) (hfree : s.owner i = none) :
    Inv n ({ s with owner := Function.update s.owner i (some (.worker i)) }.goWorker i .popping)
    where
  owner := by
    refine h.owner_acquire _ hfree rfl (fun t => ?_) fun j hj t => ?_
    · by_cases ht : t = .worker i
      · subst ht
        exact holds_worker_self.trans (iff_of_true ⟨rfl, trivial⟩ (.inl rfl))
      · exact (holds_worker ht).trans (or_iff_right ht).symm
    · by_cases ht : t = .worker i
      · subst ht
        exact holds_worker_self.trans (iff_of_false (fun he => hj he.1.symm) fun he => hj he.1.symm)
      · exact holds_worker ht
  placed := h.placed.worker (by rw [hpc]; rfl)
  stopping := h.stopping.worker (by rw [hpc]; exact fun he => nomatch he) (fun _ _ hc => hc)
    fun _ _ _ => rfl

theorem unlockWorker (h : Inv n s) {client : Option Nat} (hpc : s.worker i = .unlocking client)
    (pc : WorkerPc) (hclient : pc.client = client) (hinside : ¬ pc.Inside) :
    Inv n ((s.unlock i).goWorker i pc) where
  owner := by
    have hin : s.Holds i (.worker i) := ⟨rfl, by rw [hpc]; trivial⟩
    refine h.owner_release _ hin rfl (fun t => ?_) fun j hj t => ?_
    · by_cases ht : t = .worker i
      · subst ht
        exact holds_worker_self.trans
          (iff_of_false (fun he => hinside he.2) fun he => he.2 rfl)
      · exact (holds_worker ht).trans (and_iff_left ht).symm
    · by_cases ht : t = .worker i
      · subst ht
        exact holds_worker_self.trans (iff_of_false (fun he => hj he.1.symm) fun he => hj he.1.symm)
      · exact holds_worker ht
  placed := h.placed.worker (by rw [hpc]; exact hclient)
  stopping := h.stopping.worker (by rw [hpc]; exact fun he => nomatch he) (fun _ _ hc => hc)
    fun _ _ _ => rfl

theorem popWorker (h : Inv n s) {client : Nat} {rest : List Nat} (hpc : s.worker i = .popping)
    (hqueue : s.conn_queues i = client :: rest) :
    Inv n ((s.setQueue i rest).goWorker i (.unlocking (some client))) where
  owner := h.owner_keep _ rfl fun j t => by
    by_cases ht : t = .worker i
    · subst ht
      exact holds_worker_self.trans
        (and_congr_right fun _ => iff_of_true trivial (by rw [hpc]; trivial))
    · exact holds_worker ht
  placed := h.placed.pop hpc hqueue
  stopping := by
    refine h.stopping.worker (by rw [hpc]; exact fun he => nomatch he) ?_ fun j tail hstop => ?_
    · refine forall_update (fun j q => ∀ c ∈ q, c ∈ s.conn_queues j) (fun c hc => ?_)
        fun _ _ hc => hc
      rw [hqueue]
      exact List.mem_cons_of_mem _ hc
    · have hne : j ≠ i := by
        rintro rfl
        have hin : s.Holds j (.worker j) := ⟨rfl, by rw [hpc]; trivial⟩
        cases (h.owner j).unique .stop (.worker j) ⟨tail, hstop⟩ hin
      exact Function.update_of_ne hne _ _

theorem closeWorker (h : Inv n s) {client : Nat} (hpc : s.worker i = .closing client) :
    Inv n ((s.close client).goWorker i .loop) where
  owner := h.owner_keep _ rfl fun j t => by
    by_cases ht : t = .worker i
    · subst ht
      exact holds_worker_self.trans (and_congr_right fun _ => by rw [hpc]; exact Iff.rfl)
    · exact holds_worker ht
  placed := h.placed.close hpc
  stopping := h.stopping.worker (by rw [hpc]; exact fun he => nomatch he) (fun _ _ hc => hc)
    fun _ _ _ => rfl

theorem stepWorker (h : Inv n s) (hs : s.stepWorker i = some s') : Inv n s' := by
  unfold State.stepWorker at hs
  split at hs
  · rename_i hpc
    cases hs
    refine h.goWorker _ (by rw [hpc]; exact fun he => nomatch he) ?_ ?_ <;>
      rw [hpc] <;> split <;> rfl
  · rename_i hpc
    obtain ⟨s₁, hlock, rfl⟩ := Option.map_eq_some_iff.mp hs
    obtain ⟨hfree, rfl⟩ := lock_eq_some hlock
    exact h.lockWorker hpc hfree
  · rename_i hpc
    split at hs
    · cases hs
      exact h.goWorker _ (by rw [hpc]; exact fun he => nomatch he) (by rw [hpc]; rfl)
        (by rw [hpc]; exact Iff.rfl)
    · rename_i client rest hqueue
      cases hs
      exact h.popWorker hpc hqueue
  · rename_i hpc
    cases hs
    exact h.unlockWorker hpc _ rfl id
  · rename_i client hpc
    cases hs
    exact h.unlockWorker hpc _ rfl id
  · rename_i hpc
    cases hs
    exact h.goWorker _ (by rw [hpc]; exact fun he => nomatch he) (by rw [hpc]; rfl)
      (by rw [hpc]; exact Iff.rfl)
  · rename_i client hpc
    split at hs <;> cases hs
    exact h.goWorker _ (by rw [hpc]; exact fun he => nomatch he) (by rw [hpc]; rfl)
      (by rw [hpc]; exact Iff.rfl)
  · rename_i client hpc
    split at hs <;> cases hs
    exact h.goWorker _ (by rw [hpc]; exact fun he => nomatch he) (by rw [hpc]; rfl)
      (by rw [hpc]; exact Iff.rfl)
  · rename_i client hpc
    split at hs <;> cases hs
    exact h.goWorker _ (by rw [hpc]; exact fun he => nomatch he) (by rw [hpc]; rfl)
      (by rw [hpc]; exact Iff.rfl)
  · split at hs <;> cases hs
    exact h.withFlags _ _
  · rename_i client hpc
    cases hs
    exact h.closeWorker hpc
  · cases hs

end Inv

/-! ## Steps of the listener -/

theorem holds_listener {owner : Nat → Option Thread} {queues : Nat → List Nat}
    {accepted next_worker : Nat} {pc : ListenerPc} {j : Nat} {t : Thread} (ht : t ≠ .listener) :
    State.Holds ⟨s.is_stopped, s.listenerShut, owner, queues, s.shut, s.closed, accepted,
      next_worker, s.stopper, pc, s.worker, s.storeKept, s.killed⟩ j t ↔ s.Holds j t := by
  cases t with
  | stop => exact Iff.rfl
  | listener => exact absurd rfl ht
  | worker k => exact Iff.rfl

namespace Inv

theorem next_worker_lt (h : Inv n s) (hn : 0 < n) : s.next_worker < n := by
  rw [h.placed.turn]
  exact Nat.mod_lt _ hn

theorem goListener (h : Inv n s) (pc : ListenerPc) (hfrom : s.listener ≠ .done)
    (hclient : pc.client = s.listener.client) (hpending : pc.pending = s.listener.pending)
    (hinside : pc.Inside ↔ s.listener.Inside) : Inv n (s.goListener pc) where
  owner := h.owner_keep (s.goListener pc) rfl fun j t => by
    by_cases ht : t = .listener
    · subst ht
      exact and_congr_left fun _ => hinside
    · exact holds_listener ht
  placed := h.placed.listener hclient hpending
  stopping := h.stopping.listener hfrom fun i hi => (h.stopping.outside i hi).2

theorem accept (h : Inv n s) (hpc : s.listener = .accepting) :
    Inv n ({ s with accepted := s.accepted + 1 }.goListener (.locking s.accepted)) where
  owner := h.owner_keep _ rfl fun j t => by
    by_cases ht : t = .listener
    · subst ht
      exact and_congr_left fun _ => by rw [hpc]; exact Iff.rfl
    · exact holds_listener ht
  placed := h.placed.accept hpc
  stopping := h.stopping.listener (by rw [hpc]; exact fun he => nomatch he)
    fun i hi => (h.stopping.outside i hi).2

theorem lockListener (h : Inv n s) {client : Nat} (hpc : s.listener = .locking client)
    (hfree : s.owner s.next_worker = none) :
    Inv n ({ s with owner := Function.update s.owner s.next_worker (some .listener) }.goListener
      (.pushing client)) where
  owner := by
    refine h.owner_acquire _ hfree rfl (fun t => ?_) fun j hj t => ?_
    · by_cases ht : t = .listener
      · subst ht
        exact iff_of_true ⟨trivial, rfl⟩ (.inl rfl)
      · exact (holds_listener ht).trans (or_iff_right ht).symm
    · by_cases ht : t = .listener
      · subst ht
        exact iff_of_false (fun he => hj he.2.symm) fun he => hj he.2.symm
      · exact holds_listener ht
  placed := h.placed.listener (by rw [hpc]; rfl) (by rw [hpc]; rfl)
  stopping := h.stopping.listener (by rw [hpc]; exact fun he => nomatch he)
    fun i hi => (h.stopping.outside i hi).2

theorem push (h : Inv n s) (hn : 0 < n) {client : Nat} (hpc : s.listener = .pushing client) :
    Inv n ((s.setQueue s.next_worker (s.conn_queues s.next_worker ++ [client])).goListener
      .unlocking) where
  owner := h.owner_keep _ rfl fun j t => by
    by_cases ht : t = .listener
    · subst ht
      exact and_congr_left fun _ => by rw [hpc]; exact Iff.rfl
    · exact holds_listener ht
  placed := h.placed.push hpc
  stopping := by
    refine h.stopping.listener (by rw [hpc]; exact fun he => nomatch he) fun i hi => ?_
    have hne : i ≠ s.next_worker := fun he => absurd (h.next_worker_lt hn) (by omega)
    exact (Function.update_of_ne hne _ _).trans (h.stopping.outside i hi).2

theorem pass (h : Inv n s) (hpc : s.listener = .unlocking) :
    Inv n (({ s with next_worker := (s.next_worker + 1) % n }.unlock s.next_worker).goListener
      .loop) where
  owner := by
    have hin : s.Holds s.next_worker .listener := ⟨by rw [hpc]; trivial, rfl⟩
    refine h.owner_release _ hin rfl (fun t => ?_) fun j hj t => ?_
    · by_cases ht : t = .listener
      · subst ht
        exact iff_of_false (fun he => he.1) fun he => he.2 rfl
      · exact (holds_listener (s := s) ht).trans (and_iff_left ht).symm
    · by_cases ht : t = .listener
      · subst ht
        exact iff_of_false (fun he => he.1) fun he => hj he.2.symm
      · exact holds_listener (s := s) ht
  placed := h.placed.pass hpc
  stopping := h.stopping.listener (by rw [hpc]; exact fun he => nomatch he)
    fun i hi => (h.stopping.outside i hi).2

theorem stepListener (h : Inv n s) (hn : 0 < n) (hs : s.stepListener n = some s') : Inv n s' := by
  unfold State.stepListener at hs
  split at hs
  · rename_i hpc
    cases hs
    refine h.goListener _ (by rw [hpc]; exact fun he => nomatch he) ?_ ?_ ?_ <;>
      rw [hpc] <;> split <;> rfl
  · rename_i hpc
    split at hs <;> cases hs
    exact h.goListener _ (by rw [hpc]; exact fun he => nomatch he) (by rw [hpc]; rfl)
      (by rw [hpc]; rfl) (by rw [hpc]; exact Iff.rfl)
  · rename_i client hpc
    obtain ⟨s₁, hlock, rfl⟩ := Option.map_eq_some_iff.mp hs
    obtain ⟨hfree, rfl⟩ := lock_eq_some hlock
    exact h.lockListener hpc hfree
  · rename_i client hpc
    cases hs
    exact h.push hn hpc
  · rename_i hpc
    cases hs
    exact h.pass hpc
  · cases hs

end Inv

/-! ## Steps of `stop` -/

theorem holds_stop {stopped listenerShut : Bool} {owner : Nat → Option Thread} {shut : Nat → Bool}
    {pc : StopPc} {j : Nat} {t : Thread} (ht : t ≠ .stop) :
    State.Holds ⟨stopped, listenerShut, owner, s.conn_queues, shut, s.closed, s.accepted,
      s.next_worker, pc, s.listener, s.worker, s.storeKept, s.killed⟩ j t ↔ s.Holds j t := by
  cases t with
  | stop => exact absurd rfl ht
  | listener => exact Iff.rfl
  | worker k => exact Iff.rfl

theorem sweep_cases (n i : Nat) :
    StopPc.sweep n i = .locking i ∧ i < n ∨ StopPc.sweep n i = StopPc.join n 0 ∧ n ≤ i := by
  unfold StopPc.sweep
  split
  · exact .inl ⟨rfl, by assumption⟩
  · exact .inr ⟨rfl, by omega⟩

theorem join_cases (n i : Nat) :
    StopPc.join n i = .joinWorker i ∧ i < n ∨ StopPc.join n i = .returned ∧ n ≤ i := by
  unfold StopPc.join
  split
  · exact .inl ⟨rfl, by assumption⟩
  · exact .inr ⟨rfl, by omega⟩

theorem StopPc.Joined.ne {pc : StopPc} (h : pc.Joined) : pc ≠ .idle ∧ pc ≠ .shutListener := by
  cases pc <;> simp_all [StopPc.Joined]

/-- The loop over the workers is behind that over the queues. -/
theorem join_swept (n i j : Nat) :
    (StopPc.join n i).Joined ∧ (StopPc.join n i).Swept j := by
  rcases join_cases n i with ⟨he, -⟩ | ⟨he, -⟩ <;> rw [he] <;> exact ⟨trivial, trivial⟩

theorem join_waited {i j : Nat} : (StopPc.join n i).Waited j ↔ j < i ∨ n ≤ i := by
  rcases join_cases n i with ⟨he, hi⟩ | ⟨he, hi⟩
  · rw [he]
    exact (or_iff_left (by omega)).symm
  · rw [he]
    exact iff_of_true trivial (.inr hi)

theorem join_not_closing (n i j : Nat) (rest : List Nat) : StopPc.join n i ≠ .closing j rest := by
  rcases join_cases n i with ⟨he, -⟩ | ⟨he, -⟩ <;> rw [he] <;> exact fun he => nomatch he

theorem sweep_not_closing (n i j : Nat) (rest : List Nat) :
    StopPc.sweep n i ≠ .closing j rest := by
  rcases sweep_cases n i with ⟨he, -⟩ | ⟨he, -⟩
  · rw [he]
    exact fun he => nomatch he
  · rw [he]
    exact join_not_closing n 0 j rest

namespace Stopping

/-- `stop` gets to worker `i`. -/
theorem toJoin (h : Stopping n s) (i : Nat) {owner : Nat → Option Thread}
    (hstopped : s.is_stopped = true) (hshut : s.listenerShut = true) (hdone : s.listener = .done)
    (hswept : ∀ j, ∀ c ∈ s.conn_queues j, s.shut c = true)
    (hwaited : ∀ j < i, s.worker j = .done) :
    Stopping n { s with owner := owner, stopper := .join n i } := by
  obtain ⟨hidle, hlisten⟩ := (join_swept n i 0).1.ne
  refine ⟨iff_of_true hstopped hidle, iff_of_true hshut ⟨hidle, hlisten⟩, fun _ => hdone,
    fun j _ => hswept j, fun j rest he => absurd he (join_not_closing n i j rest), fun j hj => ?_,
    h.outside⟩
  rcases Nat.lt_or_ge j n with hlt | hge
  · rcases join_waited.mp hj with hj | hj
    · exact hwaited j hj
    · exact hwaited j (Nat.lt_of_lt_of_le hlt hj)
  · exact (h.outside j hge).1

/-- `stop` gets to queue `i`. -/
theorem toSweep (h : Stopping n s) (i : Nat) {owner : Nat → Option Thread}
    (hstopped : s.is_stopped = true) (hshut : s.listenerShut = true) (hdone : s.listener = .done)
    (hswept : ∀ j < i, ∀ c ∈ s.conn_queues j, s.shut c = true) :
    Stopping n { s with owner := owner, stopper := .sweep n i } := by
  rcases sweep_cases n i with ⟨he, hi⟩ | ⟨he, hi⟩
  · rw [he]
    exact ⟨iff_of_true hstopped (by simp), iff_of_true hshut (by simp), fun _ => hdone, hswept,
      by simp, fun j hj => hj.elim, h.outside⟩
  · rw [he]
    refine h.toJoin 0 hstopped hshut hdone (fun j => ?_) (fun j hj => absurd hj (Nat.not_lt_zero j))
    rcases Nat.lt_or_ge j n with hlt | hge
    · exact hswept j (Nat.lt_of_lt_of_le hlt hi)
    · rw [(h.outside j hge).2]
      exact fun c hc => nomatch hc

/-- Past its join `stop` has set what it sets first. -/
theorem of_joined (h : Stopping n s) (hj : s.stopper.Joined) :
    s.is_stopped = true ∧ s.listenerShut = true ∧ s.listener = .done :=
  ⟨h.stopped.mpr hj.ne.1, h.listenerShut.mpr hj.ne, h.joined hj⟩

end Stopping

namespace Inv

/-- `stop` goes on outside of the sections of the mutexes. -/
theorem goStop (h : Inv n s) {stopped listenerShut : Bool} {pc : StopPc}
    (hfrom : ∀ i rest, s.stopper ≠ .closing i rest) (hto : ∀ i rest, pc ≠ .closing i rest)
    (hstopping : Stopping n { s with is_stopped := stopped
                                     listenerShut := listenerShut
                                     stopper := pc }) :
    Inv n { s with is_stopped := stopped, listenerShut := listenerShut, stopper := pc } where
  owner := h.owner_keep _ rfl fun j t => by
    by_cases ht : t = .stop
    · subst ht
      exact iff_of_false (fun he => he.elim fun rest he => hto j rest he)
        fun he => he.elim fun rest he => hfrom j rest he
    · exact holds_stop ht
  placed := h.placed.stop
  stopping := hstopping

/-- Before its join `stop` has looked at no queue. -/
theorem goStopEarly (h : Inv n s) {stopped listenerShut : Bool} {pc : StopPc}
    (hfrom : ¬ s.stopper.Joined) (hto : ¬ pc.Joined) (hstopped : stopped = true ↔ pc ≠ .idle)
    (hlisten : listenerShut = true ↔ pc ≠ .idle ∧ pc ≠ .shutListener) :
    Inv n { s with is_stopped := stopped, listenerShut := listenerShut, stopper := pc } := by
  have hclosing : ∀ {pc : StopPc}, ¬ pc.Joined → ∀ i rest, pc ≠ .closing i rest := by
    rintro pc hnot i rest rfl
    exact hnot trivial
  refine h.goStop (hclosing hfrom) (hclosing hto) ⟨hstopped, hlisten, fun hj => absurd hj hto,
    fun i hi => absurd ?_ hto, fun i rest he => absurd he (hclosing hto i rest),
    fun i hi => absurd ?_ hto, h.stopping.outside⟩
  · revert hi
    cases pc <;> simp [StopPc.Swept, StopPc.Joined]
  · revert hi
    cases pc <;> simp [StopPc.Waited, StopPc.Joined]

theorem lockStop (h : Inv n s) (hpc : s.stopper = .locking i) (hfree : s.owner i = none) :
    Inv n ({ s with owner := Function.update s.owner i (some .stop) }.goStop
      (.closing i (s.conn_queues i))) where
  owner := by
    refine h.owner_acquire _ hfree rfl (fun t => ?_) fun j hj t => ?_
    · by_cases ht : t = .stop
      · subst ht
        exact iff_of_true ⟨_, rfl⟩ (.inl rfl)
      · exact (holds_stop ht).trans (or_iff_right ht).symm
    · by_cases ht : t = .stop
      · subst ht
        refine iff_of_false (fun he => ?_) fun he => ?_
        · obtain ⟨rest, he⟩ := he
          exact hj (StopPc.closing.inj he).1.symm
        · obtain ⟨rest, he⟩ := he
          rw [hpc] at he
          cases he
      · exact holds_stop ht
  placed := h.placed.stop
  stopping := by
    obtain ⟨hstopped, hlisten, hdone⟩ := h.stopping.of_joined (by rw [hpc]; trivial)
    refine ⟨iff_of_true hstopped (by simp [State.goStop]),
      iff_of_true hlisten (by simp [State.goStop]), fun _ => hdone, fun j hj => ?_,
      fun j rest he => ?_, fun j hj => hj.elim, h.stopping.outside⟩
    · exact h.stopping.swept j (by rw [hpc]; exact hj)
    · cases he
      exact ⟨fun c hc => .inr hc, fun c hc => hc⟩

theorem unlockStop (h : Inv n s) (hpc : s.stopper = .closing i []) :
    Inv n ((s.unlock i).goStop (.sweep n (i + 1))) where
  owner := by
    have hin : s.Holds i .stop := ⟨[], hpc⟩
    refine h.owner_release _ hin rfl (fun t => ?_) fun j hj t => ?_
    · by_cases ht : t = .stop
      · subst ht
        exact iff_of_false (fun he => he.elim fun rest he => sweep_not_closing n _ i rest he)
          fun he => he.2 rfl
      · exact (holds_stop ht).trans (and_iff_left ht).symm
    · by_cases ht : t = .stop
      · subst ht
        refine iff_of_false (fun he => he.elim fun rest he => sweep_not_closing n _ j rest he)
          fun he => ?_
        obtain ⟨rest, he⟩ := he
        rw [hpc] at he
        exact hj (StopPc.closing.inj he).1.symm
      · exact holds_stop ht
  placed := h.placed.stop
  stopping := by
    obtain ⟨hstopped, hlisten, hdone⟩ := h.stopping.of_joined (by rw [hpc]; trivial)
    refine h.stopping.toSweep (i + 1) hstopped hlisten hdone fun j hj c hc => ?_
    rcases Nat.lt_or_eq_of_le (Nat.le_of_lt_succ hj) with hlt | rfl
    · exact h.stopping.swept j (by rw [hpc]; exact hlt) c hc
    · exact ((h.stopping.closing j [] hpc).1 c hc).resolve_right List.not_mem_nil

theorem closeStop (h : Inv n s) {client : Nat} {rest : List Nat}
    (hpc : s.stopper = .closing i (client :: rest)) :
    Inv n ((s.shutdown client).goStop (.closing i rest)) where
  owner := h.owner_keep _ rfl fun j t => by
    by_cases ht : t = .stop
    · subst ht
      constructor
      · rintro ⟨_, he⟩
        cases he
        exact ⟨_, hpc⟩
      · rintro ⟨_, he⟩
        rw [hpc] at he
        cases he
        exact ⟨_, rfl⟩
    · exact holds_stop ht
  placed := h.placed.stop
  stopping := by
    obtain ⟨hstopped, hlisten, hdone⟩ := h.stopping.of_joined (by rw [hpc]; trivial)
    obtain ⟨hshut, hmem⟩ := h.stopping.closing i (client :: rest) hpc
    have hmono : ∀ c, s.shut c = true → (s.shutdown client).shut c = true :=
      forall_update (fun c b => s.shut c = true → b = true) (fun _ => rfl) fun _ hc => hc
    refine ⟨iff_of_true hstopped (by simp [State.goStop]),
      iff_of_true hlisten (by simp [State.goStop]), fun _ => hdone, fun j hj c hc => ?_,
      fun j rest' he => ?_, fun j hj => hj.elim, h.stopping.outside⟩
    · exact hmono c (h.stopping.swept j (by rw [hpc]; exact hj) c hc)
    · cases he
      refine ⟨fun c hc => ?_, fun c hc => hmem c (List.mem_cons_of_mem _ hc)⟩
      rcases hshut c hc with hc | hc
      · exact .inl (hmono c hc)
      · rcases List.mem_cons.mp hc with rfl | hc
        · exact .inl (Function.update_self _ _ _)
        · exact .inr hc

theorem stepStop (h : Inv n s) (hs : s.stepStop n = some s') : Inv n s' := by
  unfold State.stepStop at hs
  split at hs
  · rename_i hpc
    cases hs
    refine h.goStopEarly (by rw [hpc]; exact id) (fun hj => hj) (by simp) ?_
    rw [h.stopping.listenerShut, hpc]
    simp
  · rename_i hpc
    cases hs
    refine h.goStopEarly (by rw [hpc]; exact id) (fun hj => hj) ?_ (by simp)
    rw [h.stopping.stopped, hpc]
    simp
  · rename_i hpc
    split at hs
    · rename_i hdone
      cases hs
      have hstopped := h.stopping.stopped.mpr (by simp [hpc])
      have hlisten := h.stopping.listenerShut.mpr (by simp [hpc])
      exact h.goStop (by simp [hpc]) (fun j rest => sweep_not_closing n 0 j rest)
        (h.stopping.toSweep 0 hstopped hlisten hdone fun j hj => absurd hj (Nat.not_lt_zero j))
    · cases hs
  · rename_i j hpc
    obtain ⟨s₁, hlock, rfl⟩ := Option.map_eq_some_iff.mp hs
    obtain ⟨hfree, rfl⟩ := lock_eq_some hlock
    exact h.lockStop hpc hfree
  · rename_i j hpc
    cases hs
    exact h.unlockStop hpc
  · rename_i j client rest hpc
    cases hs
    exact h.closeStop hpc
  · rename_i j hpc
    split at hs
    · rename_i hworker
      cases hs
      obtain ⟨hstopped, hlisten, hdone⟩ := h.stopping.of_joined (by rw [hpc]; trivial)
      refine h.goStop (by simp [hpc]) (fun k rest => join_not_closing n _ k rest)
        (h.stopping.toJoin (j + 1) hstopped hlisten hdone
          (fun k => h.stopping.swept k (by rw [hpc]; trivial)) fun k hk => ?_)
      rcases Nat.lt_or_eq_of_le (Nat.le_of_lt_succ hk) with hlt | rfl
      · exact h.stopping.waited k (by rw [hpc]; exact hlt)
      · exact hworker
    · cases hs
  · cases hs

/-! ## Every reachable state -/

theorem step (h : Inv n s) (hn : 0 < n) {a : Action} (hs : step n s a = some s') : Inv n s' := by
  replace hs := (step_eq_some hs).2
  cases a with
  | stop => exact h.stepStop hs
  | listener => exact h.stepListener hn hs
  | worker i => exact h.stepWorker hs
  | accepts =>
    obtain ⟨hpc, rfl⟩ := accepts_eq_some hs
    exact h.accept hpc.1
  | acceptFails =>
    obtain ⟨hpc, rfl⟩ := acceptFails_eq_some hs
    exact h.goListener _ (by rw [hpc]; exact fun he => nomatch he) (by rw [hpc]; rfl)
      (by rw [hpc]; rfl) (by rw [hpc]; exact Iff.rfl)
  | receives i request =>
    obtain ⟨c, hpc, rfl⟩ := receives_eq_some hs
    refine h.goWorker _ (by rw [hpc]; exact fun he => nomatch he) ?_ ?_ <;>
      rw [hpc] <;> split <;> rfl
  | refuses i =>
    obtain ⟨c, hpc, rfl⟩ := refuses_eq_some hs
    exact (h.withFlags true s.killed).goWorker (.responding c)
      (show s.worker i ≠ .done by rw [hpc]; exact fun he => nomatch he)
      (show _ = (s.worker i).client by rw [hpc]; rfl)
      (show _ ↔ (s.worker i).Inside by rw [hpc]; exact Iff.rfl)
  | heads i =>
    obtain ⟨c, hpc, -, rfl⟩ := heads_eq_some hs
    exact h.goWorker _ (by rw [hpc]; exact fun he => nomatch he) (by rw [hpc]; rfl)
      (by rw [hpc]; exact Iff.rfl)
  | responds i sent =>
    obtain ⟨c, hpc | hpc, rfl⟩ := responds_eq_some hs
    · refine h.goWorker _ (by rw [hpc]; exact fun he => nomatch he) ?_ ?_ <;>
        rw [hpc] <;> split <;> rfl
    · refine h.goWorker _ (by rw [hpc]; exact fun he => nomatch he) ?_ ?_ <;>
        rw [hpc] <;> split <;> rfl
  | dies t =>
    obtain ⟨-, rfl⟩ := dies_eq_some hs
    exact h.withFlags _ _

theorem run (h : Inv n s) (hn : 0 < n) {as : List Action} (hr : Run n s as s') : Inv n s' :=
  hr.keeps (fun _ _ _ h hs => Inv.step h hn hs) h

end Inv

theorem Reaches.inv (h : Reaches n s) (hn : 0 < n) : Inv n s :=
  h.elim fun _ hr => (inv_started n).run hn hr

end SystemsProjects.Net.ServerThreads
