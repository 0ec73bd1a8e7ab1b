/-
SystemsProjects.Base.MutexOrder — calls that share one mutex take effect
one after the other.

The order is the one in which the calls take the mutex. A call that
returns without releasing it leaves the contents as its accesses made
them, and no call after it takes the mutex: what has happened so far is
still explained by the order. So nothing is asked of the calls but that
they take the mutex first (`Prog.UsesMutex`).

`mutex_linearizable`: every state some interleaving reaches is explained
by an order of calls, of which all but the last released the mutex.

Nothing here names the programs of this repository.
-/
import SystemsProjects.Base.Mutex
import SystemsProjects.Base.TwoPhase

namespace SystemsProjects.Base

variable {S : CellSpec} {Cid ρ : Type}

/-! ## Calls one after the other -/

section

variable {Loc : Type} [DecidableEq Loc] {prog : Cid → Prog S Loc ρ} {M₀ : Loc → S.Val}
  {order : List Cid} {i : Cid}

/-- A result is that of the call at its place. -/
theorem result_at_place {r : ρ} (h : (i, r) ∈ (run (seqStep prog) M₀ order).1) :
    ∃ before after, order = before ++ i :: after ∧
      r = ((prog i).eval (run (seqStep prog) M₀ before).2).1 := by
  induction order generalizing M₀ with
  | nil => cases h
  | cons j order ih =>
    rcases List.mem_cons.mp h with he | hrest
    · cases he
      exact ⟨[], order, rfl, rfl⟩
    · obtain ⟨before, after, rfl, hr⟩ := ih hrest
      exact ⟨j :: before, after, rfl, hr⟩

theorem mem_order_of_result {r : ρ} (h : (i, r) ∈ (run (seqStep prog) M₀ order).1) :
    i ∈ order := by
  obtain ⟨before, after, rfl, -⟩ := result_at_place h
  exact List.mem_append_right _ List.mem_cons_self

theorem result_append {r : ρ} (h : (i, r) ∈ (run (seqStep prog) M₀ order).1) (j : Cid) :
    (i, r) ∈ (run (seqStep prog) M₀ (order ++ [j])).1 := by
  rw [run_append_singleton]
  exact List.mem_append_left _ h

end

namespace Config

variable {prog : Cid → Prog S Unit ρ} {M₀ : Unit → S.Val} {c c' : Config S Unit Cid ρ}
  {order : List Cid}

/-! ## The mutex and its owner -/

/-- Call `i` releases the mutex at its place behind `before`. -/
def ReleasesAt (prog : Cid → Prog S Unit ρ) (M₀ : Unit → S.Val) (before : List Cid) (i : Cid) :
    Prop :=
  (prog i).releases ((run (seqStep prog) M₀ before).2 ()) = true

/-- Who has the mutex, and that what is left of its call leads to where
the order leads. -/
inductive Holder (prog : Cid → Prog S Unit ρ) (M₀ : Unit → S.Val) (c : Config S Unit Cid ρ)
    (order : List Cid) : Prop
  | free (hown : c.mem.owners () = []) (hval : c.mem.val = (run (seqStep prog) M₀ order).2)
      (hrel : ∀ before i, order = before ++ [i] → ReleasesAt prog M₀ before i)
  | inside {i : Cid} {p : Prog S Unit ρ} (hown : c.mem.owners () = [(i, .exclusive)])
      (hst : c.status i = .running p) (hbody : p.MutexBody)
      (hres : (i, (p.eval c.mem.val).1) ∈ (run (seqStep prog) M₀ order).1)
      (hval : (p.eval c.mem.val).2 = (run (seqStep prog) M₀ order).2)
      (hrel : p.releases (c.mem.val ()) = true →
        ∀ before i, order = before ++ [i] → ReleasesAt prog M₀ before i)
  | kept {i : Cid} {r : ρ} (hown : c.mem.owners () = [(i, .exclusive)])
      (hst : c.status i = .returned r) (hval : c.mem.val = (run (seqStep prog) M₀ order).2)

structure OrderInv (prog : Cid → Prog S Unit ρ) (M₀ : Unit → S.Val) (c : Config S Unit Cid ρ)
    (order : List Cid) : Prop where
  holder : Holder prog M₀ c order
  idle : ∀ i, c.status i = .idle → i ∉ order
  before : ∀ i p, c.status i = .running p → i ∉ order → p = prog i
  past : ∀ i p, c.status i = .running p → i ∈ order → (i, .exclusive) ∉ c.mem.owners () →
    ∃ r, p = .ret r ∧ (i, r) ∈ (run (seqStep prog) M₀ order).1
  returned : ∀ i r, c.status i = .returned r → (i, r) ∈ (run (seqStep prog) M₀ order).1
  nodup : order.Nodup
  realTime : ∀ i j, i ∈ c.seen j → i ∈ order ∧ (j ∈ order → [i, j].Sublist order)
  released : ∀ before i after, order = before ++ i :: after → after ≠ [] →
    ReleasesAt prog M₀ before i

theorem orderInv_initial (prog : Cid → Prog S Unit ρ) (M₀ : Unit → S.Val) :
    OrderInv prog M₀ (initial M₀) [] where
  holder := .free rfl rfl fun _ _ h => absurd h.symm (List.append_ne_nil_of_right_ne_nil _
    (List.cons_ne_nil _ _))
  idle := fun _ _ => List.not_mem_nil
  before := fun _ _ h => nomatch h
  past := fun _ _ h => nomatch h
  returned := fun _ _ h => nomatch h
  nodup := List.nodup_nil
  realTime := fun _ _ h => absurd h (Set.notMem_empty _)
  released := fun _ _ _ h => absurd h.symm (List.append_ne_nil_of_right_ne_nil _
    (List.cons_ne_nil _ _))

variable [DecidableEq Cid]

/-! ## Steps -/

theorem OrderInv.invoke (h : OrderInv prog M₀ c order) {i : Cid} (hi : c.status i = .idle) :
    OrderInv prog M₀
      { c with status := Function.update c.status i (.running (prog i)),
               seen := Function.update c.seen i {j | ∃ r, c.status j = .returned r} } order := by
  have hnew := h.idle i hi
  have hother : ∀ j, c.status j ≠ .idle → j ≠ i := fun j hj he => hj (he ▸ hi)
  refine ⟨?_, fun j hj => ?_, fun j p hj hmem => ?_, fun j p hj hmem hown => ?_,
    fun j r hj => ?_, h.nodup, fun j k hjk => ?_, h.released⟩
  · cases h.holder with
    | free hown hval hrel => exact .free hown hval hrel
    | inside hown hst hbody hres hval hrel =>
      refine .inside hown (Eq.trans ?_ hst) hbody hres hval hrel
      exact Function.update_of_ne (hother _ (by rw [hst]; exact fun he => nomatch he)) _ _
    | kept hown hst hval =>
      refine .kept hown (Eq.trans ?_ hst) hval
      exact Function.update_of_ne (hother _ (by rw [hst]; exact fun he => nomatch he)) _ _
  · by_cases hji : j = i
    · subst hji
      simp at hj
    · exact h.idle j (by simpa [hji] using hj)
  · by_cases hji : j = i
    · subst hji
      simpa using hj.symm
    · exact h.before j p (by simpa [hji] using hj) hmem
  · have hji : j ≠ i := fun he => hnew (he ▸ hmem)
    exact h.past j p (by simpa [hji] using hj) hmem hown
  · by_cases hji : j = i
    · subst hji
      simp at hj
    · exact h.returned j r (by simpa [hji] using hj)
  · by_cases hki : k = i
    · subst hki
      simp only [Function.update_self] at hjk
      obtain ⟨r, hr⟩ := hjk
      exact ⟨mem_order_of_result (h.returned j r hr), fun hk => absurd hk hnew⟩
    · exact h.realTime j k (by simpa [hki] using hjk)

/-- A call takes the mutex, and the next place in the order. -/
theorem OrderInv.acquire (h : OrderInv prog M₀ c order) {i : Cid} {k : Prog S Unit ρ}
    (hprog : prog i = .lock () .exclusive k) (hbody : k.MutexBody)
    (hi : c.status i = .running (prog i)) (hnew : i ∉ order) (hfree : c.mem.owners () = []) :
    OrderInv prog M₀
      { c with mem := c.mem.acquire i () .exclusive,
               status := Function.update c.status i (.running k) } (order ++ [i]) := by
  obtain ⟨hval, hlast⟩ : c.mem.val = (run (seqStep prog) M₀ order).2 ∧
      ∀ before i, order = before ++ [i] → ReleasesAt prog M₀ before i := by
    cases h.holder with
    | free _ hval hrel => exact ⟨hval, hrel⟩
    | inside hown _ _ _ _ _ =>
      rw [hown] at hfree
      cases hfree
    | kept hown _ _ =>
      rw [hown] at hfree
      cases hfree
  have heval : (prog i).eval c.mem.val = k.eval c.mem.val := by
    rw [hprog]
    rfl
  have hown : (c.mem.acquire i () .exclusive).owners () = [(i, .exclusive)] := by
    simp [Memory.acquire, hfree]
  refine ⟨?_, fun j hj hmem => ?_, fun j p hj hmem => ?_, fun j p hj hmem hnot => ?_,
    fun j r hj => ?_, ?_, fun j l hjl => ?_, fun before j after he hne => ?_⟩
  · refine .inside hown (Function.update_self _ _ _) hbody ?_ ?_ fun hrel before j he => ?_
    · rw [run_append_singleton, seqStep, ← hval, heval]
      exact List.mem_append_right _ List.mem_cons_self
    · rw [run_append_singleton, seqStep, ← hval, heval]
      rfl
    · obtain ⟨rfl, rfl⟩ := List.append_singleton_inj.mp he
      rw [ReleasesAt, ← hval, hprog]
      exact hrel
  · have hji : j ≠ i := by
      rintro rfl
      simp at hj
    rcases List.mem_append.mp hmem with hold | hlast
    · exact h.idle j (by simpa [hji] using hj) hold
    · exact hji (List.mem_singleton.mp hlast)
  · rw [List.mem_append, List.mem_singleton, not_or] at hmem
    exact h.before j p (by simpa [hmem.2] using hj) hmem.1
  · by_cases hji : j = i
    · subst hji
      rw [hown] at hnot
      exact absurd List.mem_cons_self hnot
    · have hold := (List.mem_append.mp hmem).resolve_right fun hlast =>
        hji (List.mem_singleton.mp hlast)
      obtain ⟨r, hp, hres⟩ := h.past j p (by simpa [hji] using hj) hold (by simp [hfree])
      exact ⟨r, hp, result_append hres i⟩
  · have hji : j ≠ i := by
      rintro rfl
      simp at hj
    exact result_append (h.returned j r (by simpa [hji] using hj)) i
  · exact List.nodup_append.mpr ⟨h.nodup, List.nodup_singleton i, fun a ha b hb => by
      rw [List.mem_singleton.mp hb]
      exact fun he => hnew (he ▸ ha)⟩
  · obtain ⟨hj, hsub⟩ := h.realTime j l hjl
    refine ⟨List.mem_append_left _ hj, fun hl => ?_⟩
    rcases List.mem_append.mp hl with hold | hlast
    · exact (hsub hold).trans (List.sublist_append_left _ _)
    · rw [List.mem_singleton.mp hlast]
      exact (List.singleton_sublist.mpr hj).append (List.Sublist.refl [i])
  · obtain ⟨rest, k', rfl⟩ := List.eq_nil_or_concat' after |>.resolve_left hne
    rw [← List.cons_append, ← List.append_assoc] at he
    obtain ⟨hplace, rfl⟩ := List.append_singleton_inj.mp he
    rcases eq_or_ne rest [] with rfl | hrest
    · exact hlast before j hplace
    · exact h.released before j rest hplace hrest

/-- The owner of the mutex moves on in its body. -/
theorem OrderInv.move (h : OrderInv prog M₀ c order) {i : Cid} {p' : Prog S Unit ρ}
    {s' : Memory S Unit Cid} (hi : i ∈ order)
    (hown : ∀ j, j ≠ i → (j, .exclusive) ∉ c.mem.owners ())
    (hholder : Holder prog M₀
      { c with mem := s', status := Function.update c.status i (.running p') } order)
    (hpast : (i, .exclusive) ∉ s'.owners () →
      ∃ r, p' = .ret r ∧ (i, r) ∈ (run (seqStep prog) M₀ order).1) :
    OrderInv prog M₀ { c with mem := s', status := Function.update c.status i (.running p') }
      order where
  holder := hholder
  idle := by
    intro j hj
    by_cases hji : j = i
    · subst hji
      simp at hj
    · exact h.idle j (by simpa [hji] using hj)
  before := by
    intro j p hj hmem
    have hji : j ≠ i := fun he => hmem (he ▸ hi)
    exact h.before j p (by simpa [hji] using hj) hmem
  past := by
    intro j p hj hmem hnot
    by_cases hji : j = i
    · subst hji
      simp only [Function.update_self, Status.running.injEq] at hj
      subst hj
      exact hpast hnot
    · exact h.past j p (by simpa [hji] using hj) hmem (hown j hji)
  returned := by
    intro j r hj
    have hji : j ≠ i := by
      rintro rfl
      simp at hj
    exact h.returned j r (by simpa [hji] using hj)
  nodup := h.nodup
  realTime := h.realTime
  released := h.released

theorem OrderInv.run (h : OrderInv prog M₀ c order) (huses : ∀ i, (prog i).UsesMutex) {i : Cid}
    {p p' : Prog S Unit ρ} {s' : Memory S Unit Cid} (hi : c.status i = .running p)
    (hstep : p.step i c.mem = some (p', s')) :
    ∃ order', OrderInv prog M₀
      { c with mem := s', status := Function.update c.status i (.running p') } order' := by
  by_cases hmem : i ∈ order
  · refine ⟨order, ?_⟩
    by_cases hnot : (i, .exclusive) ∉ c.mem.owners ()
    · obtain ⟨r, rfl, -⟩ := h.past i p hi hmem hnot
      cases hstep
    · rw [not_not] at hnot
      cases h.holder with
      | free hown _ _ =>
        rw [hown] at hnot
        cases hnot
      | kept hown hst _ =>
        rw [hown] at hnot
        obtain rfl := congrArg Prod.fst (List.mem_singleton.mp hnot)
        rw [hst] at hi
        cases hi
      | inside hown hst hbody hres hval hrel =>
        rw [hown] at hnot
        obtain rfl := congrArg Prod.fst (List.mem_singleton.mp hnot)
        have halone : ∀ j, j ≠ i → (j, LockMode.exclusive) ∉ c.mem.owners () := by
          intro j hji hj
          rw [hown] at hj
          exact hji (congrArg Prod.fst (List.mem_singleton.mp hj))
        rw [hi] at hst
        cases hst
        obtain ⟨l, m, rfl, -⟩ | ⟨l, m, rfl, rfl⟩ | ⟨l, a, k, rfl, rfl, rfl⟩ :=
          Prog.step_cases hstep
        · exact absurd hbody id
        · obtain ⟨rfl, r, rfl⟩ := hbody
          have hfree : (c.mem.release i () .exclusive).owners () = [] := by
            simp [Memory.release, hown]
          exact h.move hmem halone (.free hfree hval (hrel rfl)) fun _ => ⟨r, rfl, hres⟩
        · rw [Prog.eval_act] at hres hval
          refine h.move hmem halone
            (.inside hown (Function.update_self _ _ _) (hbody _) hres hval fun hr => hrel ?_)
            fun hlost => ?_
          · rw [Memory.write_val, Function.update_self] at hr
            exact hr
          · exact absurd (by rw [Memory.write, hown]; exact List.mem_cons_self) hlost
  · obtain rfl := h.before i p hi hmem
    obtain ⟨k, hprog, hbody⟩ := huses i
    rw [hprog] at hstep
    obtain ⟨l, m, he, hgrants, rfl⟩ | ⟨l, m, he, -⟩ | ⟨l, a, k', he, -⟩ :=
      Prog.step_cases hstep
    · cases he
      exact ⟨_, h.acquire hprog hbody hi hmem hgrants⟩
    · cases he
    · cases he

theorem OrderInv.return (h : OrderInv prog M₀ c order) (huses : ∀ i, (prog i).UsesMutex)
    {i : Cid} {r : ρ} (hi : c.status i = .running (.ret r)) :
    OrderInv prog M₀ { c with status := Function.update c.status i (.returned r) } order := by
  have hmem : i ∈ order := by
    by_contra hnew
    obtain ⟨k, hprog, -⟩ := huses i
    have hret := h.before i _ hi hnew
    rw [hprog] at hret
    cases hret
  have hparts : Holder prog M₀ { c with status := Function.update c.status i (.returned r) } order ∧
      (i, r) ∈ (Base.run (seqStep prog) M₀ order).1 := by
    by_cases howns : (i, .exclusive) ∈ c.mem.owners ()
    · cases h.holder with
      | free hown _ _ =>
        rw [hown] at howns
        cases howns
      | kept hown hst _ =>
        rw [hown] at howns
        obtain rfl := congrArg Prod.fst (List.mem_singleton.mp howns)
        rw [hst] at hi
        cases hi
      | inside hown hst _ hres hval _ =>
        rw [hown] at howns
        obtain rfl := congrArg Prod.fst (List.mem_singleton.mp howns)
        rw [hi] at hst
        cases hst
        exact ⟨.kept hown (Function.update_self _ _ _) hval, hres⟩
    · obtain ⟨r', he, hres⟩ := h.past i _ hi hmem howns
      cases he
      refine ⟨?_, hres⟩
      cases h.holder with
      | free hown hval hrel => exact .free hown hval hrel
      | inside hown hst hbody hres hval hrel =>
        rename_i j p
        have hji : j ≠ i := by
          rintro rfl
          rw [hown] at howns
          exact howns List.mem_cons_self
        exact .inside hown ((Function.update_of_ne hji _ _).trans hst) hbody hres hval hrel
      | kept hown hst hval =>
        rename_i j r'
        have hji : j ≠ i := by
          rintro rfl
          rw [hown] at howns
          exact howns List.mem_cons_self
        exact .kept hown ((Function.update_of_ne hji _ _).trans hst) hval
  refine ⟨hparts.1, fun j hj => ?_, fun j p hj hnew => ?_, fun j p hj hj' hnot => ?_,
    fun j r' hj => ?_, h.nodup, h.realTime, h.released⟩
  · by_cases hji : j = i
    · subst hji
      simp at hj
    · exact h.idle j (by simpa [hji] using hj)
  · by_cases hji : j = i
    · subst hji
      simp at hj
    · exact h.before j p (by simpa [hji] using hj) hnew
  · by_cases hji : j = i
    · subst hji
      simp at hj
    · exact h.past j p (by simpa [hji] using hj) hj' hnot
  · by_cases hji : j = i
    · subst hji
      simp only [Function.update_self, Status.returned.injEq] at hj
      rw [← hj]
      exact hparts.2
    · exact h.returned j r' (by simpa [hji] using hj)

/-! ## Linearizability -/

theorem OrderInv.step (huses : ∀ i, (prog i).UsesMutex) (h : ∃ order, OrderInv prog M₀ c order)
    (hstep : Step prog c c') : ∃ order, OrderInv prog M₀ c' order := by
  obtain ⟨order, h⟩ := h
  cases hstep with
  | invoke i hi => exact ⟨order, h.invoke hi⟩
  | run i hi hstep => exact h.run huses hi hstep
  | «return» i hi => exact ⟨order, h.return huses hi⟩

omit [DecidableEq Cid] in
theorem OrderInv.explains (h : OrderInv prog M₀ c order) : Explains prog M₀ c order where
  nodup := h.nodup
  made := fun i hi he => h.idle i he hi
  results := h.returned
  realTime := fun i j hij hj => (h.realTime i j hij).2 hj
  final := by
    intro hquiet
    cases h.holder with
    | free _ hval _ => exact hval.symm
    | inside _ hst _ _ _ _ => exact absurd hst (hquiet _ _)
    | kept _ _ hval => exact hval.symm

/-- **Calls that share one mutex are linearizable**, and only the last of
the order can have kept the mutex. -/
theorem mutex_linearizable (huses : ∀ i, (prog i).UsesMutex) (hreach : Reachable prog M₀ c) :
    ∃ order, Explains prog M₀ c order ∧ ∀ before i after, order = before ++ i :: after →
      after ≠ [] → ReleasesAt prog M₀ before i := by
  obtain ⟨order, h⟩ := hreach.invariant ⟨[], orderInv_initial prog M₀⟩
    fun _ _ hinv hstep => OrderInv.step huses hinv hstep
  exact ⟨order, h.explains, h.released⟩

end Config

end SystemsProjects.Base
