/-
SystemsProjects.Base.Mutex — calls that share one mutex, taken and
released by hand.

Such a call takes the mutex, accesses the one cell it guards, and then
either releases the mutex and returns or returns at once
(`Prog.UsesMutex`). Whether it releases depends on the cell contents it
finds (`Prog.releases`), and nothing else: while it holds the mutex no
other call steps on the cell.

`never_held_by_returned`: in a run where every call that takes the mutex
finds contents on which it will release it, no call that has returned
owns the mutex.

Nothing here names the programs of this repository.
-/
import SystemsProjects.Base.LockProgram

namespace SystemsProjects.Base

variable {S : CellSpec} {Cid ρ : Type}

namespace Prog

/-- What follows taking the mutex: accesses, perhaps the release, the
return. -/
def MutexBody : Prog S Unit ρ → Prop
  | .ret _ => True
  | .act _ _ k => ∀ r, (k r).MutexBody
  | .unlock _ m k => m = .exclusive ∧ ∃ r, k = .ret r
  | .lock _ _ _ => False

/-- Takes the mutex first. -/
def UsesMutex (p : Prog S Unit ρ) : Prop := ∃ k, p = .lock () .exclusive k ∧ k.MutexBody

/-- On contents `v` the call reaches a release before it returns. -/
def releases : Prog S Unit ρ → S.Val → Bool
  | .ret _, _ => false
  | .act _ a k, v => (k (S.sem a v).1).releases (S.sem a v).2
  | .unlock _ _ _, _ => true
  | .lock _ _ k, v => k.releases v

@[simp] theorem releases_ret (r : ρ) (v : S.Val) : (.ret r : Prog S Unit ρ).releases v = false :=
  rfl

@[simp] theorem releases_unlock (m : LockMode) (k : Prog S Unit ρ) (v : S.Val) :
    (Prog.unlock () m k).releases v = true := rfl

variable [DecidableEq Cid]

/-- Alone, a body that holds the mutex runs to its end, and frees the
mutex exactly when it releases it. -/
theorem MutexBody.exec_some {i : Cid} {p : Prog S Unit ρ} (h : p.MutexBody)
    {s : Memory S Unit Cid} (hown : s.owners () = [(i, .exclusive)]) :
    ∃ r s', p.exec i s = some (r, s') ∧ (s'.owners () = [] ↔ p.releases (s.val ()) = true) := by
  induction p generalizing s with
  | ret r => exact ⟨r, s, rfl, by simp [hown]⟩
  | lock l m k _ => exact absurd h id
  | unlock l m k _ =>
    obtain ⟨rfl, r, rfl⟩ := h
    exact ⟨r, s.release i l .exclusive, rfl, by simp [Memory.release, hown, releases]⟩
  | act l a k ih =>
    obtain ⟨r, s', hexec, hiff⟩ := ih _ (h _) (s := s.write l (S.sem a (s.val l)).2) hown
    refine ⟨r, s', hexec, hiff.trans ?_⟩
    rw [Memory.write_val, Function.update_self]
    rfl

/-- Alone, a call that finds the mutex free runs to its end, and leaves it
free exactly when it releases it. -/
theorem UsesMutex.exec_some {p : Prog S Unit ρ} (h : p.UsesMutex) (i : Cid) (v : S.Val) :
    ∃ r s', p.exec i ⟨fun _ => v, fun _ => []⟩ = some (r, s') ∧
      (s'.owners () = [] ↔ p.releases v = true) := by
  obtain ⟨k, rfl, hbody⟩ := h
  exact hbody.exec_some (s := Memory.acquire ⟨fun _ => v, fun _ => []⟩ i () .exclusive) rfl

end Prog

/-! ## Interleaved calls -/

namespace Config

variable [DecidableEq Cid]

/-- In this step call `i` takes the mutex. -/
def Takes (c c' : Config S Unit Cid ρ) (i : Cid) : Prop :=
  (i, LockMode.exclusive) ∉ c.mem.owners () ∧ (i, LockMode.exclusive) ∈ c'.mem.owners ()

/-- A step in which a call that takes the mutex finds contents that
satisfy `ok`. -/
def StepWhen (prog : Cid → Prog S Unit ρ) (ok : Cid → S.Val → Prop)
    (c c' : Config S Unit Cid ρ) : Prop :=
  Step prog c c' ∧ ∀ i, Takes c c' i → ok i (c.mem.val ())

/-- Where a call stands: before the mutex, with it, or past it. -/
inductive Stands (p₀ : Prog S Unit ρ) (i : Cid) (mem : Memory S Unit Cid) : Prog S Unit ρ → Prop
  | before (h : ∀ m, (i, m) ∉ mem.owners ()) : Stands p₀ i mem p₀
  | inside {p : Prog S Unit ρ} (hown : mem.owners () = [(i, .exclusive)]) (hbody : p.MutexBody)
      (hrel : p.releases (mem.val ()) = true) : Stands p₀ i mem p
  | past {r : ρ} (h : ∀ m, (i, m) ∉ mem.owners ()) : Stands p₀ i mem (.ret r)

structure MutexInv (prog : Cid → Prog S Unit ρ) (c : Config S Unit Cid ρ) : Prop where
  idle : ∀ i, c.status i = .idle → ∀ m, (i, m) ∉ c.mem.owners ()
  running : ∀ i p, c.status i = .running p → Stands (prog i) i c.mem p
  returned : ∀ i r, c.status i = .returned r → ∀ m, (i, m) ∉ c.mem.owners ()

variable {prog : Cid → Prog S Unit ρ} {c c' : Config S Unit Cid ρ}

omit [DecidableEq Cid] in
theorem mutexInv_initial (M : Unit → S.Val) : MutexInv prog (initial M) where
  idle := fun _ _ _ => List.not_mem_nil
  running := fun _ _ h => nomatch h
  returned := fun _ _ h => nomatch h

omit [DecidableEq Cid] in
/-- A call that cannot be inside stands where it stood, as long as it
does not own the mutex. -/
theorem Stands.outside {p₀ p : Prog S Unit ρ} {i : Cid} {mem mem' : Memory S Unit Cid}
    (h : Stands p₀ i mem p) (hne : mem.owners () ≠ [(i, .exclusive)])
    (h' : ∀ m, (i, m) ∉ mem'.owners ()) : Stands p₀ i mem' p := by
  cases h with
  | before _ => exact .before h'
  | inside hown _ _ => exact absurd hown hne
  | past _ => exact .past h'

/-- Call `i` moves on, from a memory only it may own to another. -/
theorem MutexInv.move (h : MutexInv prog c) {i : Cid} {p' : Prog S Unit ρ}
    {s' : Memory S Unit Cid} (hold : ∀ j m, (j, m) ∈ c.mem.owners () → j = i)
    (hnew : ∀ j m, (j, m) ∈ s'.owners () → j = i) (hp : Stands (prog i) i s' p')
    (hnotIdle : c.status i ≠ .idle) :
    MutexInv prog { c with mem := s', status := Function.update c.status i (.running p') } where
  idle := by
    intro j hj m hm
    have hji : j = i := hnew j m hm
    subst hji
    simp at hj
  running := by
    intro j p hj
    by_cases hji : j = i
    · subst hji
      simp only [Function.update_self, Status.running.injEq] at hj
      subst hj
      exact hp
    · simp only [Function.update_of_ne hji] at hj
      refine (h.running j p hj).outside (fun he => hji ?_) fun m hm => hji (hnew j m hm)
      exact hold j .exclusive (by rw [he]; exact List.mem_singleton_self _)
  returned := by
    intro j r hj m hm
    have hji : j = i := hnew j m hm
    subst hji
    simp at hj

theorem MutexInv.step (huses : ∀ i, (prog i).UsesMutex) {ok : Cid → S.Val → Prop}
    (hok : ∀ i v, ok i v → (prog i).releases v = true) (h : MutexInv prog c)
    (hstep : StepWhen prog ok c c') : MutexInv prog c' := by
  obtain ⟨hstep, hclean⟩ := hstep
  cases hstep with
  | invoke i hi =>
    refine ⟨fun j hj => ?_, fun j p hj => ?_, fun j r hj => ?_⟩
    · by_cases hji : j = i
      · subst hji; simp at hj
      · exact h.idle j (by simpa [hji] using hj)
    · by_cases hji : j = i
      · subst hji
        simp only [Function.update_self, Status.running.injEq] at hj
        subst hj
        exact .before (h.idle j hi)
      · exact h.running j p (by simpa [hji] using hj)
    · by_cases hji : j = i
      · subst hji; simp at hj
      · exact h.returned j r (by simpa [hji] using hj)
  | «return» i hi =>
    refine ⟨fun j hj => ?_, fun j p hj => ?_, fun j r' hj => ?_⟩
    · by_cases hji : j = i
      · subst hji; simp at hj
      · exact h.idle j (by simpa [hji] using hj)
    · by_cases hji : j = i
      · subst hji; simp at hj
      · exact h.running j p (by simpa [hji] using hj)
    · by_cases hji : j = i
      · subst hji
        have hstands := h.running j _ hi
        generalize hp : Prog.ret _ = p at hstands
        cases hstands with
        | before hnot => exact hnot
        | inside _ _ hrel => rw [← hp] at hrel; cases hrel
        | past hnot => exact hnot
      · exact h.returned j r' (by simpa [hji] using hj)
  | run i hi hs =>
    have hidle : c.status i ≠ .idle := by rw [hi]; simp
    cases h.running i _ hi with
    | before hnot =>
      obtain ⟨k, hk, hbody⟩ := huses i
      rw [hk] at hs
      obtain ⟨l, m, he, hgr, rfl⟩ | ⟨l, m, he, -⟩ | ⟨l, a, k', he, -⟩ := Prog.step_cases hs
      · cases he
        -- the grant rule: the mutex was free, and now only `i` owns it
        have hfree : c.mem.owners () = [] := hgr
        have hown : (c.mem.acquire i () .exclusive).owners () = [(i, .exclusive)] := by
          simp [Memory.acquire, hfree]
        have htakes := hclean i ⟨hnot .exclusive, by
          show _ ∈ (c.mem.acquire i () .exclusive).owners ()
          rw [hown]; exact List.mem_singleton_self _⟩
        have hrel := hok i _ htakes
        rw [hk] at hrel
        refine h.move (fun j m hm => ?_) (fun j m hm => ?_) (.inside hown hbody hrel) hidle
        · rw [hfree] at hm; cases hm
        · rw [hown] at hm; exact congrArg Prod.fst (List.mem_singleton.mp hm)
      · cases he
      · cases he
    | inside hown hbody hrel =>
      have hold : ∀ j m, (j, m) ∈ c.mem.owners () → j = i := by
        intro j m hm
        rw [hown] at hm
        exact congrArg Prod.fst (List.mem_singleton.mp hm)
      obtain ⟨l, m, rfl, -⟩ | ⟨l, m, rfl, rfl⟩ | ⟨l, a, k, rfl, rfl, rfl⟩ := Prog.step_cases hs
      · exact absurd hbody id
      · obtain ⟨rfl, r, rfl⟩ := hbody
        have hfree : (c.mem.release i () .exclusive).owners () = [] := by
          simp [Memory.release, hown]
        refine h.move hold (fun j m hm => ?_) (.past fun m hm => ?_) hidle
        · rw [hfree] at hm; cases hm
        · rw [hfree] at hm; cases hm
      · refine h.move hold hold (.inside hown (hbody _) ?_) hidle
        rw [Memory.write_val, Function.update_self]
        exact hrel
    | past _ => cases hs

/-- **No returned call owns the mutex**, in any run whose calls take it
only on contents on which they release it. -/
theorem never_held_by_returned (huses : ∀ i, (prog i).UsesMutex) {ok : Cid → S.Val → Prop}
    (hok : ∀ i v, ok i v → (prog i).releases v = true) {M : Unit → S.Val}
    (hreach : Relation.ReflTransGen (StepWhen prog ok) (initial M) c) {i : Cid} {r : ρ}
    (hi : c.status i = .returned r) (m : LockMode) : (i, m) ∉ c.mem.owners () := by
  have hinv : MutexInv prog c := by
    clear hi
    induction hreach with
    | refl => exact mutexInv_initial M
    | tail _ hstep ih => exact ih.step huses hok hstep
  exact hinv.returned i r hi m

/-! ## A call with no other call stepping -/

/-- A step that takes no mutex. -/
theorem StepWhen.of_subset {ok : Cid → S.Val → Prop} (hstep : Step prog c c')
    (hsub : c'.mem.owners () ⊆ c.mem.owners ()) : StepWhen prog ok c c' :=
  ⟨hstep, fun _ htakes => absurd (hsub htakes.2) htakes.1⟩

/-- With the mutex, a body may run to its end. -/
theorem exec_body {ok : Cid → S.Val → Prop} {c₀ : Config S Unit Cid ρ} {i : Cid}
    {p : Prog S Unit ρ} (hbody : p.MutexBody) (h : Relation.ReflTransGen (StepWhen prog ok) c₀ c)
    (hi : c.status i = .running p) {r : ρ} {s' : Memory S Unit Cid}
    (hexec : p.exec i c.mem = some (r, s')) :
    ∃ c', Relation.ReflTransGen (StepWhen prog ok) c₀ c' ∧ c'.status i = .returned r ∧
      (∀ j ≠ i, c'.status j = c.status j) ∧ c'.mem = s' := by
  induction p generalizing c with
  | ret r' =>
    obtain ⟨rfl, rfl⟩ := Prod.mk.inj (Option.some.inj hexec)
    exact ⟨_, h.tail (.of_subset (.return i hi) fun _ hm => hm), Function.update_self _ _ _,
      fun j hj => Function.update_of_ne hj _ _, rfl⟩
  | lock l m k _ => exact absurd hbody id
  | unlock l m k ih =>
    obtain ⟨rfl, r', rfl⟩ := hbody
    have hsub : (c.mem.release i () .exclusive).owners () ⊆ c.mem.owners () := by
      simp only [Memory.release, Function.update_self]
      exact fun _ hm => (List.mem_filter.mp hm).1
    obtain ⟨c', hreach, hret, hst, hmem⟩ := ih trivial
      (h.tail (.of_subset (.run i hi rfl) hsub)) (Function.update_self _ _ _) hexec
    exact ⟨c', hreach, hret, fun j hj => (hst j hj).trans (Function.update_of_ne hj _ _), hmem⟩
  | act l a k ih =>
    obtain ⟨c', hreach, hret, hst, hmem⟩ := ih _ (hbody _)
      (h.tail (.of_subset (.run i hi rfl) fun _ hm => hm)) (Function.update_self _ _ _) hexec
    exact ⟨c', hreach, hret, fun j hj => (hst j hj).trans (Function.update_of_ne hj _ _), hmem⟩

/-- A call that is yet to be made may run to its end, if the mutex is free
and the contents are acceptable to it. -/
theorem exec_when {ok : Cid → S.Val → Prop} {c₀ : Config S Unit Cid ρ} {i : Cid}
    (huses : (prog i).UsesMutex) (h : Relation.ReflTransGen (StepWhen prog ok) c₀ c)
    (hidle : c.status i = .idle) (hfree : c.mem.owners () = []) (hok : ok i (c.mem.val ()))
    {r : ρ} {s' : Memory S Unit Cid} (hexec : (prog i).exec i c.mem = some (r, s')) :
    ∃ c', Relation.ReflTransGen (StepWhen prog ok) c₀ c' ∧ c'.status i = .returned r ∧
      (∀ j ≠ i, c'.status j = c.status j) ∧ c'.mem = s' := by
  obtain ⟨k, hk, hbody⟩ := huses
  have hgrants : Grants (c.mem.owners ()) .exclusive := hfree
  have hown : (c.mem.acquire i () .exclusive).owners () = [(i, .exclusive)] := by
    simp [Memory.acquire, hfree]
  have hmade := h.tail (.of_subset (.invoke i hidle) fun _ hm => hm)
  have hlocked := hmade.tail ⟨.run i (Function.update_self _ _ _)
    (show (prog i).step i c.mem = some (k, c.mem.acquire i () .exclusive) by
      rw [hk]
      exact if_pos hgrants), fun j htakes => by
    have hmem := htakes.2
    rw [show _ = _ from hown] at hmem
    obtain rfl : j = i := congrArg Prod.fst (List.mem_singleton.mp hmem)
    exact hok⟩
  rw [hk] at hexec
  obtain ⟨c', hreach, hret, hst, hmem⟩ := exec_body hbody hlocked (Function.update_self _ _ _)
    ((if_pos hgrants).symm.trans hexec)
  refine ⟨c', hreach, hret, fun j hj => ?_, hmem⟩
  rw [hst j hj]
  exact (Function.update_of_ne hj _ _).trans (Function.update_of_ne hj _ _)

end Config

end SystemsProjects.Base
