/-
SystemsProjects.Base.LockDiscipline — what programs with locks keep at
every step, carried to every interleaving.

`Discipline`: what a program and the locks it holds have to satisfy,
kept by every step the program takes. `Reachable.follows` carries a
discipline from the programs to every state of every interleaving, and
says there which locks each call holds; with it a cell nobody holds
exclusively is left alone (`Follows.val_eq`). `Reachable.cells` does the
same for a property of the cells that all actions keep.

Nothing here names the programs of this repository.
-/
import SystemsProjects.Base.TwoPhase

namespace SystemsProjects.Base

variable {S : CellSpec} {Loc Cid ρ : Type}

/-! ## Lock disciplines -/

/-- Every step of a program that satisfies `P` with the locks it holds
leads to one that does; it requests no lock it holds, releases only what
it holds, and returns with nothing. -/
structure Discipline [DecidableEq Loc] (P : Prog S Loc ρ → Held Loc → Prop) : Prop where
  lock : ∀ l m k H, P (.lock l m k) H → (∀ m', (l, m') ∉ H) ∧ P k ((l, m) :: H)
  unlock : ∀ l m k H, P (.unlock l m k) H → (l, m) ∈ H ∧ P k (H.filter (· ≠ (l, m)))
  act : ∀ l a k H, P (.act l a k) H → ∀ r, P (k r) H
  ret : ∀ r H, P (.ret r) H → H = []

namespace Prog

/-- Two-phase locking is a discipline. -/
theorem discipline_twoPhase [DecidableEq Loc] (cov : Held Loc → Loc → S.Act → Prop) :
    Discipline (fun (p : Prog S Loc ρ) H => p.TwoPhase cov H) where
  lock := fun _ _ _ _ h => h
  unlock := fun _ _ _ _ h => ⟨And.left h, (Shrinks.works (And.right h)).twoPhase⟩
  act := fun _ _ _ _ h r => (And.right h r).twoPhase
  ret := fun _ _ h => h

/-! ### Actions -/

/-- Every action the program may take satisfies `ok`. -/
def Acts (ok : Loc → S.Act → Prop) : Prog S Loc ρ → Prop
  | .ret _ => True
  | .lock _ _ k => k.Acts ok
  | .unlock _ _ k => k.Acts ok
  | .act l a k => ok l a ∧ ∀ r, (k r).Acts ok

variable {ok : Loc → S.Act → Prop} {p : Prog S Loc ρ}

theorem Acts.lockAll (ls : List Loc) (m : LockMode) (h : p.Acts ok) :
    (Prog.lockAll ls m p).Acts ok := by
  induction ls with
  | nil => exact h
  | cons l ls ih => exact ih

theorem Acts.unlockAll (ls : List Loc) (m : LockMode) (h : p.Acts ok) :
    (Prog.unlockAll ls m p).Acts ok := by
  induction ls with
  | nil => exact h
  | cons l ls ih => exact ih

end Prog

/-! ## A discipline in every interleaving -/

namespace Config

/-- The locks the calls hold, and where the discipline has them. -/
structure Follows (P : Prog S Loc ρ → Held Loc → Prop) (c : Config S Loc Cid ρ)
    (held : Cid → Held Loc) : Prop where
  owners : ∀ l i m, (i, m) ∈ c.mem.owners l ↔ (l, m) ∈ held i
  running : ∀ i p, c.status i = .running p → P p (held i)
  resting : ∀ i, (∀ p, c.status i ≠ .running p) → held i = []

variable [DecidableEq Loc] [DecidableEq Cid] {P : Prog S Loc ρ → Held Loc → Prop}
  {c c' : Config S Loc Cid ρ}
  {prog : Cid → Prog S Loc ρ} {held : Cid → Held Loc}

omit [DecidableEq Loc] in
/-- One call moves on with new locks; the locks and programs of the
others stay. -/
theorem Follows.move (h : Follows P c held) {i : Cid} {p' : Prog S Loc ρ}
    {mem : Memory S Loc Cid} {H : Held Loc}
    (hown : ∀ l j m, (j, m) ∈ mem.owners l ↔ (l, m) ∈ Function.update held i H j)
    (hp : P p' H) :
    Follows P { c with mem := mem, status := Function.update c.status i (.running p') }
      (Function.update held i H) where
  owners := hown
  running := by
    intro j p hj
    by_cases hji : j = i
    · subst hji
      simp only [Function.update_self, Status.running.injEq] at hj ⊢
      exact hj ▸ hp
    · simp only [Function.update_of_ne hji] at hj ⊢
      exact h.running j p hj
  resting := by
    intro j hj
    by_cases hji : j = i
    · subst hji
      exact absurd (Function.update_self ..) (hj p')
    · simp only [Function.update_of_ne hji] at hj ⊢
      exact h.resting j hj

theorem Follows.step (hP : Discipline P) (hprog : ∀ i, P (prog i) []) (h : Follows P c held)
    (hstep : Step prog c c') : ∃ held', Follows P c' held' := by
  cases hstep with
  | invoke i hi =>
    have hheld : held i = [] := h.resting i fun p hp => by rw [hi] at hp; cases hp
    have hsame : Function.update held i [] = held := by
      rw [← hheld]; exact Function.update_eq_self i held
    have hown : ∀ l j m, (j, m) ∈ c.mem.owners l ↔ (l, m) ∈ Function.update held i [] j := by
      rw [hsame]
      exact h.owners
    have hmove := h.move hown (hprog i)
    exact ⟨_, hmove.owners, hmove.running, hmove.resting⟩
  | run i hi hs =>
    have hp := h.running i _ hi
    obtain ⟨l, m, rfl, -, rfl⟩ | ⟨l, m, rfl, rfl⟩ | ⟨l, a, k, rfl, rfl, rfl⟩ := Prog.step_cases hs
    · refine ⟨_, h.move (H := (l, m) :: held i) (fun l' j m' => ?_) (hP.lock l m _ _ hp).2⟩
      rw [Memory.mem_owners_acquire, h.owners]
      by_cases hji : j = i
      · subst hji
        simp [or_comm]
      · simp [hji]
    · refine ⟨_, h.move (H := (held i).filter (· ≠ (l, m))) (fun l' j m' => ?_)
        (hP.unlock l m _ _ hp).2⟩
      rw [Memory.mem_owners_release, h.owners]
      by_cases hji : j = i
      · subst hji
        simp [imp_iff_not_or]
      · simp [hji]
    · refine ⟨_, h.move (H := held i) (fun l' j m' => ?_) (hP.act l a k _ hp _)⟩
      rw [Function.update_eq_self]
      exact h.owners l' j m'
  | «return» i hi =>
    have hheld : held i = [] := hP.ret _ _ (h.running i _ hi)
    refine ⟨held, h.owners, fun j p hj => ?_, fun j hj => ?_⟩
    · by_cases hji : j = i
      · subst hji
        simp at hj
      · exact h.running j p (by simpa [hji] using hj)
    · by_cases hji : j = i
      · subst hji
        exact hheld
      · exact h.resting j fun p hp => hj p (by simpa [hji] using hp)

/-- Calls that start disciplined stay so in every state of every
interleaving. -/
theorem Reachable.follows (hP : Discipline P) (hprog : ∀ i, P (prog i) [])
    {M : Loc → S.Val} (hreach : Reachable prog M c) : ∃ held, Follows P c held := by
  refine Reachable.invariant (I := fun c => ∃ held, Follows P c held)
    ⟨fun _ => [], ?_⟩ (fun c c' h hs => ?_) hreach
  · exact ⟨by simp [initial], by simp [initial], fun _ _ => rfl⟩
  · obtain ⟨held, h⟩ := h
    exact h.step hP hprog hs

omit [DecidableEq Cid] in
/-- No call requests a lock it owns. -/
theorem Follows.not_owned (hP : Discipline P) (h : Follows P c held) {i : Cid} {l : Loc}
    {m : LockMode} {k : Prog S Loc ρ} (hi : c.status i = .running (.lock l m k)) (m' : LockMode) :
    (i, m') ∉ c.mem.owners l := by
  rw [h.owners]
  exact (hP.lock l m k _ (h.running i _ hi)).1 m'

/-- A step of a two-phase system leaves the cells alone that nobody owns
exclusively. -/
theorem Follows.val_eq (h : Follows (fun p H => p.TwoPhase (Covers S) H) c held)
    (hstep : Step prog c c') {l : Loc} (hfree : ∀ i, (i, LockMode.exclusive) ∉ c.mem.owners l) :
    c'.mem.val l = c.mem.val l := by
  cases hstep with
  | invoke i hi => rfl
  | «return» i hi => rfl
  | run i hi hs =>
    obtain ⟨l', m, rfl, -, rfl⟩ | ⟨l', m, rfl, rfl⟩ | ⟨l', a, k, rfl, rfl, rfl⟩ :=
      Prog.step_cases hs
    · rfl
    · rfl
    · show Function.update c.mem.val l' _ l = c.mem.val l
      by_cases hl : l = l'
      · subst hl
        have hcov : Covers S (held i) l a := (h.running i _ hi).1
        rw [Function.update_self]
        cases hcov with
        | inl hx => exact absurd ((h.owners l i .exclusive).mpr hx) (hfree i)
        | inr hro => exact hro.2 (c.mem.val l)
      · rw [Function.update_of_ne hl]

/-- What every action of the programs keeps holds of the cells in every
state of every interleaving. -/
theorem Reachable.cells {ok : Loc → S.Act → Prop} {I : (Loc → S.Val) → Prop}
    (hprog : ∀ i, (prog i).Acts ok)
    (hact : ∀ M l a, ok l a → I M → I (Function.update M l (S.sem a (M l)).2))
    {M : Loc → S.Val} (h0 : I M) (hreach : Reachable prog M c) : I c.mem.val := by
  have hinv : I c.mem.val ∧ ∀ i p, c.status i = .running p → p.Acts ok := by
    refine Reachable.invariant (I := fun c => I c.mem.val ∧ ∀ i p, c.status i = .running p →
      p.Acts ok)
      ⟨h0, by simp [initial]⟩ (fun c c' h hs => ?_) hreach
    obtain ⟨hval, hacts⟩ := h
    -- one call moves on, the programs of the others stay
    have hmove : ∀ {i : Cid} {p' : Prog S Loc ρ}, p'.Acts ok →
        ∀ j q, Function.update c.status i (.running p') j = .running q → q.Acts ok := by
      intro i p' hp' j q hj
      by_cases hji : j = i
      · subst hji
        rw [Function.update_self, Status.running.injEq] at hj
        exact hj ▸ hp'
      · rw [Function.update_of_ne hji] at hj
        exact hacts j q hj
    cases hs with
    | invoke i hi => exact ⟨hval, hmove (hprog i)⟩
    | run i hi hs =>
      have hp := hacts i _ hi
      obtain ⟨l, m, rfl, -, rfl⟩ | ⟨l, m, rfl, rfl⟩ | ⟨l, a, k, rfl, rfl, rfl⟩ :=
        Prog.step_cases hs
      · exact ⟨hval, hmove hp⟩
      · exact ⟨hval, hmove hp⟩
      · exact ⟨hact _ l a (And.left hp) hval, hmove (And.right hp _)⟩
    | «return» i hi =>
      refine ⟨hval, fun j q hj => ?_⟩
      by_cases hji : j = i
      · subst hji
        simp at hj
      · exact hacts j q (by simpa [hji] using hj)
  exact hinv.1

end Config

end SystemsProjects.Base
