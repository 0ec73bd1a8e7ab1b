/-
SystemsProjects.Base.LockProgram — programs over cells guarded by
shared/exclusive locks, and their interleavings.

A program is a tree of atomic steps: acquire a lock, release a lock, or
perform one atomic action on one cell and continue with its reply. The
code between two such steps is local to the thread and lives in the
continuations. There is one lock per cell.

  §1 programs, and the memory they run on (cell values, lock owners);
  §2 one program alone: `exec` respects the locks, `eval` ignores them;
  §3 a family of calls, each with its program, interleaved step by step.

The mutex rule is the usual one: a shared request is granted when no
call owns the lock exclusively, an exclusive one when no call owns it at
all. Releasing a lock that is not owned has no effect.

Nothing here names the programs of this repository.
-/
import Mathlib.Logic.Function.Basic
import Mathlib.Logic.Relation
import Mathlib.Data.Set.Basic

namespace SystemsProjects.Base

/-! ## §1 Programs and memory -/

/-- A kind of cell: its values, the atomic actions on it, the reply each
gives, and what each does. -/
structure CellSpec where
  Val : Type
  Act : Type
  Rep : Act → Type
  sem : (a : Act) → Val → Rep a × Val

inductive LockMode where
  | shared
  | exclusive
  deriving DecidableEq, Repr

/-- A program over cells named by `Loc` that returns a `ρ`. -/
inductive Prog (S : CellSpec) (Loc ρ : Type) : Type where
  | ret (r : ρ)
  | lock (l : Loc) (m : LockMode) (k : Prog S Loc ρ)
  | unlock (l : Loc) (m : LockMode) (k : Prog S Loc ρ)
  | act (l : Loc) (a : S.Act) (k : S.Rep a → Prog S Loc ρ)

variable {S : CellSpec} {Loc Cid ρ : Type}

/-- Cell values and, per lock, its owners. -/
structure Memory (S : CellSpec) (Loc Cid : Type) where
  val : Loc → S.Val
  owners : Loc → List (Cid × LockMode)

namespace Prog

/-- Acquire a list of locks in order. -/
def lockAll (ls : List Loc) (m : LockMode) (k : Prog S Loc ρ) : Prog S Loc ρ :=
  ls.foldr (fun l p => .lock l m p) k

/-- Release a list of locks in order. -/
def unlockAll (ls : List Loc) (m : LockMode) (k : Prog S Loc ρ) : Prog S Loc ρ :=
  ls.foldr (fun l p => .unlock l m p) k

@[simp] theorem lockAll_nil (m : LockMode) (k : Prog S Loc ρ) : lockAll [] m k = k := rfl

@[simp] theorem lockAll_cons (l : Loc) (ls : List Loc) (m : LockMode) (k : Prog S Loc ρ) :
    lockAll (l :: ls) m k = .lock l m (lockAll ls m k) := rfl

@[simp] theorem unlockAll_nil (m : LockMode) (k : Prog S Loc ρ) : unlockAll [] m k = k := rfl

@[simp] theorem unlockAll_cons (l : Loc) (ls : List Loc) (m : LockMode) (k : Prog S Loc ρ) :
    unlockAll (l :: ls) m k = .unlock l m (unlockAll ls m k) := rfl

/-- The next step acquires a lock. -/
def Growing : Prog S Loc ρ → Prop
  | .lock _ _ _ => True
  | _ => False

instance (p : Prog S Loc ρ) : Decidable p.Growing := by
  cases p <;> unfold Growing <;> infer_instance

/-! ## §2 One program alone -/

/-- The effect of a program on the cells, locks ignored. -/
def eval [DecidableEq Loc] : Prog S Loc ρ → (Loc → S.Val) → ρ × (Loc → S.Val)
  | .ret r, M => (r, M)
  | .lock _ _ k, M => k.eval M
  | .unlock _ _ k, M => k.eval M
  | .act l a k, M => (k (S.sem a (M l)).1).eval (Function.update M l (S.sem a (M l)).2)

@[simp] theorem eval_ret [DecidableEq Loc] (r : ρ) (M : Loc → S.Val) :
    (Prog.ret r : Prog S Loc ρ).eval M = (r, M) := rfl

@[simp] theorem eval_lock [DecidableEq Loc] (l : Loc) (m : LockMode) (k : Prog S Loc ρ)
    (M : Loc → S.Val) : (Prog.lock l m k).eval M = k.eval M := rfl

@[simp] theorem eval_unlock [DecidableEq Loc] (l : Loc) (m : LockMode) (k : Prog S Loc ρ)
    (M : Loc → S.Val) : (Prog.unlock l m k).eval M = k.eval M := rfl

theorem eval_act [DecidableEq Loc] (l : Loc) (a : S.Act) (k : S.Rep a → Prog S Loc ρ)
    (M : Loc → S.Val) :
    (Prog.act l a k).eval M =
      (k (S.sem a (M l)).1).eval (Function.update M l (S.sem a (M l)).2) := rfl

@[simp] theorem eval_lockAll [DecidableEq Loc] (ls : List Loc) (m : LockMode)
    (k : Prog S Loc ρ) (M : Loc → S.Val) : (lockAll ls m k).eval M = k.eval M := by
  induction ls with
  | nil => rfl
  | cons l ls ih => exact ih

@[simp] theorem eval_unlockAll [DecidableEq Loc] (ls : List Loc) (m : LockMode)
    (k : Prog S Loc ρ) (M : Loc → S.Val) : (unlockAll ls m k).eval M = k.eval M := by
  induction ls with
  | nil => rfl
  | cons l ls ih => exact ih

end Prog

/-- The mutex rule. -/
def Grants (owners : List (Cid × LockMode)) : LockMode → Prop
  | .shared => ∀ o ∈ owners, o.2 = .shared
  | .exclusive => owners = []

instance (owners : List (Cid × LockMode)) (m : LockMode) :
    Decidable (Grants owners m) := by
  cases m <;> unfold Grants <;> infer_instance

namespace Memory

section

variable [DecidableEq Loc]

def acquire (s : Memory S Loc Cid) (i : Cid) (l : Loc) (m : LockMode) : Memory S Loc Cid :=
  { s with owners := Function.update s.owners l ((i, m) :: s.owners l) }

def write (s : Memory S Loc Cid) (l : Loc) (v : S.Val) : Memory S Loc Cid :=
  { s with val := Function.update s.val l v }

@[simp] theorem acquire_val (s : Memory S Loc Cid) (i : Cid) (l : Loc) (m : LockMode) :
    (s.acquire i l m).val = s.val := rfl

@[simp] theorem write_val (s : Memory S Loc Cid) (l : Loc) (v : S.Val) :
    (s.write l v).val = Function.update s.val l v := rfl

@[simp] theorem write_owners (s : Memory S Loc Cid) (l : Loc) (v : S.Val) :
    (s.write l v).owners = s.owners := rfl

theorem mem_owners_acquire {s : Memory S Loc Cid} {i j : Cid} {l l' : Loc} {m m' : LockMode} :
    (j, m') ∈ (s.acquire i l m).owners l' ↔
      (j, m') ∈ s.owners l' ∨ (l' = l ∧ j = i ∧ m' = m) := by
  by_cases h : l' = l
  · subst h
    simp only [acquire, Function.update_self, List.mem_cons, Prod.mk.injEq, true_and]
    exact or_comm
  · simp [acquire, h]

end

variable [DecidableEq Loc] [DecidableEq Cid]

def release (s : Memory S Loc Cid) (i : Cid) (l : Loc) (m : LockMode) : Memory S Loc Cid :=
  { s with owners := Function.update s.owners l ((s.owners l).filter (· ≠ (i, m))) }

@[simp] theorem release_val (s : Memory S Loc Cid) (i : Cid) (l : Loc) (m : LockMode) :
    (s.release i l m).val = s.val := rfl

theorem mem_owners_release {s : Memory S Loc Cid} {i j : Cid} {l l' : Loc} {m m' : LockMode} :
    (j, m') ∈ (s.release i l m).owners l' ↔
      (j, m') ∈ s.owners l' ∧ ¬ (l' = l ∧ j = i ∧ m' = m) := by
  by_cases h : l' = l
  · subst h
    simp [release, imp_iff_not_or]
  · simp [release, h]

end Memory

namespace Prog

variable [DecidableEq Loc] [DecidableEq Cid]

/-- One step of call `i`; `none` when it has returned or is blocked. -/
def step (i : Cid) : Prog S Loc ρ → Memory S Loc Cid → Option (Prog S Loc ρ × Memory S Loc Cid)
  | .ret _, _ => none
  | .lock l m k, s => if Grants (s.owners l) m then some (k, s.acquire i l m) else none
  | .unlock l m k, s => some (k, s.release i l m)
  | .act l a k, s => some (k (S.sem a (s.val l)).1, s.write l (S.sem a (s.val l)).2)

theorem step_lock {i : Cid} {l : Loc} {m : LockMode} {k : Prog S Loc ρ} {s : Memory S Loc Cid}
    (h : Grants (s.owners l) m) : (Prog.lock l m k).step i s = some (k, s.acquire i l m) :=
  if_pos h

/-- Run call `i` with no other call stepping; `none` when it blocks. -/
def exec (i : Cid) : Prog S Loc ρ → Memory S Loc Cid → Option (ρ × Memory S Loc Cid)
  | .ret r, s => some (r, s)
  | .lock l m k, s => if Grants (s.owners l) m then k.exec i (s.acquire i l m) else none
  | .unlock l m k, s => k.exec i (s.release i l m)
  | .act l a k, s => (k (S.sem a (s.val l)).1).exec i (s.write l (S.sem a (s.val l)).2)

/-- A call that does not block has the effect the locks hide. -/
theorem exec_val {i : Cid} {p : Prog S Loc ρ} {s s' : Memory S Loc Cid} {r : ρ}
    (h : p.exec i s = some (r, s')) : p.eval s.val = (r, s'.val) := by
  induction p generalizing s with
  | ret r' =>
    simp only [exec, Option.some.injEq, Prod.mk.injEq] at h
    obtain ⟨rfl, rfl⟩ := h
    rfl
  | lock l m k ih =>
    simp only [exec] at h
    split at h
    · exact ih (s := s.acquire i l m) h
    · cases h
  | unlock l m k ih => exact ih (s := s.release i l m) h
  | act l a k ih => exact ih _ h

end Prog

/-! ### Lock discipline -/

/-- The locks a call holds. -/
abbrev Held (Loc : Type) := List (Loc × LockMode)

namespace Prog

variable [DecidableEq Loc]

/-- Only releases what it holds, and ends holding nothing. -/
def Shrinks : Prog S Loc ρ → Held Loc → Prop
  | .ret _, H => H = []
  | .unlock l m k, H => (l, m) ∈ H ∧ k.Shrinks (H.filter (· ≠ (l, m)))
  | .lock _ _ _, _ => False
  | .act _ _ _, _ => False

/-- Acts only where `cov` allows it with the locks held, then shrinks. -/
def Works (cov : Held Loc → Loc → S.Act → Prop) : Prog S Loc ρ → Held Loc → Prop
  | .act l a k, H => cov H l a ∧ ∀ r, (k r).Works cov H
  | .unlock l m k, H => (Prog.unlock l m k).Shrinks H
  | .ret r, H => (Prog.ret r : Prog S Loc ρ).Shrinks H
  | .lock _ _ _, _ => False

/-- Acquires locks, none twice, then works. -/
def TwoPhase (cov : Held Loc → Loc → S.Act → Prop) : Prog S Loc ρ → Held Loc → Prop
  | .lock l m k, H => (∀ m', (l, m') ∉ H) ∧ k.TwoPhase cov ((l, m) :: H)
  | .unlock l m k, H => (Prog.unlock l m k).Works cov H
  | .ret r, H => (Prog.ret r : Prog S Loc ρ).Works cov H
  | .act l a k, H => (Prog.act l a k).Works cov H

variable {cov : Held Loc → Loc → S.Act → Prop} {p : Prog S Loc ρ} {H : Held Loc}

theorem TwoPhase.works (h : p.TwoPhase cov H) (hg : ¬ p.Growing) : p.Works cov H := by
  cases p with
  | lock l m k => exact absurd trivial hg
  | ret r => exact h
  | unlock l m k => exact h
  | act l a k => exact h

theorem Works.not_growing (h : p.Works cov H) : ¬ p.Growing := by
  cases p with
  | lock l m k => exact absurd h id
  | _ => exact id

theorem Works.twoPhase (h : p.Works cov H) : p.TwoPhase cov H := by
  cases p with
  | lock l m k => exact absurd h id
  | ret r => exact h
  | unlock l m k => exact h
  | act l a k => exact h

theorem Shrinks.works (h : p.Shrinks H) : p.Works cov H := by
  cases p with
  | ret r => exact h
  | unlock l m k => exact h
  | lock l m k => exact absurd h id
  | act l a k => exact absurd h id

/-- The locks held after acquiring `ls` on top of `H`. -/
def holding (ls : List Loc) (m : LockMode) (H : Held Loc) : Held Loc :=
  ls.foldl (fun H l => (l, m) :: H) H

omit [DecidableEq Loc] in
theorem mem_holding {ls : List Loc} {m m' : LockMode} {H : Held Loc} {l : Loc} :
    (l, m') ∈ holding ls m H ↔ (l ∈ ls ∧ m' = m) ∨ (l, m') ∈ H := by
  induction ls generalizing H with
  | nil => simp [holding]
  | cons a ls ih =>
    rw [show holding (a :: ls) m H = holding ls m ((a, m) :: H) from rfl, ih]
    simp only [List.mem_cons, Prod.mk.injEq]
    constructor
    · rintro (⟨h1, h2⟩ | ⟨h1, h2⟩ | h)
      · exact .inl ⟨.inr h1, h2⟩
      · exact .inl ⟨.inl h1, h2⟩
      · exact .inr h
    · rintro (⟨h1 | h1, h2⟩ | h)
      · exact .inr (.inl ⟨h1, h2⟩)
      · exact .inl ⟨h1, h2⟩
      · exact .inr (.inr h)

theorem TwoPhase.lockAll {ls : List Loc} {m : LockMode} (hnd : ls.Nodup)
    (hfresh : ∀ l ∈ ls, ∀ m', (l, m') ∉ H) (hp : p.TwoPhase cov (holding ls m H)) :
    (Prog.lockAll ls m p).TwoPhase cov H := by
  induction ls generalizing H with
  | nil => exact hp
  | cons l ls ih =>
    obtain ⟨hl, hnd⟩ := List.nodup_cons.mp hnd
    refine ⟨hfresh l List.mem_cons_self, ih hnd (fun l' hl' m' hm => ?_) hp⟩
    rcases List.mem_cons.mp hm with he | hm
    · rw [Prod.mk.injEq] at he
      exact hl (he.1 ▸ hl')
    · exact hfresh l' (List.mem_cons_of_mem l hl') m' hm

/-- Releasing exactly what is held. -/
theorem Shrinks.unlockAll {ls : List Loc} {m : LockMode} {r : ρ} (hnd : ls.Nodup)
    (hH : ∀ l m', (l, m') ∈ H ↔ l ∈ ls ∧ m' = m) :
    (Prog.unlockAll ls m (.ret r) : Prog S Loc ρ).Shrinks H := by
  induction ls generalizing H with
  | nil =>
    refine List.eq_nil_iff_forall_not_mem.mpr ?_
    rintro ⟨l, m'⟩ hm
    exact absurd ((hH l m').mp hm).1 List.not_mem_nil
  | cons l ls ih =>
    obtain ⟨hl, hnd⟩ := List.nodup_cons.mp hnd
    refine ⟨(hH l m).mpr ⟨List.mem_cons_self, rfl⟩, ih hnd fun l' m' => ?_⟩
    simp only [List.mem_filter, hH, List.mem_cons, decide_eq_true_eq, ne_eq, Prod.mk.injEq]
    constructor
    · rintro ⟨⟨rfl | h1, rfl⟩, hne⟩
      · exact absurd ⟨rfl, rfl⟩ hne
      · exact ⟨h1, rfl⟩
    · rintro ⟨h1, rfl⟩
      exact ⟨⟨.inr h1, rfl⟩, fun he => hl (he.1 ▸ h1)⟩

variable [DecidableEq Cid]

/-- A disciplined call that finds the locks free runs to its end and
leaves them free. -/
theorem TwoPhase.exec_some {i : Cid} {s : Memory S Loc Cid} (h : p.TwoPhase cov H)
    (hown : ∀ l j m, (j, m) ∈ s.owners l ↔ j = i ∧ (l, m) ∈ H) :
    ∃ r s', p.exec i s = some (r, s') ∧ ∀ l, s'.owners l = [] := by
  induction p generalizing H s with
  | ret r =>
    refine ⟨r, s, rfl, fun l => List.eq_nil_iff_forall_not_mem.mpr ?_⟩
    rintro ⟨j, m⟩ hj
    have hm := ((hown l j m).mp hj).2
    rw [show H = [] from h] at hm
    cases hm
  | lock l m k ih =>
    have hfree : s.owners l = [] := by
      refine List.eq_nil_iff_forall_not_mem.mpr ?_
      rintro ⟨j, m'⟩ hj
      exact h.1 m' ((hown l j m').mp hj).2
    have hg : Grants (s.owners l) m := by
      rw [hfree]
      cases m with
      | shared => intro o ho; cases ho
      | exclusive => rfl
    simp only [exec, if_pos hg]
    refine ih h.2 fun l' j m' => ?_
    rw [Memory.mem_owners_acquire, hown, List.mem_cons, Prod.mk.injEq]
    constructor
    · rintro (⟨h1, h2⟩ | ⟨h1, h2, h3⟩)
      · exact ⟨h1, .inr h2⟩
      · exact ⟨h2, .inl ⟨h1, h3⟩⟩
    · rintro ⟨h1, ⟨h2, h3⟩ | h2⟩
      · exact .inr ⟨h2, h1, h3⟩
      · exact .inl ⟨h1, h2⟩
  | unlock l m k ih =>
    have hk : k.Shrinks (H.filter (· ≠ (l, m))) := And.right (show Shrinks _ _ from h)
    refine ih (Works.twoPhase hk.works) fun l' j m' => ?_
    rw [Memory.mem_owners_release, hown, List.mem_filter]
    simp only [decide_eq_true_eq, ne_eq, Prod.mk.injEq]
    constructor
    · rintro ⟨⟨h1, h2⟩, h3⟩
      exact ⟨h1, h2, fun he => h3 ⟨he.1, h1, he.2⟩⟩
    · rintro ⟨h1, h2, h3⟩
      exact ⟨⟨h1, h2⟩, fun he => h3 ⟨he.1, he.2.2⟩⟩
  | act l a k ih =>
    exact ih _ (Works.twoPhase (And.right (show Works cov _ _ from h) _)) hown

end Prog

namespace Prog

variable [DecidableEq Loc] [DecidableEq Cid]

/-- The step relation's cases, one per kind of step. -/
theorem step_cases {i : Cid} {p p' : Prog S Loc ρ} {s s' : Memory S Loc Cid}
    (h : p.step i s = some (p', s')) :
    (∃ l m, p = .lock l m p' ∧ Grants (s.owners l) m ∧ s' = s.acquire i l m) ∨
    (∃ l m, p = .unlock l m p' ∧ s' = s.release i l m) ∨
    (∃ l a k, p = .act l a k ∧ p' = k (S.sem a (s.val l)).1 ∧
      s' = s.write l (S.sem a (s.val l)).2) := by
  cases p with
  | ret r => cases h
  | lock l m k =>
    simp only [step] at h
    split at h
    · rename_i hg
      simp only [Option.some.injEq, Prod.mk.injEq] at h
      obtain ⟨rfl, rfl⟩ := h
      exact .inl ⟨l, m, rfl, hg, rfl⟩
    · cases h
  | unlock l m k =>
    simp only [step, Option.some.injEq, Prod.mk.injEq] at h
    obtain ⟨rfl, rfl⟩ := h
    exact .inr (.inl ⟨l, m, rfl, rfl⟩)
  | act l a k =>
    simp only [step, Option.some.injEq, Prod.mk.injEq] at h
    obtain ⟨rfl, rfl⟩ := h
    exact .inr (.inr ⟨l, a, k, rfl, rfl, rfl⟩)

end Prog

/-! ## §3 Interleaved calls -/

/-- Where a call is: not yet made, under way, or returned. -/
inductive Status (S : CellSpec) (Loc ρ : Type) where
  | idle
  | running (p : Prog S Loc ρ)
  | returned (r : ρ)

/-- A state of the system. `seen j` are the calls that had returned when
`j` was made: the real-time order of the calls. -/
structure Config (S : CellSpec) (Loc Cid ρ : Type) where
  mem : Memory S Loc Cid
  status : Cid → Status S Loc ρ
  seen : Cid → Set Cid

namespace Config

/-- Every call is yet to be made and every lock is free. -/
def initial (M : Loc → S.Val) : Config S Loc Cid ρ where
  mem := ⟨M, fun _ => []⟩
  status := fun _ => .idle
  seen := fun _ => ∅

variable [DecidableEq Loc] [DecidableEq Cid]

/-- One step of the system: a call is made, takes one step, or returns. -/
inductive Step (prog : Cid → Prog S Loc ρ) : Config S Loc Cid ρ → Config S Loc Cid ρ → Prop
  | invoke {c : Config S Loc Cid ρ} (i : Cid) (h : c.status i = .idle) :
      Step prog c
        { c with status := Function.update c.status i (.running (prog i)),
                 seen := Function.update c.seen i {j | ∃ r, c.status j = .returned r} }
  | run {c : Config S Loc Cid ρ} (i : Cid) {p p' : Prog S Loc ρ} {s' : Memory S Loc Cid}
      (h : c.status i = .running p) (hstep : p.step i c.mem = some (p', s')) :
      Step prog c
        { c with mem := s', status := Function.update c.status i (.running p') }
  | return {c : Config S Loc Cid ρ} (i : Cid) {r : ρ} (h : c.status i = .running (.ret r)) :
      Step prog c { c with status := Function.update c.status i (.returned r) }

/-- The states some interleaving reaches from cell contents `M`. -/
def Reachable (prog : Cid → Prog S Loc ρ) (M : Loc → S.Val) (c : Config S Loc Cid ρ) : Prop :=
  Relation.ReflTransGen (Step prog) (initial M) c

/-- What holds initially and is kept by every step holds in every
reachable state. -/
theorem Reachable.invariant {prog : Cid → Prog S Loc ρ} {M : Loc → S.Val}
    {I : Config S Loc Cid ρ → Prop} (h0 : I (initial M))
    (hstep : ∀ c c', I c → Step prog c c' → I c') {c : Config S Loc Cid ρ}
    (h : Reachable prog M c) : I c := by
  induction h with
  | refl => exact h0
  | tail _ hs ih => exact hstep _ _ ih hs

/-- A call under way may run to its end with no other call stepping. -/
theorem Reachable.exec {prog : Cid → Prog S Loc ρ} {M : Loc → S.Val} {i : Cid}
    {p : Prog S Loc ρ} {c : Config S Loc Cid ρ} (h : Reachable prog M c)
    (hi : c.status i = .running p) {r : ρ} {s' : Memory S Loc Cid}
    (hexec : p.exec i c.mem = some (r, s')) :
    ∃ c', Reachable prog M c' ∧ c'.status i = .returned r ∧
      (∀ j, j ≠ i → c'.status j = c.status j) ∧ c'.mem = s' := by
  induction p generalizing c with
  | ret r' =>
    simp only [Prog.exec, Option.some.injEq, Prod.mk.injEq] at hexec
    obtain ⟨rfl, rfl⟩ := hexec
    exact ⟨_, h.tail (.return i hi), Function.update_self _ _ _,
      fun j hj => Function.update_of_ne hj _ _, rfl⟩
  | lock l m k ih =>
    simp only [Prog.exec] at hexec
    split at hexec
    · rename_i hgr
      obtain ⟨c', hreach, hret, hst, hmem⟩ :=
        ih (h.tail (.run i hi (Prog.step_lock hgr))) (Function.update_self _ _ _) hexec
      exact ⟨c', hreach, hret, fun j hj => (hst j hj).trans (Function.update_of_ne hj _ _), hmem⟩
    · cases hexec
  | unlock l m k ih =>
    obtain ⟨c', hreach, hret, hst, hmem⟩ :=
      ih (h.tail (.run i hi rfl)) (Function.update_self _ _ _) hexec
    exact ⟨c', hreach, hret, fun j hj => (hst j hj).trans (Function.update_of_ne hj _ _), hmem⟩
  | act l a k ih =>
    obtain ⟨c', hreach, hret, hst, hmem⟩ :=
      ih _ (h.tail (.run i hi rfl)) (Function.update_self _ _ _) hexec
    exact ⟨c', hreach, hret, fun j hj => (hst j hj).trans (Function.update_of_ne hj _ _), hmem⟩

/-- A call may acquire a list of free locks in one go. -/
theorem Reachable.lockAll {prog : Cid → Prog S Loc ρ} {M : Loc → S.Val} {i : Cid}
    {m : LockMode} {k : Prog S Loc ρ} {ls : List Loc} (hnd : ls.Nodup)
    {c : Config S Loc Cid ρ} (h : Reachable prog M c)
    (hi : c.status i = .running (Prog.lockAll ls m k)) (hfree : ∀ l ∈ ls, c.mem.owners l = []) :
    ∃ c', Reachable prog M c' ∧ c'.status i = .running k ∧
      (∀ j, j ≠ i → c'.status j = c.status j) ∧ c'.mem.val = c.mem.val ∧
      ∀ l, l ∉ ls → c'.mem.owners l = c.mem.owners l := by
  induction ls generalizing c with
  | nil => exact ⟨c, h, hi, fun _ _ => rfl, rfl, fun _ _ => rfl⟩
  | cons l ls ih =>
    obtain ⟨hl, hnd⟩ := List.nodup_cons.mp hnd
    have hgr : Grants (c.mem.owners l) m := by
      rw [hfree l List.mem_cons_self]
      cases m with
      | shared => intro o ho; cases ho
      | exclusive => rfl
    have hother : ∀ l', l' ≠ l → (c.mem.acquire i l m).owners l' = c.mem.owners l' :=
      fun l' hne => Function.update_of_ne hne _ _
    obtain ⟨c', hreach, hrun, hst, hval, hown⟩ := ih hnd (h.tail (.run i hi (Prog.step_lock hgr)))
      (Function.update_self _ _ _) fun l' hl' => by
        rw [hother l' fun he => hl (he ▸ hl')]
        exact hfree l' (List.mem_cons_of_mem l hl')
    refine ⟨c', hreach, hrun, fun j hj => ?_, hval, fun l' hl' => ?_⟩
    · rw [hst j hj]
      exact Function.update_of_ne hj _ _
    · rw [hown l' fun hm => hl' (List.mem_cons_of_mem l hm)]
      exact hother l' fun he => hl' (he ▸ List.mem_cons_self)

end Config

end SystemsProjects.Base
