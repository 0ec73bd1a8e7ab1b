/-
SystemsProjects.Base.LockOrder — calls that take their locks in ascending
order cannot deadlock.

`Prog.Ascends` is the discipline of a call that requests each lock above
all those it holds, then works. `proceeds_of_ascends`: if every call
ascends, some call under way may take its next step, also where a shared
request has to wait behind an exclusive one.

Nothing here names the programs of this repository.
-/
import SystemsProjects.Base.LockDiscipline
import Mathlib.Data.Set.Finite.Lemmas

namespace SystemsProjects.Base

variable {S : CellSpec} {Loc Cid ρ : Type}

/-! ## Ascending requests -/

namespace Prog

variable [LinearOrder Loc] {p : Prog S Loc ρ} {H : Held Loc}

/-- Requests each lock above the locks it holds, then works. -/
def Ascends : Prog S Loc ρ → Held Loc → Prop
  | .lock l m k, H => (∀ h ∈ H, h.1 < l) ∧ k.Ascends ((l, m) :: H)
  | .unlock l m k, H => (Prog.unlock l m k).Works (fun _ _ _ => True) H
  | .act l a k, H => (Prog.act l a k).Works (fun _ _ _ => True) H
  | .ret r, H => (Prog.ret r : Prog S Loc ρ).Works (fun _ _ _ => True) H

theorem Works.ascends (h : p.Works (fun _ _ _ => True) H) : p.Ascends H := by
  cases p with
  | lock l m k => exact absurd h id
  | ret r => exact h
  | unlock l m k => exact h
  | act l a k => exact h

theorem discipline_ascends :
    Discipline (fun (p : Prog S Loc ρ) H => p.Ascends H) where
  lock := fun _ _ _ _ h => ⟨fun m' hm => lt_irrefl _ (h.1 (_, m') hm), h.2⟩
  unlock := fun _ _ _ _ h => ⟨And.left h, (Shrinks.works (And.right h)).ascends⟩
  act := fun _ _ _ _ h r => (And.right h r).ascends
  ret := fun _ _ h => h

/-- Acquiring an ascending list of locks above those held. -/
theorem Ascends.lockAll {ls : List Loc} {m : LockMode} (hls : ls.Pairwise (· < ·))
    (habove : ∀ h ∈ H, ∀ l ∈ ls, h.1 < l) (hp : p.Ascends (holding ls m H)) :
    (Prog.lockAll ls m p).Ascends H := by
  induction ls generalizing H with
  | nil => exact hp
  | cons l ls ih =>
    obtain ⟨hl, hls⟩ := List.pairwise_cons.mp hls
    refine ⟨fun h hh => habove h hh l List.mem_cons_self, ih hls (fun h hh l' hl' => ?_) hp⟩
    cases List.mem_cons.mp hh with
    | inl he => rw [he]; exact hl l' hl'
    | inr hm => exact habove h hm l' (List.mem_cons_of_mem l hl')

end Prog

/-! ## Progress -/

namespace Config

variable [DecidableEq Loc] [DecidableEq Cid] {c : Config S Loc Cid ρ} {held : Cid → Held Loc}

/-- Call `i` is under way and its next step is enabled, also when a
shared request has to let exclusive requests for the lock go first. -/
def Proceeds (c : Config S Loc Cid ρ) (i : Cid) : Prop :=
  ∃ p, c.status i = .running p ∧ ((∃ r, p = .ret r) ∨ (p.step i c.mem).isSome) ∧
    ∀ l k, p = .lock l .shared k → ∀ j k', c.status j ≠ .running (.lock l .exclusive k')

/-- A call that does not proceed is requesting a lock. -/
theorem lock_of_not_proceeds {i : Cid} {p : Prog S Loc ρ} (hi : c.status i = .running p)
    (hn : ¬ Proceeds c i) : ∃ l m k, p = .lock l m k := by
  cases p with
  | lock l m k => exact ⟨l, m, k, rfl⟩
  | ret r => exact absurd ⟨_, hi, .inl ⟨r, rfl⟩, fun _ _ he => by cases he⟩ hn
  | unlock l m k => exact absurd ⟨_, hi, .inr rfl, fun _ _ he => by cases he⟩ hn
  | act l a k => exact absurd ⟨_, hi, .inr rfl, fun _ _ he => by cases he⟩ hn

/-- If a lock is requested and nobody owns it, one of its requests may
be granted: an exclusive one if there is one. -/
theorem proceeds_of_free {i : Cid} {l : Loc} {m : LockMode} {k : Prog S Loc ρ}
    (hi : c.status i = .running (.lock l m k)) (hfree : c.mem.owners l = []) :
    ∃ j, Proceeds c j := by
  have hgr : ∀ m', Grants (c.mem.owners l) m' := by
    intro m'
    rw [hfree]
    cases m' with
    | shared => intro o ho; cases ho
    | exclusive => rfl
  by_cases hx : ∃ j k', c.status j = .running (.lock l .exclusive k')
  · obtain ⟨j, k', hj⟩ := hx
    exact ⟨j, _, hj, .inr (by simp [Prog.step, hgr]), fun _ _ he => by cases he⟩
  · refine ⟨i, _, hi, .inr (by simp [Prog.step, hgr]), fun l' k' he j k'' hj => hx ⟨j, k'', ?_⟩⟩
    cases he
    exact hj

/-- **Ascending calls cannot deadlock**: while a call is under way, some
call under way proceeds. Of the locks requested take the highest; whoever
owned it would request a higher one. -/
theorem proceeds_of_ascends {Loc : Type} [LinearOrder Loc] [Finite Loc]
    {c : Config S Loc Cid ρ} {held : Cid → Held Loc}
    (h : Follows (fun p H => p.Ascends H) c held)
    {i : Cid} {p : Prog S Loc ρ} (hi : c.status i = .running p) : ∃ j, Proceeds c j := by
  by_contra hnone
  have hstuck : ∀ j q, c.status j = .running q → ∃ l m k, q = .lock l m k :=
    fun j q hj => lock_of_not_proceeds hj fun hp => hnone ⟨j, hp⟩
  let requested : Set Loc := {l | ∃ j m k, c.status j = .running (.lock l m k)}
  have hne : requested.Nonempty := by
    obtain ⟨l, m, k, rfl⟩ := hstuck i p hi
    exact ⟨l, i, m, k, hi⟩
  obtain ⟨top, ⟨j, m, k, hj⟩, htop⟩ :=
    Set.exists_max_image requested id (Set.toFinite requested) hne
  have hfree : c.mem.owners top = [] := by
    refine List.eq_nil_iff_forall_not_mem.mpr ?_
    rintro ⟨owner, m'⟩ ho
    have hheld := (h.owners top owner m').mp ho
    cases hst : c.status owner with
    | running q =>
      obtain ⟨l, m'', k', rfl⟩ := hstuck owner q hst
      have habove : top < l := (h.running owner _ hst).1 _ hheld
      exact absurd (htop l ⟨owner, m'', k', hst⟩) (not_le.mpr habove)
    | idle =>
      rw [h.resting owner fun q hq => by rw [hst] at hq; cases hq] at hheld
      cases hheld
    | returned r =>
      rw [h.resting owner fun q hq => by rw [hst] at hq; cases hq] at hheld
      cases hheld
  exact hnone (proceeds_of_free hj hfree)

end Config

end SystemsProjects.Base
