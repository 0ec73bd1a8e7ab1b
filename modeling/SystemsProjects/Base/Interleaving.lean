/-
SystemsProjects.Base.Interleaving — runs of a system of threads.

The system is a function from a state and an action to the next state, if
the action is possible there. `Runs.keeps_unless` and `Runs.keeps` are the
induction over a run, and `Runs.length_le` the bound on one whose steps take work off, but for some
that put a part of it back. `sum_update` is the work of a family of threads
when one of them moves.

Nothing here names the programs of this repository.
-/
import Mathlib.Algebra.BigOperators.Group.Finset.Basic
import Mathlib.Data.List.Count
import Mathlib.Logic.Function.Basic

namespace SystemsProjects.Base

variable {S A : Type}

/-- The runs, with their actions. -/
inductive Runs (step : S → A → Option S) : S → List A → S → Prop
  | nil (s : S) : Runs step s [] s
  | cons {s s' s'' : S} {a : A} {as : List A} (h : step s a = some s') (hs : Runs step s' as s'') :
    Runs step s (a :: as) s''

variable {step : S → A → Option S} {I : S → Prop} {s s' : S} {as : List A}

/-- What every step keeps, but for those that are told apart. -/
theorem Runs.keeps_unless (ends : A → Prop) (h : Runs step s as s')
    (hstep : ∀ s a s', I s → step s a = some s' → ends a ∨ I s') (hs : I s) :
    (∃ a ∈ as, ends a) ∨ I s' := by
  induction h with
  | nil => exact .inr hs
  | cons ha _ ih =>
    rcases hstep _ _ _ hs ha with hend | hs
    · exact .inl ⟨_, List.mem_cons_self, hend⟩
    · exact (ih hs).imp_left fun ⟨a, hmem, hend⟩ => ⟨a, List.mem_cons_of_mem _ hmem, hend⟩

theorem Runs.keeps (h : Runs step s as s')
    (hstep : ∀ s a s', I s → step s a = some s' → I s') (hs : I s) : I s' :=
  (h.keeps_unless (fun _ => False) (fun s a s' hs ha => .inr (hstep s a s' hs ha)) hs)
    |>.resolve_left fun ⟨_, _, hend⟩ => hend

theorem Runs.length_le {work : S → Nat} {back : A → Bool} {k : Nat} (h : Runs step s as s')
    (hstep : ∀ s a s', I s → step s a = some s' → I s')
    (hwork : ∀ s a s', I s → step s a = some s' →
      work s' + 1 ≤ work s + if back a then k else 0)
    (hs : I s) : as.length + work s' ≤ work s + k * as.countP back := by
  induction h with
  | nil => simp
  | @cons s s₁ s' a as ha _ ih =>
    have hrest := ih (hstep _ _ _ hs ha)
    have hfirst := hwork _ _ _ hs ha
    rw [List.length_cons, List.countP_cons, Nat.mul_add]
    cases hback : back a <;>
      simp only [hback, if_true, if_false, Bool.false_eq_true] at hfirst ⊢ <;> omega

theorem sum_update {α : Type} (work : α → Nat) (f : Nat → α) {i n : Nat} (hi : i < n) (a : α) :
    ∑ j ∈ Finset.range n, work (Function.update f i a j) + work (f i) =
      ∑ j ∈ Finset.range n, work (f j) + work a := by
  have hmem : i ∈ Finset.range n := Finset.mem_range.mpr hi
  rw [← Finset.add_sum_erase _ _ hmem, ← Finset.add_sum_erase _ (fun j => work (f j)) hmem,
    Function.update_self]
  have hrest : ∑ j ∈ (Finset.range n).erase i, work (Function.update f i a j) =
      ∑ j ∈ (Finset.range n).erase i, work (f j) :=
    Finset.sum_congr rfl fun j hj => by rw [Function.update_of_ne (Finset.ne_of_mem_erase hj)]
  omega

end SystemsProjects.Base
