/-
SystemsProjects.Base.EvenSplit — a range of numbers split into parts that
differ by one at most, the larger parts first.

Part `i` of `n` starts at `start N n i`; every number below `N` is in
exactly one part (`existsUnique_part`).

Nothing here names the programs of this repository.
-/
import Mathlib.Algebra.Group.Nat.Defs
import Mathlib.Algebra.Order.Ring.Nat
import Mathlib.Logic.ExistsUnique
import Mathlib.Order.Monotone.Basic

namespace SystemsProjects.Base.EvenSplit

/-- How many of the numbers below `N` part `i` of `n` has. -/
def partSize (N n i : Nat) : Nat := N / n + if i < N % n then 1 else 0

/-- Where part `i` of `n` starts. -/
def start (N n i : Nat) : Nat := i * (N / n) + min i (N % n)

variable {N n i j x : Nat}

@[simp] theorem start_zero : start N n 0 = 0 := by
  rw [start, Nat.zero_mul, Nat.zero_min]

theorem start_succ (N n i : Nat) : start N n (i + 1) = start N n i + partSize N n i := by
  rw [start, start, partSize, Nat.succ_mul]
  split <;> omega

/-- The parts are all of the range. -/
theorem start_last (hn : 0 < n) : start N n n = N := by
  have hlt := Nat.mod_lt N hn
  rw [start, Nat.min_eq_right (Nat.le_of_lt hlt)]
  exact Nat.div_add_mod N n

/-- No part is empty if there are enough numbers. -/
theorem partSize_pos (hn : 0 < n) (h : n ≤ N) : 0 < partSize N n i :=
  Nat.lt_of_lt_of_le (Nat.div_pos h hn) (Nat.le_add_right _ _)

/-- Two parts differ by one at most. -/
theorem partSize_le (N n i j : Nat) : partSize N n i ≤ partSize N n j + 1 := by
  unfold partSize
  split <;> split <;> omega

theorem start_mono (N n : Nat) : Monotone (start N n) :=
  monotone_nat_of_le_succ fun i => by
    rw [start_succ]
    exact Nat.le_add_right _ _

/-- Every number below `N` is in exactly one part. -/
theorem existsUnique_part (hn : 0 < n) (hx : x < N) :
    ∃! i, i < n ∧ start N n i ≤ x ∧ x < start N n (i + 1) := by
  have hexists : ∀ m, x < start N n m → ∃ i < m, start N n i ≤ x ∧ x < start N n (i + 1) := by
    intro m
    induction m with
    | zero =>
      intro hlt
      rw [start_zero] at hlt
      exact absurd hlt (Nat.not_lt_zero x)
    | succ m ih =>
      intro hlt
      by_cases hm : x < start N n m
      · obtain ⟨i, hi, hpart⟩ := ih hm
        exact ⟨i, Nat.lt_succ_of_lt hi, hpart⟩
      · exact ⟨m, Nat.lt_succ_self m, Nat.not_lt.mp hm, hlt⟩
  have hle : ∀ i j, start N n i ≤ x → x < start N n (j + 1) → i ≤ j := by
    intro i j hi hj
    by_contra hlt
    have hmono := start_mono N n (Nat.succ_le_of_lt (Nat.lt_of_not_le hlt))
    exact absurd (Nat.lt_of_lt_of_le hj (Nat.le_trans hmono hi)) (Nat.lt_irrefl x)
  obtain ⟨i, hi, hlow, hhigh⟩ := hexists n (by rw [start_last hn]; exact hx)
  refine ⟨i, ⟨hi, hlow, hhigh⟩, ?_⟩
  rintro j ⟨-, hlow', hhigh'⟩
  exact Nat.le_antisymm (hle j i hlow' hhigh) (hle i j hlow hhigh')

end SystemsProjects.Base.EvenSplit
