/-
SystemsProjects.Base.Strides — a sequence as a matrix of rows, read by
columns.

Rows are `stride` elements long and cut into pieces of `width`; the last
row and the last piece of a row may be shorter. `strided` takes the first
piece of every row, then the second piece of every row, and so on. Every
element is taken once (`strided_perm`).
-/
import SystemsProjects.Base.FileBytes
import Mathlib.Data.List.Infix
import Mathlib.Data.List.Perm.Basic

namespace SystemsProjects.Base

variable {α β : Type}

/-- How many pieces of `width` it takes for `n`. -/
def pieces (n width : Nat) : Nat := (n + width - 1) / width

theorem lt_pieces {n width k : Nat} (h : 0 < width) : k < pieces n width ↔ k * width < n := by
  rw [pieces, Nat.lt_iff_add_one_le, Nat.le_div_iff_mul_le h, Nat.succ_mul]
  omega

/-- Pieces one after the other are the whole. -/
theorem flatMap_pieces (d : List α) (off n : Nat) {width : Nat} (h : 0 < width) :
    (List.range (pieces n width)).flatMap
        (fun k => slice d (off + k * width) (min width (n - k * width))) = slice d off n := by
  have hfirst : ∀ c, (List.range c).flatMap
      (fun k => slice d (off + k * width) (min width (n - k * width))) =
        slice d off (min n (c * width)) := by
    intro c
    induction c with
    | zero => rw [Nat.zero_mul, Nat.min_zero, slice, List.take_zero, List.range_zero,
        List.flatMap_nil]
    | succ c ih =>
      rw [List.range_succ, List.flatMap_append, ih, List.flatMap_singleton, Nat.succ_mul]
      by_cases hc : n ≤ c * width
      · rw [Nat.sub_eq_zero_of_le hc, Nat.min_zero, Nat.min_eq_left hc,
          Nat.min_eq_left (Nat.le_add_right_of_le hc), slice, slice, List.take_zero,
          List.append_nil]
      · rw [Nat.min_eq_right (by omega), slice, slice, ← List.drop_drop, ← List.take_add, slice]
        congr 1
        omega
  rw [hfirst, Nat.min_eq_left]
  have hlast := (lt_pieces (n := n) (k := pieces n width) h).not.mp (Nat.lt_irrefl _)
  omega

theorem flatMap_perm_comm (l : List α) (m : List β) {γ : Type} (f : α → β → List γ) :
    (l.flatMap fun a => m.flatMap (f a)).Perm (m.flatMap fun b => l.flatMap fun a => f a b) := by
  induction l with
  | nil => simp
  | cons a l ih =>
    simp only [List.flatMap_cons]
    exact ((List.Perm.refl _).append ih).trans (List.flatMap_append_perm m (f a) _)

/-- The piece at column `c` of row `r`. -/
def piece (d : List α) (stride width c r : Nat) : List α :=
  slice d (r * stride + c) (min width (stride - c))

/-- The pieces at column `c` of all rows. -/
def column (d : List α) (stride width c : Nat) : List α :=
  (List.range (pieces d.length stride)).flatMap (piece d stride width c)

def strided (d : List α) (stride width : Nat) : List α :=
  (List.range (pieces stride width)).flatMap fun k => column d stride width (k * width)

theorem strided_perm (d : List α) {stride width : Nat} (hs : 0 < stride) (hw : 0 < width) :
    (strided d stride width).Perm d := by
  have hrows := flatMap_pieces d 0 d.length hs
  have hrow : ∀ r ∈ List.range (pieces d.length stride),
      (List.range (pieces stride width)).flatMap
          (fun k => piece d stride width (k * width) r) =
        slice d (0 + r * stride) (min stride (d.length - r * stride)) := by
    intro r _
    rw [Nat.zero_add]
    refine (flatMap_pieces d (r * stride) stride hw).trans ?_
    rw [slice, slice, List.take_eq_take_iff, List.length_drop]
    omega
  calc strided d stride width
      _ = _ := rfl
      List.Perm _ ((List.range (pieces d.length stride)).flatMap fun r =>
          (List.range (pieces stride width)).flatMap fun k =>
            piece d stride width (k * width) r) :=
        flatMap_perm_comm _ _ fun k r => piece d stride width (k * width) r
      _ = slice d 0 d.length := (List.flatMap_congr hrow).trans hrows
      _ = d := by rw [slice_zero, List.take_length]

/-! ## On the way -/

/-- The pieces read after `q` whole columns and `r` rows of the next. -/
def stridedUpTo (d : List α) (stride width q r : Nat) : List α :=
  ((List.range q).flatMap fun k => column d stride width (k * width)) ++
    (List.range r).flatMap (piece d stride width (q * width))

variable {d : List α} {stride width q r : Nat}

theorem stridedUpTo_row : stridedUpTo d stride width q (r + 1) =
    stridedUpTo d stride width q r ++ piece d stride width (q * width) r := by
  rw [stridedUpTo, List.range_succ, List.flatMap_append, List.flatMap_singleton,
    ← List.append_assoc]
  rfl

theorem flatMap_range_of_nil {f : Nat → List β} {a b : Nat} (hab : a ≤ b)
    (h : ∀ k, a ≤ k → f k = []) : (List.range b).flatMap f = (List.range a).flatMap f := by
  obtain ⟨n, rfl⟩ := Nat.exists_eq_add_of_le hab
  rw [List.range_add, List.flatMap_append]
  have hrest : ((List.range n).map (a + ·)).flatMap f = [] := by
    rw [List.flatMap_eq_nil_iff]
    intro k hk
    obtain ⟨j, -, rfl⟩ := List.mem_map.mp hk
    exact h _ (Nat.le_add_right a j)
  rw [hrest, List.append_nil]

theorem slice_of_le {off n : Nat} (h : d.length ≤ off) : slice d off n = [] := by
  rw [slice, List.drop_eq_nil_of_le h, List.take_nil]

/-- A column that has come to the end of the sequence is done. -/
theorem column_eq {c : Nat} (hs : 0 < stride) (h : d.length ≤ r * stride + c) :
    (List.range r).flatMap (piece d stride width c) = column d stride width c := by
  have hrest : ∀ k, r ≤ k → piece d stride width c k = [] := by
    intro k hk
    have := Nat.mul_le_mul_right stride hk
    exact slice_of_le (by omega)
  have hpast : ∀ k, pieces d.length stride ≤ k → piece d stride width c k = [] := by
    intro k hk
    have hk := (lt_pieces (n := d.length) (k := k) hs).not.mp (by omega)
    exact slice_of_le (by omega)
  rw [column, ← flatMap_range_of_nil (Nat.le_add_right r (pieces d.length stride)) hrest,
    ← flatMap_range_of_nil (Nat.le_add_left (pieces d.length stride) r) hpast]

theorem stridedUpTo_column (hs : 0 < stride) (h : d.length ≤ r * stride + q * width) :
    stridedUpTo d stride width q r = stridedUpTo d stride width (q + 1) 0 := by
  rw [stridedUpTo, column_eq hs h, stridedUpTo, List.range_succ, List.flatMap_append,
    List.flatMap_singleton, List.range_zero, List.flatMap_nil, List.append_nil]

/-- All columns past the end of the sequence or of the rows are empty. -/
theorem stridedUpTo_all (hw : 0 < width) (h : d.length ≤ q * width ∨ stride ≤ q * width) :
    stridedUpTo d stride width q 0 = strided d stride width := by
  have hempty : ∀ k, d.length ≤ k * width ∨ stride ≤ k * width →
      column d stride width (k * width) = [] := by
    intro k hk
    rw [column, List.flatMap_eq_nil_iff]
    intro j _
    rcases hk with hk | hk
    · exact slice_of_le (by omega)
    · rw [piece, Nat.sub_eq_zero_of_le hk, Nat.min_zero, slice, List.take_zero]
  have hrest : ∀ k, q ≤ k → column d stride width (k * width) = [] := by
    intro k hk
    have := Nat.mul_le_mul_right width hk
    exact hempty k (by omega)
  have hpast : ∀ k, pieces stride width ≤ k → column d stride width (k * width) = [] := by
    intro k hk
    have hk := (lt_pieces (n := stride) (k := k) hw).not.mp (by omega)
    exact hempty k (.inr (by omega))
  rw [stridedUpTo, List.range_zero, List.flatMap_nil, List.append_nil, strided,
    ← flatMap_range_of_nil (Nat.le_add_right q (pieces stride width)) hrest,
    ← flatMap_range_of_nil (Nat.le_add_left (pieces stride width) q) hpast]

theorem length_stridedUpTo_le (hs : 0 < stride) (hw : 0 < width) (hq : q * width < stride)
    (hr : r ≤ pieces d.length stride) : (stridedUpTo d stride width q r).length ≤ d.length := by
  have hrows : (List.range r).flatMap (piece d stride width (q * width)) <+:
      column d stride width (q * width) := by
    refine List.IsPrefix.flatMap ?_ _
    obtain ⟨n, hn⟩ := Nat.exists_eq_add_of_le hr
    rw [hn, List.range_add]
    exact List.prefix_append _ _
  have hcols : (List.range (q + 1)).flatMap (fun k => column d stride width (k * width)) <+:
      strided d stride width := by
    refine List.IsPrefix.flatMap ?_ _
    obtain ⟨n, hn⟩ := Nat.exists_eq_add_of_le ((lt_pieces (n := stride) (k := q) hw).mpr hq)
    rw [hn, List.range_add (n := q.succ)]
    exact List.prefix_append _ _
  rw [List.range_succ, List.flatMap_append, List.flatMap_singleton] at hcols
  have h₁ := hrows.length_le
  have h₂ := hcols.length_le
  have h₃ := (strided_perm d hs hw).length_eq
  rw [List.length_append] at h₂
  rw [stridedUpTo, List.length_append]
  omega

end SystemsProjects.Base
