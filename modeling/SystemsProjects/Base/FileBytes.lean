/-
SystemsProjects.Base.FileBytes — the contents of a regular file as a
sequence, with the two operations a positioned `read` and `write`
perform on it.

  §1 `slice`      — the elements a read of `n` at `off` returns (short at
                    the end of the sequence).
  §2 `overwrite`  — a write at `off`; a gap between the end of the
                    sequence and `off` is filled with `z`, and writing
                    nothing changes nothing.

Every law is proved through the pointwise characterisation
`getElem?_overwrite`, so no proof has to shuffle `take`/`drop`/`++`.
-/
import Mathlib.Data.List.Basic

namespace SystemsProjects.Base

variable {α : Type}

/-! ## §1 Slices -/

/-- The elements of `d` at positions `off`, …, `off + n - 1` that exist. -/
def slice (d : List α) (off n : Nat) : List α := (d.drop off).take n

theorem length_slice (d : List α) (off n : Nat) :
    (slice d off n).length = min n (d.length - off) := by
  simp [slice]

theorem length_slice_of_le {d : List α} {off n : Nat} (h : off + n ≤ d.length) :
    (slice d off n).length = n := by
  rw [length_slice]; omega

theorem getElem?_slice (d : List α) (off n i : Nat) :
    (slice d off n)[i]? = if i < n then d[off + i]? else none := by
  simp only [slice, List.getElem?_take, List.getElem?_drop]

theorem slice_zero (d : List α) (n : Nat) : slice d 0 n = d.take n := by
  simp [slice]

/-- A read splits at any point below its length. -/
theorem slice_append (d : List α) (off m n : Nat) (h : off + m ≤ d.length) :
    slice d off m ++ slice d (off + m) n = slice d off (m + n) := by
  apply List.ext_getElem?
  intro i
  rw [List.getElem?_append, length_slice_of_le h]
  simp only [getElem?_slice]
  by_cases him : i < m
  · simp [him, Nat.lt_add_right n him]
  · have : off + m + (i - m) = off + i := by omega
    by_cases hin : i < m + n
    · simp [him, this, hin, show i - m < n by omega]
    · simp [him, hin, show ¬ i - m < n by omega]

/-! ## §2 Overwriting -/

/-- Write `data` at `off`, filling a gap with `z`. -/
def overwrite (z : α) (d : List α) (off : Nat) (data : List α) : List α :=
  if data = [] then d
  else (d ++ List.replicate (off - d.length) z).take off ++ data ++ d.drop (off + data.length)

@[simp] theorem overwrite_nil (z : α) (d : List α) (off : Nat) : overwrite z d off [] = d := by
  simp [overwrite]

theorem length_overwrite (z : α) (d : List α) (off : Nat) {data : List α} (h : data ≠ []) :
    (overwrite z d off data).length = max d.length (off + data.length) := by
  simp only [overwrite, if_neg h, List.length_append, List.length_take, List.length_replicate,
    List.length_drop]
  omega

/-- Data that fits leaves the length alone. -/
theorem length_overwrite_inside (z : α) {d data : List α} {off : Nat}
    (h : off + data.length ≤ d.length) : (overwrite z d off data).length = d.length := by
  rcases eq_or_ne data [] with rfl | hne
  · rw [overwrite_nil]
  · rw [length_overwrite _ _ _ hne]
    omega

/-- A write over the whole file leaves what was written. -/
theorem overwrite_all (z : α) {d data : List α} (h : data.length = d.length) :
    overwrite z d 0 data = data := by
  rw [overwrite]
  split
  · rename_i hnil
    rw [hnil] at h ⊢
    exact List.eq_nil_of_length_eq_zero h.symm
  · rw [List.drop_eq_nil_of_le (by omega), List.append_nil]
    simp

/-- The value of every position after a write. -/
theorem getElem?_overwrite (z : α) (d : List α) (off : Nat) (data : List α) (i : Nat)
    (h : data ≠ []) :
    (overwrite z d off data)[i]? =
      if i < off then some (d.getD i z)
      else if i < off + data.length then data[i - off]?
      else d[i]? := by
  have hpre : ((d ++ List.replicate (off - d.length) z).take off).length = off := by
    simp only [List.length_take, List.length_append, List.length_replicate]
    omega
  simp only [overwrite, if_neg h, List.append_assoc]
  rw [List.getElem?_append, hpre]
  split
  · rename_i hi
    rw [List.getElem?_take, if_pos hi, List.getElem?_append]
    split
    · rename_i hd
      simp [List.getD, List.getElem?_eq_getElem hd]
    · rename_i hd
      have hrep : i - d.length < off - d.length := by omega
      simp [List.getD, List.getElem?_eq_none (Nat.le_of_not_lt hd), hrep]
  · rename_i hi
    rw [List.getElem?_append]
    by_cases hin : i - off < data.length
    · rw [if_pos hin, if_pos (by omega)]
    · rw [if_neg hin, if_neg (by omega), List.getElem?_drop]
      congr 1
      omega

/-- Two writes whose second starts where the first ends are one write. -/
theorem overwrite_append (z : α) (d : List α) (off : Nat) (a b : List α) :
    overwrite z (overwrite z d off a) (off + a.length) b = overwrite z d off (a ++ b) := by
  rcases eq_or_ne a [] with rfl | ha
  · simp
  rcases eq_or_ne b [] with rfl | hb
  · simp
  apply List.ext_getElem?
  intro i
  have hab : a ++ b ≠ [] := by simp [ha]
  rw [getElem?_overwrite _ _ _ _ _ hb, getElem?_overwrite _ _ _ _ _ hab]
  simp only [List.getD_eq_getElem?_getD, getElem?_overwrite _ _ _ _ _ ha, List.length_append,
    List.getElem?_append]
  by_cases h1 : i < off
  · simp [h1, Nat.lt_add_right _ h1]
  by_cases h2 : i < off + a.length
  · have h3 : i - off < a.length := by omega
    simp [h1, h2, h3, show i < off + (a.length + b.length) by omega]
  · have h3 : ¬ i - off < a.length := by omega
    simp only [h1, h2, h3, if_false, Nat.add_assoc]
    split
    · congr 1; omega
    · rfl

/-- Writing back what is there changes nothing. -/
theorem overwrite_slice_self (z : α) (d : List α) (off n : Nat) :
    overwrite z d off (slice d off n) = d := by
  rcases eq_or_ne (slice d off n) [] with he | hne
  · rw [he, overwrite_nil]
  have hpos : 0 < (slice d off n).length := List.length_pos_iff.mpr hne
  rw [length_slice] at hpos
  apply List.ext_getElem?
  intro i
  rw [getElem?_overwrite _ _ _ _ _ hne, length_slice]
  by_cases h1 : i < off
  · have : i < d.length := by omega
    simp [h1, List.getD, List.getElem?_eq_getElem this]
  · simp only [h1, if_false]
    split
    · rw [getElem?_slice, if_pos (by omega)]
      congr 1; omega
    · rfl

/-- Reading inside what was just written. -/
theorem slice_overwrite_self (z : α) (d : List α) (off : Nat) (data : List α) :
    slice (overwrite z d off data) off data.length = data := by
  rcases eq_or_ne data [] with rfl | hne
  · simp [slice]
  apply List.ext_getElem?
  intro i
  rw [getElem?_slice, getElem?_overwrite _ _ _ _ _ hne]
  have hge : ¬ off + i < off := by omega
  by_cases hi : i < data.length
  · simp [hi, hge]
  · simp [hi]

end SystemsProjects.Base
