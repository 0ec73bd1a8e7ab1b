/-
SystemsProjects.Base.FlagTable — a table of flag words in memory.

Each word is 32 bits wide and says which of a number of facts hold of one
item; a program sets flags by OR and looks for the lowest that is set.
`Flags` reads the table as a relation between items and bits, so setting
flags is adding to the relation (`Flags.setFlags`).

Nothing here names the programs of this repository.
-/
import SystemsProjects.Base.ByteMemory
import Mathlib.Data.Nat.Bitwise

namespace SystemsProjects.Base

/-! ## The lowest bit -/

/-- One plus the index of the lowest set bit among the first `w`, or 0 if
none of them is set. -/
def ffs (w x : Nat) : Nat :=
  match (List.range w).find? fun i => x.testBit i with
  | none => 0
  | some i => i + 1

section

variable {w x i : Nat}

theorem ffs_of_lowest (hi : i < w) (hset : x.testBit i = true)
    (hlow : ∀ j < i, x.testBit j = false) : ffs w x = i + 1 := by
  have hfind : (List.range w).find? (fun i => x.testBit i) = some i := by
    refine List.find?_range_eq_some.mpr ⟨hset, List.mem_range.mpr hi, fun j hj => ?_⟩
    rw [hlow j hj]
    rfl
  rw [ffs, hfind]

theorem ffs_of_zero (hx : ∀ i < w, x.testBit i = false) : ffs w x = 0 := by
  have hfind : (List.range w).find? (fun i => x.testBit i) = none := by
    refine List.find?_eq_none.mpr fun i hi => ?_
    rw [hx i (List.mem_range.mp hi)]
    exact Bool.false_ne_true
  rw [ffs, hfind]

end

/-! ## The table -/

namespace ByteMem

/-- `v[i] |= flags`, for the table of words at `v`. -/
def setFlags (mem : ByteMem) (v i flags : Nat) : ByteMem :=
  mem.write (v + 4 * i) 4 (mem.read (v + 4 * i) 4 ||| flags)

/-- Of the first `n` words of the table at `v`, word `i` has bit `b` set
if `S i b`. -/
def Flags (mem : ByteMem) (v n : Nat) (S : Nat → Nat → Prop) : Prop :=
  ∀ i < n, ∀ b, (mem.read (v + 4 * i) 4).testBit b = true ↔ S i b

variable {mem mem' : ByteMem} {v n i a flags : Nat} {S S' : Nat → Nat → Prop}

theorem read_lt (mem : ByteMem) (a n : Nat) : mem.read a n < 256 ^ n := by
  induction n generalizing a with
  | zero => exact Nat.one_pos
  | succ n ih =>
    have hbyte : (mem a).toNat < 256 := UInt8.toNat_lt _
    have hrest := ih (a + 1)
    rw [read, Nat.pow_succ']
    omega

theorem setFlags_outside (h : a < v + 4 * i ∨ v + 4 * i + 4 ≤ a) :
    mem.setFlags v i flags a = mem a :=
  write_outside h

theorem Flags.congr (h : Flags mem v n S) (hS : ∀ i < n, ∀ b, S i b ↔ S' i b) :
    Flags mem v n S' :=
  fun i hi b => (h i hi b).trans (hS i hi b)

/-- A cleared table has no flags. -/
theorem flags_fill_zero (mem : ByteMem) (v n : Nat) :
    Flags (mem.fill v (n * 4) 0) v n fun _ _ => False := by
  intro i hi b
  rw [read_fill_zero (by omega) (by omega), Nat.zero_testBit]
  exact iff_of_false Bool.false_ne_true id

/-- **Setting flags** adds them to those of the item. -/
theorem Flags.setFlags (h : Flags mem v n S) (hf : flags < 2 ^ 32) (i : Nat) :
    Flags (mem.setFlags v i flags) v n fun j b => S j b ∨ j = i ∧ flags.testBit b = true := by
  intro j hj b
  rw [ByteMem.setFlags]
  by_cases hji : j = i
  · subst hji
    have hword : mem.read (v + 4 * j) 4 < 2 ^ 32 := mem.read_lt (v + 4 * j) 4
    have hor : mem.read (v + 4 * j) 4 ||| flags < 256 ^ 4 := Nat.or_lt_two_pow hword hf
    rw [read_write hor, Nat.testBit_or, Bool.or_eq_true, h j hj b]
    simp only [true_and]
  · rw [read_write_of_disjoint (by unfold Disjoint; omega), h j hj b]
    simp only [hji, false_and, or_false]

end ByteMem

end SystemsProjects.Base
