/-
SystemsProjects.Base.ByteMemory — flat byte-addressed memory with
little-endian words.

Every store is an instance of `update`, which replaces the bytes of one
range; a read depends only on the bytes of its range (`read_congr`), so
one disjointness lemma (`read_update_of_disjoint`) serves them all.

Nothing here names the programs of this repository.
-/
import Mathlib.Data.Nat.Basic
import Mathlib.Algebra.Group.Nat.Defs
import Mathlib.Algebra.Group.Int.Defs

namespace SystemsProjects.Base

/-- A byte at every address. -/
abbrev ByteMem := Nat → UInt8

namespace ByteMem

/-! ## Stores -/

/-- Replace the `n` bytes from address `a`; `data i` is the byte at offset
`i`. -/
def update (mem : ByteMem) (a n : Nat) (data : Nat → UInt8) : ByteMem :=
  fun b => if a ≤ b ∧ b < a + n then data (b - a) else mem b

/-- Byte `i` of a little-endian word. -/
def byteAt (v i : Nat) : UInt8 := UInt8.ofNat (v / 256 ^ i)

/-- Store an `n`-byte word. -/
def write (mem : ByteMem) (a n v : Nat) : ByteMem := mem.update a n (byteAt v)

/-- `memset`. -/
def fill (mem : ByteMem) (a n : Nat) (c : UInt8) : ByteMem := mem.update a n fun _ => c

/-- `memcpy`. -/
def copy (mem : ByteMem) (dst src n : Nat) : ByteMem := mem.update dst n fun i => mem (src + i)

/-- Store a list of bytes. -/
def store (mem : ByteMem) (a : Nat) (data : List UInt8) : ByteMem :=
  mem.update a data.length fun i => data.getD i 0

/-- Two ranges share no address. -/
def Disjoint (a n b m : Nat) : Prop := a + n ≤ b ∨ b + m ≤ a

instance (a n b m : Nat) : Decidable (Disjoint a n b m) :=
  inferInstanceAs (Decidable (_ ∨ _))

theorem Disjoint.symm {a n b m : Nat} (h : Disjoint a n b m) : Disjoint b m a n := Or.symm h

variable {mem mem' : ByteMem} {a n b m : Nat} {data : Nat → UInt8}

theorem update_inside (h : a ≤ b) (h' : b < a + n) : mem.update a n data b = data (b - a) :=
  if_pos ⟨h, h'⟩

theorem update_offset {i : Nat} (h : i < n) : mem.update a n data (a + i) = data i := by
  rw [update_inside (Nat.le_add_right a i) (Nat.add_lt_add_left h a), Nat.add_sub_cancel_left]

theorem update_outside (h : b < a ∨ a + n ≤ b) : mem.update a n data b = mem b := by
  refine if_neg fun hb => ?_
  omega

theorem write_outside {v : Nat} (h : b < a ∨ a + n ≤ b) : mem.write a n v b = mem b :=
  update_outside h

theorem fill_outside {c : UInt8} (h : b < a ∨ a + n ≤ b) : mem.fill a n c b = mem b :=
  update_outside h

theorem store_outside {data : List UInt8} (h : b < a ∨ a + data.length ≤ b) :
    mem.store a data b = mem b :=
  update_outside h

/-! ## Reads -/

/-- The `n`-byte word at address `a`. -/
def read (mem : ByteMem) (a : Nat) : Nat → Nat
  | 0 => 0
  | n + 1 => (mem a).toNat + 256 * mem.read (a + 1) n

theorem read_congr (h : ∀ i < n, mem (a + i) = mem' (b + i)) : mem.read a n = mem'.read b n := by
  induction n generalizing a b with
  | zero => rfl
  | succ n ih =>
    have h0 : mem a = mem' b := h 0 (Nat.succ_pos n)
    have hrest : ∀ i < n, mem (a + 1 + i) = mem' (b + 1 + i) := by
      intro i hi
      rw [Nat.add_assoc, Nat.add_comm 1 i, Nat.add_assoc, Nat.add_comm 1 i]
      exact h (i + 1) (Nat.succ_lt_succ hi)
    rw [read, read, h0, ih hrest]

theorem read_update_of_disjoint (h : Disjoint b m a n) :
    (mem.update b m data).read a n = mem.read a n := by
  refine read_congr fun i hi => update_outside ?_
  unfold Disjoint at h
  omega

theorem read_update_of_subrange (h : a ≤ b) (h' : b + m ≤ a + n) :
    (mem.update a n data).read b m = read (fun c => data (c - a)) b m :=
  read_congr fun i hi => update_inside (by omega) (by omega)

/-- Smaller bytes, a smaller word. -/
theorem read_le (h : ∀ i < n, (mem (a + i)).toNat ≤ (mem' (a + i)).toNat) :
    mem.read a n ≤ mem'.read a n := by
  induction n generalizing a with
  | zero => exact Nat.le_refl 0
  | succ n ih =>
    have h0 : (mem a).toNat ≤ (mem' a).toNat := h 0 (Nat.succ_pos n)
    have hrest : mem.read (a + 1) n ≤ mem'.read (a + 1) n := by
      refine ih fun i hi => ?_
      rw [Nat.add_assoc, Nat.add_comm 1 i]
      exact h (i + 1) (Nat.succ_lt_succ hi)
    rw [read, read]
    omega

/-- A memory that holds the bytes of a value reads as the value, cut to
the width of the word. -/
theorem read_of_bytes {v : Nat} (h : ∀ i < n, mem (a + i) = byteAt v i) :
    mem.read a n = v % 256 ^ n := by
  induction n generalizing a v with
  | zero => rw [Nat.pow_zero, Nat.mod_one]; rfl
  | succ n ih =>
    have h0 : (mem a).toNat = v % 256 := by
      rw [show mem a = byteAt v 0 from h 0 (Nat.succ_pos n), byteAt, Nat.pow_zero, Nat.div_one,
        UInt8.toNat_ofNat']
    have hrest : mem.read (a + 1) n = v / 256 % 256 ^ n := by
      refine ih fun i hi => ?_
      rw [Nat.add_assoc, Nat.add_comm 1 i, h (i + 1) (Nat.succ_lt_succ hi), byteAt, byteAt,
        Nat.div_div_eq_div_mul, Nat.pow_succ']
    rw [read, h0, hrest, Nat.pow_succ', Nat.mod_mul]

/-- A word that reads as a value has the value's bytes. -/
theorem byte_of_read {v : Nat} (h : mem.read a n = v) {i : Nat} (hi : i < n) :
    mem (a + i) = byteAt v i := by
  subst h
  induction n generalizing a i with
  | zero => omega
  | succ n ih =>
    have hlow : (mem a).toNat < 256 := UInt8.toNat_lt _
    rw [read]
    cases i with
    | zero =>
      apply UInt8.toNat.inj
      rw [Nat.add_zero, byteAt, Nat.pow_zero, Nat.div_one, UInt8.toNat_ofNat']
      omega
    | succ i =>
      have hdiv : ((mem a).toNat + 256 * mem.read (a + 1) n) / 256 = mem.read (a + 1) n := by
        omega
      rw [show a + (i + 1) = a + 1 + i by omega, ih (by omega), byteAt, byteAt, Nat.pow_succ',
        ← Nat.div_div_eq_div_mul, hdiv]

theorem read_write_mod (v : Nat) : (mem.write a n v).read a n = v % 256 ^ n :=
  read_of_bytes fun _ hi => update_offset hi

theorem read_write {v : Nat} (hv : v < 256 ^ n) : (mem.write a n v).read a n = v := by
  rw [read_write_mod, Nat.mod_eq_of_lt hv]

theorem read_write_of_disjoint {v : Nat} (h : Disjoint b m a n) :
    (mem.write b m v).read a n = mem.read a n :=
  read_update_of_disjoint h

theorem read_zero (a n : Nat) : read (fun _ => 0) a n = 0 := by
  induction n generalizing a with
  | zero => rfl
  | succ n ih => rw [read, ih]; rfl

theorem read_fill_zero (h : a ≤ b) (h' : b + m ≤ a + n) : (mem.fill a n 0).read b m = 0 := by
  rw [fill, read_update_of_subrange h h', read_zero]

end ByteMem

end SystemsProjects.Base
