/-
SystemsProjects.Snake.MbStrings — `mbslen` (src/mbstrings.c).

The loop takes the string apart into groups of a lead byte and its
continuation bytes and counts them (`mbslen_groups`); where no group
begins it returns -1 (`mbslen_no_groups`). It never asks what a group
stands for. So it decides UTF-8 exactly on the strings whose groups, if
they are groups, are all proper (`mbslen_decides_iff`): an overlong form, a
surrogate or a value above U+10FFFF is counted like a character.

A read behind the NUL is a `Fault`. The loop is given as many rounds as
the string has bytes and one more, which is enough.
-/
import SystemsProjects.Base.Fallible
import SystemsProjects.Base.Utf8
import Mathlib.Algebra.Group.Nat.Defs
import Mathlib.Algebra.Group.Int.Defs

namespace SystemsProjects.Snake.MbStrings

open SystemsProjects.Base SystemsProjects.Base.Utf8

/-! ## The source -/

/-- A NUL-terminated string: the bytes before the NUL. With it they are an
object, whose size is a `size_t`. -/
structure CString where
  bytes : List UInt8
  nonzero : ∀ b ∈ bytes, b ≠ 0
  fits : bytes.length + 1 < 2 ^ 64

inductive Fault where
  | outOfBounds
  | outOfFuel
  deriving DecidableEq, Repr

/-- `bytes[i]`. -/
def CString.read (s : CString) (i : Nat) : Except Fault UInt8 :=
  if i < s.bytes.length then .ok (s.bytes.getD i 0)
  else if i = s.bytes.length then .ok 0
  else .error .outOfBounds

/-- `are_remaining_bytes_valid`: its result, and `*curr_p` then. -/
def areRemainingBytesValid (s : CString) : Nat → Nat → Except Fault (Bool × Nat)
  | 0, curr => do
    -- the byte is read before the number is looked at
    let _ ← s.read curr
    return (true, curr)
  | num_to_check + 1, curr => do
    let curr_byte ← s.read curr
    if curr_byte >>> 6 = 0b10 then areRemainingBytesValid s num_to_check (curr + 1)
    else return (false, curr)

/-- How many bytes are to follow a lead byte; `none` for a byte that is
none. -/
def continuations (curr_byte : UInt8) : Option Nat :=
  if curr_byte >>> 7 = 0b0 then some 0
  else if curr_byte >>> 5 = 0b110 then some 1
  else if curr_byte >>> 4 = 0b1110 then some 2
  else if curr_byte >>> 3 = 0b11110 then some 3
  else none

/-- The loop of `mbslen`. -/
def mbslenLoop (s : CString) : Nat → UInt64 → Nat → Except Fault UInt64
  | 0, _, _ => .error .outOfFuel
  | fuel + 1, num_chars, curr => do
    let curr_byte ← s.read curr
    if curr_byte = 0 then return num_chars
    match continuations curr_byte with
    | none => return -1
    | some 0 => mbslenLoop s fuel (num_chars + 1) (curr + 1)
    | some num_to_check =>
      let (valid, curr) ← areRemainingBytesValid s num_to_check (curr + 1)
      if !valid then return -1
      mbslenLoop s fuel (num_chars + 1) curr

/-- `mbslen`; `none` is the null pointer, and -1 is `(size_t)-1`. -/
def mbslen : Option CString → Except Fault UInt64
  | none => .ok (-1)
  | some s => mbslenLoop s (s.bytes.length + 1) 0 0

/-! ## Reading -/

section

variable {s : CString} {pre rest cs : List UInt8} {b : UInt8} {gs : List (List UInt8)}

theorem continuations_eq (b : UInt8) : continuations b = (groupLength b).map (· - 1) := by
  have hall : ∀ n < 256, continuations (UInt8.ofNat n) =
      (groupLength (UInt8.ofNat n)).map (· - 1) := by
    decide +kernel
  have hb := hall b.toNat b.toNat_lt
  rwa [UInt8.ofNat_toNat] at hb

theorem shift_six (b : UInt8) : b >>> 6 = 0b10 ↔ IsCont b := by
  have hall : ∀ n < 256, UInt8.ofNat n >>> 6 = 0b10 ↔ IsCont (UInt8.ofNat n) := by
    decide +kernel
  have hb := hall b.toNat b.toNat_lt
  rwa [UInt8.ofNat_toNat] at hb

theorem read_append (h : s.bytes = pre ++ b :: rest) : s.read pre.length = .ok b := by
  simp [CString.read, h]

theorem read_end (h : s.bytes = pre) : s.read pre.length = .ok 0 := by
  simp [CString.read, h]

/-- The byte at any index up to the NUL can be read. -/
theorem exists_read (h : s.bytes = pre ++ rest) : ∃ b, s.read pre.length = .ok b := by
  cases rest with
  | nil => exact ⟨0, read_end (by rw [h, List.append_nil])⟩
  | cons b rest => exact ⟨b, read_append h⟩

/-- All continuation bytes are there. -/
theorem areRemainingBytesValid_true (h : s.bytes = pre ++ (cs ++ rest))
    (hcs : ∀ c ∈ cs, IsCont c) :
    areRemainingBytesValid s cs.length pre.length = .ok (true, pre.length + cs.length) := by
  induction cs generalizing pre with
  | nil =>
    obtain ⟨b, hb⟩ := exists_read h
    rw [List.length_nil, areRemainingBytesValid, hb]
    rfl
  | cons c cs ih =>
    obtain ⟨hc, hcs⟩ := List.forall_mem_cons.mp hcs
    have hnext : s.bytes = (pre ++ [c]) ++ (cs ++ rest) := by
      rw [h, List.append_assoc, List.singleton_append, List.cons_append]
    have hread := read_append (h.trans (congrArg (pre ++ ·) (List.cons_append)))
    have hrest := ih hnext hcs
    rw [List.length_append, List.length_singleton] at hrest
    rw [List.length_cons, areRemainingBytesValid, hread, ok_bind, if_pos ((shift_six c).mpr hc),
      hrest, Nat.add_assoc, Nat.add_comm 1]

/-- A continuation byte is missing, maybe for the string is at its end. -/
theorem areRemainingBytesValid_false {n : Nat} (h : s.bytes = pre ++ rest)
    (hno : ¬ ∃ cs rest', rest = cs ++ rest' ∧ cs.length = n ∧ ∀ c ∈ cs, IsCont c) :
    ∃ curr, areRemainingBytesValid s n pre.length = .ok (false, curr) := by
  induction n generalizing pre rest with
  | zero => exact absurd ⟨[], rest, rfl, rfl, List.forall_mem_nil _⟩ hno
  | succ n ih =>
    cases rest with
    | nil =>
      have hread := read_end (h.trans (List.append_nil pre))
      rw [areRemainingBytesValid, hread, ok_bind, if_neg (by decide)]
      exact ⟨_, rfl⟩
    | cons c rest =>
      rw [areRemainingBytesValid, read_append h, ok_bind]
      by_cases hc : IsCont c
      · have hnext : s.bytes = (pre ++ [c]) ++ rest := by simp [h]
        have hno' : ¬ ∃ cs rest', rest = cs ++ rest' ∧ cs.length = n ∧ ∀ c ∈ cs, IsCont c := by
          rintro ⟨cs, rest', rfl, rfl, hcs⟩
          exact hno ⟨c :: cs, rest', rfl, rfl, List.forall_mem_cons.mpr ⟨hc, hcs⟩⟩
        have hrest := ih hnext hno'
        rw [List.length_append, List.length_singleton] at hrest
        rwa [if_pos ((shift_six c).mpr hc)]
      · rw [if_neg fun h => hc ((shift_six c).mp h)]
        exact ⟨_, rfl⟩

/-! ## The loop -/

theorem read_lead (h : s.bytes = pre ++ b :: rest) : s.read pre.length = .ok b ∧ b ≠ 0 :=
  ⟨read_append h, s.nonzero b (by simp [h])⟩

/-- A round that finds a group counts it. -/
theorem mbslenLoop_group {g : List UInt8} {fuel : Nat} {num_chars : UInt64}
    (h : s.bytes = pre ++ (g ++ rest)) (hg : IsGroup g) :
    mbslenLoop s (fuel + 1) num_chars pre.length =
      mbslenLoop s fuel (num_chars + 1) (pre.length + g.length) := by
  cases g with
  | nil => exact absurd hg id
  | cons b cs =>
    obtain ⟨hlead, hcs⟩ := hg
    obtain ⟨hread, hne⟩ := read_lead (h.trans (congrArg (pre ++ ·) (List.cons_append)))
    have hmore : continuations b = some cs.length := by rw [continuations_eq, hlead]; rfl
    rw [mbslenLoop, hread, ok_bind, if_neg hne, hmore]
    cases cs with
    | nil => rfl
    | cons c cs =>
      have hnext : s.bytes = (pre ++ [b]) ++ ((c :: cs) ++ rest) := by
        rw [h, List.append_assoc, List.singleton_append, List.cons_append]
      have hvalid := areRemainingBytesValid_true hnext hcs
      rw [List.length_append, List.length_singleton, List.length_cons] at hvalid
      simp only [List.length_cons, hvalid, ok_bind, Bool.not_true, Bool.false_eq_true, if_false]
      rw [Nat.add_assoc, Nat.add_comm 1]

/-- A round that finds none stops the loop. -/
theorem mbslenLoop_no_group {fuel : Nat} {num_chars : UInt64} (h : s.bytes = pre ++ b :: rest)
    (hno : ¬ ∃ cs rest', rest = cs ++ rest' ∧ IsGroup (b :: cs)) :
    mbslenLoop s (fuel + 1) num_chars pre.length = .ok (-1) := by
  obtain ⟨hread, hne⟩ := read_lead h
  rw [mbslenLoop, hread, ok_bind, if_neg hne, continuations_eq]
  cases hlead : groupLength b with
  | none => rfl
  | some n =>
    have hfollow : ¬ ∃ cs rest', rest = cs ++ rest' ∧ cs.length = n - 1 ∧ ∀ c ∈ cs, IsCont c := by
      rintro ⟨cs, rest', hrest, hlength, hcs⟩
      have hpos : n = cs.length + 1 := by
        have := groupLength_pos hlead
        omega
      exact hno ⟨cs, rest', hrest, hlead.trans (congrArg some hpos), hcs⟩
    cases hn : n - 1 with
    | zero =>
      exact absurd ⟨[], rest, rfl, hn.symm, List.forall_mem_nil _⟩ hfollow
    | succ m =>
      have hnext : s.bytes = (pre ++ [b]) ++ rest := by
        rw [h, List.append_assoc, List.singleton_append]
      obtain ⟨curr, hvalid⟩ := areRemainingBytesValid_false hnext (hn ▸ hfollow)
      rw [List.length_append, List.length_singleton] at hvalid
      simp only [Option.map_some, hn, hvalid, ok_bind, Bool.not_false, if_true]
      rfl

/-- Groups are counted up to the NUL. -/
theorem mbslenLoop_groups {fuel : Nat} {num_chars : UInt64} (h : s.bytes = pre ++ gs.flatten)
    (hgs : ∀ g ∈ gs, IsGroup g) (hfuel : gs.length < fuel) :
    mbslenLoop s fuel num_chars pre.length = .ok (num_chars + UInt64.ofNat gs.length) := by
  obtain ⟨fuel, rfl⟩ : ∃ f, fuel = f + 1 := ⟨fuel - 1, by omega⟩
  induction gs generalizing pre fuel num_chars with
  | nil =>
    have hread := read_end (h.trans (List.append_nil pre))
    rw [mbslenLoop, hread, ok_bind, if_pos rfl]
    exact congrArg Except.ok (UInt64.add_zero num_chars).symm
  | cons g gs ih =>
    obtain ⟨hg, hgs⟩ := List.forall_mem_cons.mp hgs
    rw [List.flatten_cons] at h
    have hnext : s.bytes = (pre ++ g) ++ gs.flatten := by rw [h, List.append_assoc]
    rw [List.length_cons] at hfuel
    obtain ⟨fuel, rfl⟩ : ∃ f, fuel = f + 1 := ⟨fuel - 1, by omega⟩
    have hrest : mbslenLoop s (fuel + 1) (num_chars + 1) (pre ++ g).length =
        .ok (num_chars + 1 + UInt64.ofNat gs.length) := ih hnext hgs fuel (by omega)
    rw [List.length_append] at hrest
    rw [mbslenLoop_group h hg, hrest, List.length_cons, UInt64.ofNat_add, UInt64.add_assoc,
      UInt64.add_comm 1]
    rfl

/-- Where the string is no string of groups, the loop comes to a byte where
none begins. -/
theorem mbslenLoop_no_groups {fuel : Nat} {num_chars : UInt64} (h : s.bytes = pre ++ rest)
    (hfuel : rest.length < fuel) (hno : ¬ ∃ gs, Groups rest gs) :
    mbslenLoop s fuel num_chars pre.length = .ok (-1) := by
  induction fuel generalizing pre rest num_chars with
  | zero => exact absurd hfuel (Nat.not_lt_zero _)
  | succ fuel ih =>
    cases rest with
    | nil => exact absurd ⟨[], rfl, List.forall_mem_nil _⟩ hno
    | cons b rest =>
      by_cases hgroup : ∃ cs rest', rest = cs ++ rest' ∧ IsGroup (b :: cs)
      · obtain ⟨cs, rest', rfl, hg⟩ := hgroup
        have hround : s.bytes = pre ++ ((b :: cs) ++ rest') := h
        have hnext : s.bytes = (pre ++ b :: cs) ++ rest' := by rw [hround, List.append_assoc]
        have hno' : ¬ ∃ gs, Groups rest' gs := by
          rintro ⟨gs, hflatten, hgs⟩
          refine hno ⟨(b :: cs) :: gs, ?_, List.forall_mem_cons.mpr ⟨hg, hgs⟩⟩
          rw [List.flatten_cons, ← hflatten, List.cons_append]
        have hshort : rest'.length < fuel := by
          rw [List.length_cons, List.length_append] at hfuel
          omega
        have hrest : mbslenLoop s fuel (num_chars + 1) (pre ++ b :: cs).length = .ok (-1) :=
          ih hnext hshort hno'
        rw [List.length_append] at hrest
        rw [mbslenLoop_group hround hg, hrest]
      · exact mbslenLoop_no_group h hgroup

/-- **`mbslen`** counts the groups of a string of groups. -/
theorem mbslen_groups (h : Groups s.bytes gs) :
    mbslen (some s) = .ok (UInt64.ofNat gs.length) := by
  have hlength := length_le_flatten h.groups
  rw [← h.flatten] at hlength
  have hloop : mbslenLoop s (s.bytes.length + 1) 0 ([] : List UInt8).length =
      .ok (0 + UInt64.ofNat gs.length) :=
    mbslenLoop_groups h.flatten h.groups (Nat.lt_succ_of_le hlength)
  rwa [UInt64.zero_add] at hloop

/-- It returns -1 for every other string. -/
theorem mbslen_no_groups (h : ¬ ∃ gs, Groups s.bytes gs) : mbslen (some s) = .ok (-1) :=
  mbslenLoop_no_groups (List.nil_append _).symm (Nat.lt_succ_self _) h

/-- Every group has a byte of the string, so the count is no wrapped one,
and is not -1. -/
theorem toNat_count (h : Groups s.bytes gs) :
    (UInt64.ofNat gs.length).toNat = gs.length ∧ gs.length < 2 ^ 64 - 1 := by
  have hlength := length_le_flatten h.groups
  rw [← h.flatten] at hlength
  have hfits := s.fits
  have hsmall : gs.length < UInt64.size := by
    simp only [UInt64.size]
    omega
  exact ⟨UInt64.toNat_ofNat_of_lt' hsmall, by omega⟩

/-! ## UTF-8 -/

/-- `mbslen` returns the number of characters of a well-formed string, and
-1 for every other one; it stays within the string and returns. -/
structure Decides (s : CString) : Prop where
  counts : ∀ cs : List Char, s.bytes = cs.flatMap String.utf8EncodeChar →
    ∃ n, mbslen (some s) = .ok n ∧ n.toNat = cs.length
  rejects : ¬ WellFormed s.bytes → mbslen (some s) = .ok (-1)

/-- **`mbslen` decides UTF-8** exactly on the strings that, if they are
strings of groups, have proper ones only. -/
theorem mbslen_decides_iff : Decides s ↔ ∀ gs, Groups s.bytes gs → ∀ g ∈ gs, Proper g := by
  constructor
  · intro hdecides gs hgs
    refine (wellFormed_iff hgs).mp ?_
    by_contra hill
    have hcount := hdecides.rejects hill
    rw [mbslen_groups hgs] at hcount
    obtain ⟨hvalue, hlt⟩ := toNat_count hgs
    rw [Except.ok.inj hcount] at hvalue
    have hmax : (-1 : UInt64).toNat = 2 ^ 64 - 1 := rfl
    omega
  · intro hproper
    refine ⟨fun cs hcs => ?_, fun hill => ?_⟩
    · have hgroups : Groups s.bytes (cs.map String.utf8EncodeChar) := hcs ▸ groups_encode cs
      exact ⟨_, mbslen_groups hgroups, (toNat_count hgroups).1.trans (List.length_map _)⟩
    · refine mbslen_no_groups ?_
      rintro ⟨gs, hgs⟩
      exact hill ((wellFormed_iff hgs).mpr (hproper gs hgs))

end

/-- `C0 80`, which is no UTF-8: two bytes for U+0000. -/
def overlongNul : CString := ⟨[0xC0, 0x80], by simp, by decide⟩

/-- It counts as one character. -/
theorem mbslen_overlong : mbslen (some overlongNul) = .ok 1 ∧ ¬ Decides overlongNul := by
  have hcount : mbslen (some overlongNul) = .ok 1 := rfl
  have hcont : ∀ c ∈ [(0x80 : UInt8)], IsCont c :=
    List.forall_mem_cons.mpr ⟨by decide, List.forall_mem_nil _⟩
  have hgroups : Groups overlongNul.bytes [[0xC0, 0x80]] :=
    ⟨rfl, List.forall_mem_cons.mpr ⟨⟨by decide, hcont⟩, List.forall_mem_nil _⟩⟩
  refine ⟨hcount, fun hdecides => ?_⟩
  have hill : ¬ WellFormed overlongNul.bytes := by
    rw [wellFormed_iff hgroups]
    intro hproper
    exact absurd (hproper _ List.mem_cons_self).shortest (by decide)
  rw [hdecides.rejects hill] at hcount
  cases hcount

end SystemsProjects.Snake.MbStrings
