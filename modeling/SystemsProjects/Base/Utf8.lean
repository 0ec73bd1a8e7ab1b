/-
SystemsProjects.Base.Utf8 — the bit shapes of UTF-8 and the scalar values.

A group is a lead byte with as many continuation bytes as its leading ones
announce. A byte string is divided into groups in at most one way
(`flatten_inj`). The encoding of a character is a group, and a group is
one exactly if it is `Proper`: it carries a Unicode scalar value, and none
that fits into fewer bytes (`IsGroup.proper_iff`). So a string of groups is
well-formed exactly if all of them are proper (`wellFormed_iff`).

Nothing here names the programs of this repository.
-/
import Mathlib.Data.List.Basic

namespace SystemsProjects.Base.Utf8

/-! ## Groups -/

/-- How many bytes the group of a lead byte has. -/
def groupLength (b : UInt8) : Option Nat :=
  if b.toNat < 0x80 then some 1
  else if 0xC0 ≤ b.toNat ∧ b.toNat < 0xE0 then some 2
  else if 0xE0 ≤ b.toNat ∧ b.toNat < 0xF0 then some 3
  else if 0xF0 ≤ b.toNat ∧ b.toNat < 0xF8 then some 4
  else none

/-- A continuation byte. -/
def IsCont (b : UInt8) : Prop := 0x80 ≤ b.toNat ∧ b.toNat < 0xC0

instance (b : UInt8) : Decidable (IsCont b) := inferInstanceAs (Decidable (_ ∧ _))

def IsGroup : List UInt8 → Prop
  | [] => False
  | b :: cs => groupLength b = some (cs.length + 1) ∧ ∀ c ∈ cs, IsCont c

/-- The bits of a group behind its markers. -/
def payload : List UInt8 → Nat
  | [a] => a.toNat
  | [a, b] => a.toNat % 32 * 64 + b.toNat % 64
  | [a, b, c] => a.toNat % 16 * 4096 + b.toNat % 64 * 64 + c.toNat % 64
  | [a, b, c, d] =>
    a.toNat % 8 * 262144 + b.toNat % 64 * 4096 + c.toNat % 64 * 64 + d.toNat % 64
  | _ => 0

/-- The least value that needs so many bytes. -/
def least : Nat → Nat
  | 2 => 0x80
  | 3 => 0x800
  | 4 => 0x10000
  | _ => 0

/-- The group carries a scalar value, in no more bytes than it needs. -/
structure Proper (g : List UInt8) : Prop where
  scalar : (payload g).isValidChar
  shortest : least g.length ≤ payload g

/-- The bytes encode a sequence of Unicode scalar values. -/
def WellFormed (bytes : List UInt8) : Prop :=
  ∃ cs : List Char, bytes = cs.flatMap String.utf8EncodeChar

/-- The bytes are these groups, one behind the other. -/
structure Groups (bytes : List UInt8) (gs : List (List UInt8)) : Prop where
  flatten : bytes = gs.flatten
  groups : ∀ g ∈ gs, IsGroup g

section

variable {g : List UInt8} {gs gs' : List (List UInt8)} {bytes : List UInt8}

theorem groupLength_one {b : UInt8} (h : b.toNat < 0x80) : groupLength b = some 1 := if_pos h

theorem groupLength_two {b : UInt8} (hlow : 0xC0 ≤ b.toNat) (hhigh : b.toNat < 0xE0) :
    groupLength b = some 2 := by
  rw [groupLength, if_neg (by omega), if_pos ⟨hlow, hhigh⟩]

theorem groupLength_three {b : UInt8} (hlow : 0xE0 ≤ b.toNat) (hhigh : b.toNat < 0xF0) :
    groupLength b = some 3 := by
  rw [groupLength, if_neg (by omega), if_neg (by omega), if_pos ⟨hlow, hhigh⟩]

theorem groupLength_four {b : UInt8} (hlow : 0xF0 ≤ b.toNat) (hhigh : b.toNat < 0xF8) :
    groupLength b = some 4 := by
  rw [groupLength, if_neg (by omega), if_neg (by omega), if_neg (by omega), if_pos ⟨hlow, hhigh⟩]

theorem groupLength_pos {b : UInt8} {n : Nat} (h : groupLength b = some n) : 0 < n := by
  rw [groupLength] at h
  split_ifs at h <;> cases h <;> decide

/-- The four shapes of a group. -/
theorem IsGroup.cases (h : IsGroup g) :
    (∃ a, g = [a] ∧ a.toNat < 0x80) ∨
    (∃ a b, g = [a, b] ∧ (0xC0 ≤ a.toNat ∧ a.toNat < 0xE0) ∧ IsCont b) ∨
    (∃ a b c, g = [a, b, c] ∧ (0xE0 ≤ a.toNat ∧ a.toNat < 0xF0) ∧ IsCont b ∧ IsCont c) ∨
    ∃ a b c d, g = [a, b, c, d] ∧ (0xF0 ≤ a.toNat ∧ a.toNat < 0xF8) ∧
      IsCont b ∧ IsCont c ∧ IsCont d := by
  cases g with
  | nil => exact absurd h id
  | cons a cs =>
    obtain ⟨hlead, hcs⟩ := h
    rw [groupLength] at hlead
    split_ifs at hlead with h1 h2 h3 h4
    · obtain rfl := List.eq_nil_of_length_eq_zero (Nat.succ.inj (Option.some.inj hlead)).symm
      exact .inl ⟨a, rfl, h1⟩
    · obtain ⟨b, rfl⟩ := List.length_eq_one_iff.mp (Nat.succ.inj (Option.some.inj hlead)).symm
      exact .inr (.inl ⟨a, b, rfl, h2, hcs b (by simp)⟩)
    · obtain ⟨b, c, rfl⟩ := List.length_eq_two.mp (Nat.succ.inj (Option.some.inj hlead)).symm
      exact .inr (.inr (.inl ⟨a, b, c, rfl, h3, hcs b (by simp), hcs c (by simp)⟩))
    · obtain ⟨b, c, d, rfl⟩ := List.length_eq_three.mp (Nat.succ.inj (Option.some.inj hlead)).symm
      exact .inr (.inr (.inr
        ⟨a, b, c, d, rfl, h4, hcs b (by simp), hcs c (by simp), hcs d (by simp)⟩))

theorem toNat_ofNat {n : Nat} (h : n < 256) : (UInt8.ofNat n).toNat = n := by
  rw [UInt8.toNat_ofNat', Nat.mod_eq_of_lt h]

theorem isCont_ofNat (n : Nat) : IsCont (UInt8.ofNat (n % 0x40 + 0x80)) := by
  rw [IsCont, toNat_ofNat (by omega)]
  omega

/-- The encoding of a character is a group. -/
theorem isGroup_utf8EncodeChar (c : Char) : IsGroup (String.utf8EncodeChar c) := by
  simp only [String.utf8EncodeChar]
  split_ifs with h1 h2 h3
  · have hlead := toNat_ofNat (show c.val.toNat < 256 by omega)
    exact ⟨groupLength_one (by omega), List.forall_mem_nil _⟩
  · have hlead := toNat_ofNat (show c.val.toNat / 64 % 0x20 + 0xc0 < 256 by omega)
    exact ⟨groupLength_two (by omega) (by omega),
      List.forall_mem_cons.mpr ⟨isCont_ofNat _, List.forall_mem_nil _⟩⟩
  · have hlead := toNat_ofNat (show c.val.toNat / 4096 % 0x10 + 0xe0 < 256 by omega)
    exact ⟨groupLength_three (by omega) (by omega),
      List.forall_mem_cons.mpr ⟨isCont_ofNat _,
        List.forall_mem_cons.mpr ⟨isCont_ofNat _, List.forall_mem_nil _⟩⟩⟩
  · have hlead := toNat_ofNat (show c.val.toNat / 262144 % 0x08 + 0xf0 < 256 by omega)
    exact ⟨groupLength_four (by omega) (by omega),
      List.forall_mem_cons.mpr ⟨isCont_ofNat _, List.forall_mem_cons.mpr ⟨isCont_ofNat _,
        List.forall_mem_cons.mpr ⟨isCont_ofNat _, List.forall_mem_nil _⟩⟩⟩⟩

/-- The encoding of a character carries its value, in the fewest bytes. -/
theorem proper_utf8EncodeChar (c : Char) : Proper (String.utf8EncodeChar c) := by
  have hvalid := c.valid
  have hpayload : payload (String.utf8EncodeChar c) = c.val.toNat ∧
      least (String.utf8EncodeChar c).length ≤ c.val.toNat := by
    simp only [UInt32.isValidChar, Nat.isValidChar] at hvalid
    simp only [String.utf8EncodeChar]
    split_ifs with h1 h2 h3
    · rw [payload, toNat_ofNat (by omega)]
      exact ⟨rfl, Nat.zero_le _⟩
    · rw [payload, toNat_ofNat (by omega), toNat_ofNat (by omega)]
      exact ⟨by omega, show 0x80 ≤ c.val.toNat by omega⟩
    · rw [payload, toNat_ofNat (by omega), toNat_ofNat (by omega), toNat_ofNat (by omega)]
      exact ⟨by omega, show 0x800 ≤ c.val.toNat by omega⟩
    · rw [payload, toNat_ofNat (by omega), toNat_ofNat (by omega), toNat_ofNat (by omega),
        toNat_ofNat (by omega)]
      exact ⟨by omega, show 0x10000 ≤ c.val.toNat by omega⟩
  exact ⟨hpayload.1.symm ▸ hvalid, hpayload.1.symm ▸ hpayload.2⟩

theorem byte_eq {b : UInt8} {n : Nat} (h : b.toNat = n) : b = UInt8.ofNat n := by
  rw [← h, UInt8.ofNat_toNat]

/-- A proper group is the encoding of the character with its value. -/
theorem IsGroup.eq_encode (h : IsGroup g) (hp : Proper g) :
    ∃ c, g = String.utf8EncodeChar c := by
  obtain ⟨hscalar, hshort⟩ := hp
  have hlt : payload g < 2 ^ 32 := by
    simp only [Nat.isValidChar] at hscalar
    omega
  have hval : (UInt32.ofNat (payload g)).toNat = payload g := UInt32.toNat_ofNat_of_lt' hlt
  refine ⟨⟨UInt32.ofNat (payload g), by rwa [UInt32.isValidChar, hval]⟩, ?_⟩
  simp only [String.utf8EncodeChar, hval]
  rcases h.cases with ⟨a, rfl, ha⟩ | ⟨a, b, rfl, ha, hb⟩ | ⟨a, b, c, rfl, ha, hb, hc⟩ |
    ⟨a, b, c, d, rfl, ha, hb, hc, hd⟩
  · rw [payload, if_pos (by omega), UInt8.ofNat_toNat]
  · simp only [IsCont] at hb
    have hleast : 0x80 ≤ payload [a, b] := hshort
    rw [payload] at hleast
    rw [payload, if_neg (by omega), if_pos (by omega)]
    exact List.cons_eq_cons.mpr ⟨byte_eq (by omega), congrArg (fun x => [x]) (byte_eq (by omega))⟩
  · simp only [IsCont] at hb hc
    have hleast : 0x800 ≤ payload [a, b, c] := hshort
    rw [payload] at hleast
    rw [payload, if_neg (by omega), if_neg (by omega), if_pos (by omega)]
    exact List.cons_eq_cons.mpr ⟨byte_eq (by omega), List.cons_eq_cons.mpr
      ⟨byte_eq (by omega), congrArg (fun x => [x]) (byte_eq (by omega))⟩⟩
  · simp only [IsCont] at hb hc hd
    have hleast : 0x10000 ≤ payload [a, b, c, d] := hshort
    rw [payload] at hleast
    rw [payload, if_neg (by omega), if_neg (by omega), if_neg (by omega)]
    exact List.cons_eq_cons.mpr ⟨byte_eq (by omega), List.cons_eq_cons.mpr ⟨byte_eq (by omega),
      List.cons_eq_cons.mpr ⟨byte_eq (by omega), congrArg (fun x => [x]) (byte_eq (by omega))⟩⟩⟩

/-- **The proper groups are the encodings of characters.** -/
theorem IsGroup.proper_iff (h : IsGroup g) : Proper g ↔ ∃ c, g = String.utf8EncodeChar c := by
  refine ⟨h.eq_encode, ?_⟩
  rintro ⟨c, rfl⟩
  exact proper_utf8EncodeChar c

/-! ## Strings of groups -/

theorem IsGroup.pos (h : IsGroup g) : 0 < g.length := by
  cases g with
  | nil => exact absurd h id
  | cons a cs => exact Nat.succ_pos _

/-- Two groups that a string may begin with are the same. -/
theorem IsGroup.eq_of_append {g' rest rest' : List UInt8} (h : IsGroup g) (h' : IsGroup g')
    (heq : g ++ rest = g' ++ rest') : g = g' ∧ rest = rest' := by
  cases g with
  | nil => exact absurd h id
  | cons a cs =>
    cases g' with
    | nil => exact absurd h' id
    | cons a' cs' =>
      obtain ⟨rfl, -⟩ := List.cons.inj heq
      have hlength : (a :: cs).length = (a :: cs').length :=
        Option.some.inj (h.1.symm.trans h'.1)
      exact List.append_inj heq hlength

/-- **A string is divided into groups in one way.** -/
theorem flatten_inj (h : ∀ g ∈ gs, IsGroup g) (h' : ∀ g ∈ gs', IsGroup g)
    (heq : gs.flatten = gs'.flatten) : gs = gs' := by
  induction gs generalizing gs' with
  | nil =>
    cases gs' with
    | nil => rfl
    | cons g' gs' =>
      have hpos := (h' g' List.mem_cons_self).pos
      have hlength := congrArg List.length heq
      simp only [List.flatten_nil, List.length_nil, List.flatten_cons, List.length_append]
        at hlength
      omega
  | cons g gs ih =>
    cases gs' with
    | nil =>
      have hpos := (h g List.mem_cons_self).pos
      have hlength := congrArg List.length heq
      simp only [List.flatten_nil, List.length_nil, List.flatten_cons, List.length_append]
        at hlength
      omega
    | cons g' gs' =>
      obtain ⟨hg, hgs⟩ := List.forall_mem_cons.mp h
      obtain ⟨hg', hgs'⟩ := List.forall_mem_cons.mp h'
      rw [List.flatten_cons, List.flatten_cons] at heq
      obtain ⟨rfl, hrest⟩ := hg.eq_of_append hg' heq
      rw [ih hgs hgs' hrest]

/-- The groups of an encoded string are the encodings of its characters. -/
theorem groups_encode (cs : List Char) :
    Groups (cs.flatMap String.utf8EncodeChar) (cs.map String.utf8EncodeChar) where
  flatten := List.flatMap_def
  groups := by
    intro g hg
    obtain ⟨c, -, rfl⟩ := List.mem_map.mp hg
    exact isGroup_utf8EncodeChar c

theorem Groups.unique (h : Groups bytes gs) (h' : Groups bytes gs') : gs = gs' :=
  flatten_inj h.groups h'.groups (h.flatten.symm.trans h'.flatten)

/-- **A string of groups is well-formed exactly if all of them are proper.** -/
theorem wellFormed_iff (h : Groups bytes gs) : WellFormed bytes ↔ ∀ g ∈ gs, Proper g := by
  constructor
  · rintro ⟨cs, rfl⟩
    obtain rfl := h.unique (groups_encode cs)
    intro g hg
    obtain ⟨c, -, hc⟩ := List.mem_map.mp hg
    exact (h.groups g hg).proper_iff.mpr ⟨c, hc.symm⟩
  · intro hproper
    obtain ⟨hflatten, hgroups⟩ := h
    subst hflatten
    induction gs with
    | nil => exact ⟨[], rfl⟩
    | cons g gs ih =>
      obtain ⟨hg, hgs⟩ := List.forall_mem_cons.mp hgroups
      obtain ⟨hpg, hpgs⟩ := List.forall_mem_cons.mp hproper
      obtain ⟨c, rfl⟩ := hg.proper_iff.mp hpg
      obtain ⟨cs, hcs⟩ := ih hpgs hgs
      exact ⟨c :: cs, by rw [List.flatten_cons, hcs, List.flatMap_cons]⟩

theorem length_le_flatten (h : ∀ g ∈ gs, IsGroup g) : gs.length ≤ gs.flatten.length := by
  induction gs with
  | nil => exact Nat.le_refl 0
  | cons g gs ih =>
    obtain ⟨hg, hgs⟩ := List.forall_mem_cons.mp h
    have hpos := hg.pos
    have hrest := ih hgs
    rw [List.flatten_cons, List.length_append, List.length_cons]
    omega

end

end SystemsProjects.Base.Utf8
