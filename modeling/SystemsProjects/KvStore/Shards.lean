/-
SystemsProjects.KvStore.Shards — shards of the key space and bucket numbers
(common/shard.hpp, common/shard.cpp).

A bucket is the number of a key, a numeral in base 36 with the letters of
`VALID_CHARS`. `bucket_to_str` and `str_to_bucket` convert with the same
table of powers, each in its own way; on keys of up to four characters
both are the numeral system (`bucketToStr_eq`, `strToBucket_eq`), so keys
compare as strings as their numbers do (`IsKey.lt_iff`).

A read outside `VALID_CHARS`, the table or the array of indices is a
`Fault` here. `size_t` arithmetic is modulo 2^64.
-/
import SystemsProjects.Base.Fallible
import SystemsProjects.Base.Numerals
import SystemsProjects.Net.Messages
import Mathlib.Data.List.GetD

namespace SystemsProjects.KvStore.Sharding

open SystemsProjects.Base SystemsProjects.Base.Numerals
open SystemsProjects.Net (Shard)

/-! ## The source -/

abbrev MAX_GRANULARITY : Nat := 4

/-- `"0123456789ABCDEFGHIJKLMNOPQRSTUVWXYZ"`. -/
def VALID_CHARS : CppString :=
  [48, 49, 50, 51, 52, 53, 54, 55, 56, 57,
   65, 66, 67, 68, 69, 70, 71, 72, 73, 74, 75, 76, 77, 78, 79, 80, 81, 82, 83, 84, 85, 86, 87, 88,
   89, 90]

/-- The number of buckets at each granularity. -/
def GRANULARITY_OPTS : List Nat :=
  (List.range (MAX_GRANULARITY + 1)).map fun granularity => VALID_CHARS.length ^ granularity

/-- How a call can end without a result. -/
inductive Fault where
  | assertion
  | outOfRange
  | runtimeError (what : String)
  deriving DecidableEq, Repr

def assert (p : Prop) [Decidable p] : Except Fault Unit :=
  if p then .ok () else .error .assertion

/-- `std::toupper`. -/
def toupper (c : UInt8) : UInt8 := if 97 ≤ c ∧ c ≤ 122 then c - 32 else c

/-- `a <= b` on `std::string`. -/
def StrLe (a b : CppString) : Prop := ¬ b < a

instance (a b : CppString) : Decidable (StrLe a b) := inferInstanceAs (Decidable (¬ _))

/-- `GRANULARITY_OPTS[i]`. -/
def granularityOpt (i : Nat) : Except Fault Nat :=
  match GRANULARITY_OPTS[i]? with
  | some opt => .ok opt
  | none => .error .outOfRange

/-- `VALID_CHARS[i]`. -/
def validChar (i : Nat) : Except Fault UInt8 :=
  match VALID_CHARS[i]? with
  | some c => .ok c
  | none => .error .outOfRange

/-- The first loop of `bucket_to_str`, with the indices left to find. -/
def bucketIndices : Nat → Nat → Except Fault (List Nat)
  | 0, _ => .ok []
  | left + 1, n_left => do
    let opt ← granularityOpt left
    let indices ← bucketIndices left (n_left % opt)
    return n_left / opt :: indices

/-- The second loop. -/
def indicesToStr : List Nat → Except Fault CppString
  | [] => .ok []
  | index :: indices => do
    let c ← validChar index
    let res ← indicesToStr indices
    return c :: res

/-- `bucket_to_str`; its array has room for `MAX_GRANULARITY` indices. -/
def bucketToStr (bucket granularity : Nat) : Except Fault CppString :=
  if granularity ≤ MAX_GRANULARITY then do
    let indices ← bucketIndices granularity bucket
    indicesToStr indices
  else .error .outOfRange

/-- The loop of `str_to_bucket`; the granularity of what is left of the
string is its length. -/
def strToBucketLoop : CppString → Nat → Except Fault Nat
  | [], bucket => .ok bucket
  | c :: rest, bucket => do
    let idx := VALID_CHARS.idxOf (toupper c)
    assert (idx < VALID_CHARS.length)
    let opt ← granularityOpt rest.length
    strToBucketLoop rest ((bucket + idx * opt) % 2 ^ 64)

def strToBucket (s : CppString) : Except Fault Nat := strToBucketLoop s 0

/-- `Shard::granularity`. -/
def granularity (shard : Shard) : Except Fault Nat := do
  assert (shard.lower.length = shard.upper.length)
  return shard.lower.length

/-- `Shard::contains`. -/
def contains (shard : Shard) (s : CppString) : Except Fault Bool := do
  let g ← granularity shard
  return decide (StrLe shard.lower (s.take g) ∧ StrLe (s.take g) shard.upper)

/-! ## Keys -/

/-- A key of `g` characters. -/
structure IsKey (g : Nat) (s : CppString) : Prop where
  length : s.length = g
  valid : ∀ c ∈ s, c ∈ VALID_CHARS

instance {g : Nat} {s : CppString} : Decidable (IsKey g s) :=
  decidable_of_iff (s.length = g ∧ s.all VALID_CHARS.contains = true)
    ⟨fun h => ⟨h.1, by simpa using h.2⟩, fun h => ⟨h.length, by simpa using h.valid⟩⟩

/-- The digit of a character. -/
def charIndex (c : UInt8) : Nat := VALID_CHARS.idxOf c

/-- The character of a digit. -/
def letter (d : Nat) : UInt8 := VALID_CHARS.getD d 0

/-- The number of a key. -/
def number (s : CppString) : Nat := value 36 (s.map charIndex)

/-- The key of `g` characters with a number. -/
def keyOf (g n : Nat) : CppString := (digits 36 g n).map letter

section

variable {g n m : Nat} {s t : CppString} {c : UInt8}

theorem charIndex_lt (h : c ∈ VALID_CHARS) : charIndex c < 36 := List.idxOf_lt_length_of_mem h

theorem letter_mem {d : Nat} (h : d < 36) : letter d ∈ VALID_CHARS := by
  have hlen : d < VALID_CHARS.length := h
  rw [letter, List.getD_eq_getElem _ _ hlen]
  exact List.getElem_mem hlen

theorem letter_charIndex (h : c ∈ VALID_CHARS) : letter (charIndex c) = c := by
  rw [letter, charIndex, List.getD_eq_getElem _ _ (List.idxOf_lt_length_of_mem h),
    List.getElem_idxOf]

theorem charIndex_letter {d : Nat} (h : d < 36) : charIndex (letter d) = d := by
  have hall : ∀ d < 36, charIndex (letter d) = d := by decide
  exact hall d h

theorem letter_lt_iff : ∀ d < 36, ∀ e < 36, letter d < letter e ↔ d < e := by decide +kernel

theorem letter_inj : ∀ d < 36, ∀ e < 36, letter d = letter e → d = e := by
  intro d hd e he h
  rw [← charIndex_letter hd, h, charIndex_letter he]

theorem toupper_valid (h : c ∈ VALID_CHARS) : toupper c = c := by
  have hall : VALID_CHARS.all (fun c => toupper c == c) = true := by decide
  exact eq_of_beq (List.all_eq_true.mp hall c h)

theorem IsKey.indices (h : IsKey g s) : ∀ d ∈ s.map charIndex, d < 36 := by
  intro d hd
  obtain ⟨c, hc, rfl⟩ := List.mem_map.mp hd
  exact charIndex_lt (h.valid c hc)

theorem IsKey.map_letter (h : IsKey g s) : (s.map charIndex).map letter = s := by
  rw [List.map_map]
  refine (List.map_congr_left fun c hc => ?_).trans (List.map_id s)
  exact letter_charIndex (h.valid c hc)

theorem IsKey.number_lt (h : IsKey g s) : number s < 36 ^ g := by
  have hlt := value_lt h.indices
  rwa [List.length_map, h.length] at hlt

theorem isKey_keyOf (hn : n < 36 ^ g) : IsKey g (keyOf g n) where
  length := by rw [keyOf, List.length_map, length_digits]
  valid := by
    intro c hc
    obtain ⟨d, hd, rfl⟩ := List.mem_map.mp hc
    exact letter_mem (digits_lt (by decide) hn d hd)

@[simp] theorem number_keyOf (hn : n < 36 ^ g) : number (keyOf g n) = n := by
  have hmap : ((digits 36 g n).map letter).map charIndex = digits 36 g n := by
    rw [List.map_map]
    refine (List.map_congr_left fun d hd => ?_).trans (List.map_id _)
    exact charIndex_letter (digits_lt (by decide) hn d hd)
  rw [number, keyOf, hmap, value_digits hn]

theorem IsKey.keyOf_number (h : IsKey g s) : keyOf g (number s) = s := by
  have hdigits := digits_value h.indices
  rw [List.length_map, h.length] at hdigits
  rw [keyOf, number, hdigits, h.map_letter]

/-- **Keys of one length compare as their numbers do.** -/
theorem IsKey.lt_iff (hs : IsKey g s) (ht : IsKey g t) : s < t ↔ number s < number t := by
  have hlen : (s.map charIndex).length = (t.map charIndex).length := by
    rw [List.length_map, List.length_map, hs.length, ht.length]
  rw [number, number, value_lt_iff hlen hs.indices ht.indices,
    ← map_lt_iff letter_lt_iff letter_inj hs.indices ht.indices, hs.map_letter, ht.map_letter]

theorem IsKey.le_iff (hs : IsKey g s) (ht : IsKey g t) : StrLe s t ↔ number s ≤ number t := by
  rw [StrLe, ht.lt_iff hs, Nat.not_lt]

theorem IsKey.number_inj (hs : IsKey g s) (ht : IsKey g t) : number s = number t ↔ s = t := by
  refine ⟨fun h => ?_, congrArg number⟩
  rw [← hs.keyOf_number, h, ht.keyOf_number]

/-! ## Both conversions -/

theorem granularityOpt_eq (h : g ≤ MAX_GRANULARITY) : granularityOpt g = .ok (36 ^ g) := by
  have hall : ∀ g ≤ 4, granularityOpt g = .ok (36 ^ g) := by decide
  exact hall g h

theorem bucketIndices_eq (h : g ≤ MAX_GRANULARITY + 1) :
    bucketIndices g n = .ok (digits 36 g n) := by
  induction g generalizing n with
  | zero => rfl
  | succ g ih =>
    rw [bucketIndices, granularityOpt_eq (Nat.le_of_succ_le_succ h), ok_bind,
      ih (Nat.le_of_succ_le h)]
    rfl

theorem indicesToStr_eq {ds : List Nat} (h : ∀ d ∈ ds, d < 36) :
    indicesToStr ds = .ok (ds.map letter) := by
  induction ds with
  | nil => rfl
  | cons d ds ih =>
    obtain ⟨hd, hds⟩ := List.forall_mem_cons.mp h
    have hchar : validChar d = .ok (letter d) := by
      have hlen : d < VALID_CHARS.length := hd
      rw [validChar, List.getElem?_eq_getElem hlen, letter, List.getD_eq_getElem _ _ hlen]
    rw [indicesToStr, hchar, ok_bind, ih hds]
    rfl

/-- **`bucket_to_str`** writes the numeral of a bucket. -/
theorem bucketToStr_eq (hg : g ≤ MAX_GRANULARITY) (hn : n < 36 ^ g) :
    bucketToStr n g = .ok (keyOf g n) := by
  rw [bucketToStr, if_pos hg, bucketIndices_eq (Nat.le_succ_of_le hg), ok_bind,
    indicesToStr_eq (digits_lt (by decide) hn)]
  rfl

/-- A bucket that is too large makes it read outside `VALID_CHARS`. -/
theorem bucketToStr_large (hpos : 0 < g) (hg : g ≤ MAX_GRANULARITY) (hn : 36 ^ g ≤ n) :
    bucketToStr n g = .error .outOfRange := by
  obtain ⟨g, rfl⟩ : ∃ g', g = g' + 1 := ⟨g - 1, (Nat.succ_pred_eq_of_pos hpos).symm⟩
  have hfirst : ¬ n / 36 ^ g < VALID_CHARS.length := by
    rw [Nat.not_lt, Nat.le_div_iff_mul_le (Nat.pow_pos (by decide)), Nat.mul_comm]
    rwa [Nat.pow_succ] at hn
  have hchar : validChar (n / 36 ^ g) = .error .outOfRange := by
    rw [validChar, List.getElem?_eq_none (Nat.not_lt.mp hfirst)]
  rw [bucketToStr, if_pos hg, bucketIndices_eq (Nat.le_succ_of_le hg), ok_bind, digits,
    indicesToStr,
    hchar]
  rfl

theorem strToBucketLoop_eq {bucket : Nat} (h : IsKey g s) (hg : g ≤ MAX_GRANULARITY + 1)
    (hlt : bucket + number s < 2 ^ 64) : strToBucketLoop s bucket = .ok (bucket + number s) := by
  induction s generalizing g bucket with
  | nil => rfl
  | cons c rest ih =>
    obtain ⟨hc, hvalid⟩ := List.forall_mem_cons.mp h.valid
    have hlen : rest.length ≤ MAX_GRANULARITY := by
      have hlength := h.length
      rw [List.length_cons] at hlength
      omega
    have hnumber : number (c :: rest) = charIndex c * 36 ^ rest.length + number rest := by
      rw [number, List.map_cons, value, List.length_map, number]
    rw [hnumber] at hlt
    have hidx : VALID_CHARS.idxOf c < VALID_CHARS.length := charIndex_lt hc
    rw [strToBucketLoop, toupper_valid hc, assert, if_pos hidx, granularityOpt_eq hlen,
      ok_bind, ok_bind,
      show VALID_CHARS.idxOf c = charIndex c from rfl,
      Nat.mod_eq_of_lt (by omega), ih ⟨rfl, hvalid⟩ (Nat.le_succ_of_le hlen) (by omega), hnumber,
      Nat.add_assoc]

/-- **`str_to_bucket`** reads a key as a numeral. -/
theorem strToBucket_eq (h : IsKey g s) (hg : g ≤ MAX_GRANULARITY) :
    strToBucket s = .ok (number s) := by
  have hpow : 36 ^ g ≤ 36 ^ 4 := Nat.pow_le_pow_right (by decide) hg
  have hlt := h.number_lt
  rw [strToBucket, strToBucketLoop_eq h (Nat.le_succ_of_le hg) (by omega), Nat.zero_add]

/-! ## Bucket numbers and keys -/

theorem toupper_toupper (c : UInt8) : toupper (toupper c) = toupper c := by
  have hall : ∀ n < 256, toupper (toupper (UInt8.ofNat n)) = toupper (UInt8.ofNat n) := by
    decide +kernel
  have hc := hall c.toNat c.toNat_lt
  rwa [UInt8.ofNat_toNat] at hc

theorem strToBucketLoop_upper (s : CppString) (bucket : Nat) :
    strToBucketLoop (s.map toupper) bucket = strToBucketLoop s bucket := by
  induction s generalizing bucket with
  | nil => rfl
  | cons c rest ih =>
    simp only [List.map_cons, strToBucketLoop, toupper_toupper, List.length_map, ih]

/-- The case of the letters does not change the bucket. -/
theorem strToBucket_upper (s : CppString) : strToBucket (s.map toupper) = strToBucket s :=
  strToBucketLoop_upper s 0

/-- The buckets below `36 ^ g` and the keys of `g` characters correspond to
each other, in order. -/
structure BucketsAreKeys (g : Nat) : Prop where
  str_of_bucket : ∀ b < 36 ^ g, ∃ s, bucketToStr b g = .ok s ∧ IsKey g s ∧ strToBucket s = .ok b
  bucket_of_str : ∀ s, IsKey g s → ∃ b < 36 ^ g, strToBucket s = .ok b ∧ bucketToStr b g = .ok s
  ordered : ∀ b < 36 ^ g, ∀ c < 36 ^ g, ∃ s t,
    bucketToStr b g = .ok s ∧ bucketToStr c g = .ok t ∧ (b < c ↔ s < t)
  any_case : ∀ s t, IsKey g (s.map toupper) → t.map toupper = s.map toupper →
    ∃ b < 36 ^ g, strToBucket s = .ok b ∧ strToBucket t = .ok b

/-- **Bucket numbers and shard keys are order-isomorphic**, whatever the
granularity. -/
theorem buckets_are_keys (hg : g ≤ MAX_GRANULARITY) : BucketsAreKeys g where
  str_of_bucket := by
    intro b hb
    have hread := strToBucket_eq (isKey_keyOf hb) hg
    rw [number_keyOf hb] at hread
    exact ⟨keyOf g b, bucketToStr_eq hg hb, isKey_keyOf hb, hread⟩
  bucket_of_str := by
    intro s hs
    have hwrite := bucketToStr_eq hg hs.number_lt
    rw [hs.keyOf_number] at hwrite
    exact ⟨number s, hs.number_lt, strToBucket_eq hs hg, hwrite⟩
  ordered := by
    intro b hb c hc
    have hlt := (isKey_keyOf hb).lt_iff (isKey_keyOf hc)
    rw [number_keyOf hb, number_keyOf hc] at hlt
    exact ⟨keyOf g b, keyOf g c, bucketToStr_eq hg hb, bucketToStr_eq hg hc, hlt.symm⟩
  any_case := by
    intro s t hs hts
    have hread := strToBucket_eq hs hg
    refine ⟨number (s.map toupper), hs.number_lt, ?_, ?_⟩
    · rw [← strToBucket_upper, hread]
    · rw [← strToBucket_upper, hts, hread]

theorem buckets_are_keys_three : 3 ≤ MAX_GRANULARITY ∧ BucketsAreKeys 3 :=
  ⟨by decide, buckets_are_keys (by decide)⟩

end

end SystemsProjects.KvStore.Sharding
