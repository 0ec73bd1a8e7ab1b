/-
SystemsProjects.KvStore.ShardSplitting — `split_shard` and `get_overlap`
(common/shard.cpp).

By their numbers the keys of a shard are an interval. `split_shard` cuts it
in front of the number of its second part (`splitShard_eq`); the cut is
inside exactly if both parts get a key. Where it is not, the assertions
still pass: the code then asks for a bucket below 0 or above the last one,
or returns a shard without keys.
-/
import SystemsProjects.KvStore.Shards
import Mathlib.Data.Set.Basic

namespace SystemsProjects.KvStore.Sharding

open SystemsProjects.Base
open SystemsProjects.Net (Shard)

/-! ## The source -/

/-- `split_shard` at a key. -/
def splitShard (shard : Shard) (at_ : CppString) (first : Bool) : Except Fault (Shard × Shard) := do
  assert (shard.lower ≠ shard.upper)
  assert (StrLe shard.lower at_ ∧ StrLe at_ shard.upper)
  let pos ← strToBucket at_
  let g ← granularity shard
  -- `pos - !first` and `pos + first`
  let lower_upper ← bucketToStr ((pos + (2 ^ 64 - if first then 0 else 1)) % 2 ^ 64) g
  let upper_lower ← bucketToStr ((pos + if first then 1 else 0) % 2 ^ 64) g
  return (⟨shard.lower, lower_upper⟩, ⟨upper_lower, shard.upper⟩)

inductive OverlapStatus where
  | noOverlap
  | overlapStart
  | overlapEnd
  | completelyContains
  | completelyContained
  deriving DecidableEq, Repr

def getOverlap (a b : Shard) : Except Fault OverlapStatus :=
  if a.upper < b.lower ∨ b.upper < a.lower then .ok .noOverlap
  else if StrLe b.lower a.lower ∧ StrLe a.upper b.upper then .ok .completelyContained
  else if a.lower < b.lower ∧ b.upper < a.upper then .ok .completelyContains
  else if StrLe b.lower a.lower ∧ b.upper < a.upper then .ok .overlapStart
  else if a.lower < b.lower ∧ StrLe a.upper b.upper then .ok .overlapEnd
  else .error (.runtimeError "bad case in get_overlap\n")

/-! ## The keys of a shard -/

/-- A shard of keys of `g` characters. -/
structure IsShard (g : Nat) (shard : Shard) : Prop where
  lower : IsKey g shard.lower
  upper : IsKey g shard.upper
  le : StrLe shard.lower shard.upper

/-- The keys of `g` characters between the bounds. -/
def keys (g : Nat) (shard : Shard) : Set CppString :=
  {k | IsKey g k ∧ StrLe shard.lower k ∧ StrLe k shard.upper}

section

variable {g m : Nat} {shard a b : Shard} {at_ k : CppString} {first : Bool}

theorem mem_keys (hlower : IsKey g shard.lower) (hupper : IsKey g shard.upper) :
    k ∈ keys g shard ↔
      IsKey g k ∧ number shard.lower ≤ number k ∧ number k ≤ number shard.upper := by
  refine and_congr_right fun hk => ?_
  rw [hlower.le_iff hk, hk.le_iff hupper]

theorem IsShard.mem_keys (h : IsShard g shard) :
    k ∈ keys g shard ↔
      IsKey g k ∧ number shard.lower ≤ number k ∧ number k ≤ number shard.upper :=
  Sharding.mem_keys h.lower h.upper

theorem IsShard.number_le (h : IsShard g shard) : number shard.lower ≤ number shard.upper :=
  (h.lower.le_iff h.upper).mp h.le

/-- The keys from the lower bound up to number `m`. -/
theorem IsShard.below (h : IsShard g shard) (hm : m < 36 ^ g) (hle : number shard.lower ≤ m) :
    IsShard g ⟨shard.lower, keyOf g m⟩ ∧ ∀ k, k ∈ keys g ⟨shard.lower, keyOf g m⟩ ↔
      IsKey g k ∧ number shard.lower ≤ number k ∧ number k ≤ m := by
  have hkey := isKey_keyOf hm
  refine ⟨⟨h.lower, hkey, (h.lower.le_iff hkey).mpr (by rw [number_keyOf hm]; exact hle)⟩,
    fun k => ?_⟩
  have hmem := @Sharding.mem_keys g ⟨shard.lower, keyOf g m⟩ k h.lower hkey
  rwa [number_keyOf hm] at hmem

/-- The keys from number `m` up to the upper bound. -/
theorem IsShard.above (h : IsShard g shard) (hm : m < 36 ^ g) (hle : m ≤ number shard.upper) :
    IsShard g ⟨keyOf g m, shard.upper⟩ ∧ ∀ k, k ∈ keys g ⟨keyOf g m, shard.upper⟩ ↔
      IsKey g k ∧ m ≤ number k ∧ number k ≤ number shard.upper := by
  have hkey := isKey_keyOf hm
  refine ⟨⟨hkey, h.upper, (hkey.le_iff h.upper).mpr (by rw [number_keyOf hm]; exact hle)⟩,
    fun k => ?_⟩
  have hmem := @Sharding.mem_keys g ⟨keyOf g m, shard.upper⟩ k hkey h.upper
  rwa [number_keyOf hm] at hmem

theorem IsShard.granularity_eq (h : IsShard g shard) : granularity shard = .ok g := by
  rw [granularity, assert, if_pos (h.lower.length.trans h.upper.length.symm), ok_bind,
    h.lower.length]
  rfl

/-! ## `split_shard` -/

/-- The number that the second part starts with. -/
def cut (at_ : CppString) (first : Bool) : Nat := number at_ + if first = true then 1 else 0

/-- What `split_shard` computes once its assertions pass. -/
theorem splitShard_run (hg : g ≤ MAX_GRANULARITY) (hs : IsShard g shard)
    (hne : shard.lower ≠ shard.upper) (hat : IsKey g at_) (hlow : StrLe shard.lower at_)
    (hhigh : StrLe at_ shard.upper) :
    splitShard shard at_ first = (do
      let lower_upper ← bucketToStr ((cut at_ first + (2 ^ 64 - 1)) % 2 ^ 64) g
      let upper_lower ← bucketToStr (cut at_ first) g
      return (⟨shard.lower, lower_upper⟩, ⟨upper_lower, shard.upper⟩)) := by
  have hpow : 36 ^ g ≤ 36 ^ 4 := Nat.pow_le_pow_right (by decide) hg
  have hlt := hat.number_lt
  rw [splitShard, assert, assert, if_pos hne, if_pos ⟨hlow, hhigh⟩, strToBucket_eq hat hg,
    hs.granularity_eq]
  simp only [ok_bind]
  have hcut : ∀ b : Bool, (number at_ + (2 ^ 64 - if b then 0 else 1)) % 2 ^ 64 =
      (cut at_ b + (2 ^ 64 - 1)) % 2 ^ 64 ∧
      (number at_ + if b then 1 else 0) % 2 ^ 64 = cut at_ b := by
    intro b
    unfold cut
    cases b <;> simp only [if_true, Bool.false_eq_true, if_false] <;> omega
  rw [(hcut first).1, (hcut first).2]

/-- **`split_shard`** cuts in front of the number of the second part. -/
theorem splitShard_eq (hg : g ≤ MAX_GRANULARITY) (hs : IsShard g shard)
    (hne : shard.lower ≠ shard.upper) (hat : IsKey g at_) (hlow : StrLe shard.lower at_)
    (hhigh : StrLe at_ shard.upper) (hpos : 0 < cut at_ first) (hcut : cut at_ first < 36 ^ g) :
    splitShard shard at_ first =
      .ok (⟨shard.lower, keyOf g (cut at_ first - 1)⟩, ⟨keyOf g (cut at_ first), shard.upper⟩) := by
  have hpow : 36 ^ g ≤ 36 ^ 4 := Nat.pow_le_pow_right (by decide) hg
  have hprev : (cut at_ first + (2 ^ 64 - 1)) % 2 ^ 64 = cut at_ first - 1 := by omega
  rw [splitShard_run hg hs hne hat hlow hhigh, hprev, bucketToStr_eq hg (by omega),
    bucketToStr_eq hg hcut]
  rfl

/-- **A cut inside the shard** gives two shards, of the keys below it and of
those from it on. -/
theorem splitShard_inside (first : Bool) (hg : g ≤ MAX_GRANULARITY) (hs : IsShard g shard)
    (hat : IsKey g at_)
    (hlow : StrLe shard.lower at_) (hhigh : StrLe at_ shard.upper)
    (hcut : number shard.lower < cut at_ first) (hcut' : cut at_ first ≤ number shard.upper) :
    ∃ s t, splitShard shard at_ first = .ok (s, t) ∧ IsShard g s ∧ IsShard g t ∧
      (∀ k, k ∈ keys g s ↔ k ∈ keys g shard ∧ number k < cut at_ first) ∧
      ∀ k, k ∈ keys g t ↔ k ∈ keys g shard ∧ cut at_ first ≤ number k := by
  have hupper := hs.upper.number_lt
  have hne : shard.lower ≠ shard.upper := by
    intro heq
    rw [heq] at hcut
    omega
  obtain ⟨hs₁, hmem₁⟩ := hs.below (show cut at_ first - 1 < 36 ^ g by omega) (by omega)
  obtain ⟨hs₂, hmem₂⟩ := hs.above (show cut at_ first < 36 ^ g by omega) hcut'
  refine ⟨_, _, splitShard_eq hg hs hne hat hlow hhigh (by omega) (by omega), hs₁, hs₂, fun k => ?_,
    fun k => ?_⟩
  · rw [hmem₁, hs.mem_keys, and_assoc]
    refine and_congr_right fun _ => ?_
    omega
  · rw [hmem₂, hs.mem_keys, and_assoc]
    refine and_congr_right fun _ => ?_
    omega

/-- Two shards that share out the keys of one, `at_` to the first of them
or not. -/
def Partitions (g : Nat) (shard : Shard) (at_ : CppString) (first : Bool) : Prop :=
  ∃ s t, splitShard shard at_ first = .ok (s, t) ∧ IsShard g s ∧ IsShard g t ∧
    keys g s ∩ keys g t = ∅ ∧ keys g s ∪ keys g t = keys g shard ∧ (at_ ∈ keys g s ↔ first = true)

/-- **`split_shard` is a partition** exactly if the part without the key
gets a key too: the cut is not behind the upper bound or in front of the
lower one. -/
theorem splitShard_partitions_iff (hpos : 0 < g) (hg : g ≤ MAX_GRANULARITY) (hs : IsShard g shard)
    (hlt : shard.lower < shard.upper) (hat : IsKey g at_) (hlow : StrLe shard.lower at_)
    (hhigh : StrLe at_ shard.upper) :
    Partitions g shard at_ first ↔
      ¬ (first = true ∧ at_ = shard.upper) ∧ ¬ (first = false ∧ at_ = shard.lower) := by
  have hpow : 36 ^ g ≤ 36 ^ 4 := Nat.pow_le_pow_right (by decide) hg
  have hnumbers := (hs.lower.lt_iff hs.upper).mp hlt
  have hlow' := (hs.lower.le_iff hat).mp hlow
  have hhigh' := (hat.le_iff hs.upper).mp hhigh
  have hupper := hs.upper.number_lt
  have hcond : (¬ (first = true ∧ at_ = shard.upper) ∧ ¬ (first = false ∧ at_ = shard.lower)) ↔
      number shard.lower < cut at_ first ∧ cut at_ first ≤ number shard.upper := by
    rw [← hat.number_inj hs.upper, ← hat.number_inj hs.lower, cut]
    cases first <;> simp only [if_true, Bool.false_eq_true, if_false, true_and, false_and,
      not_false_eq_true,
      Bool.true_eq_false, and_true] <;> omega
  have hne : shard.lower ≠ shard.upper := by
    intro heq
    rw [heq] at hnumbers
    omega
  rw [hcond]
  constructor
  · rintro ⟨s, t, hrun, hs₁, hs₂, -⟩
    -- without a key on one side, a bucket does not exist or a shard is empty
    rw [splitShard_run hg hs hne hat hlow hhigh] at hrun
    have hcut : cut at_ first ≤ 36 ^ g := by
      have hnumber := hat.number_lt
      unfold cut
      split <;> omega
    by_cases hzero : cut at_ first = 0
    · rw [hzero, bucketToStr_large hpos hg (by omega)] at hrun
      cases hrun
    have hprev : (cut at_ first + (2 ^ 64 - 1)) % 2 ^ 64 = cut at_ first - 1 := by omega
    rw [hprev, bucketToStr_eq hg (by omega), ok_bind] at hrun
    by_cases htop : cut at_ first = 36 ^ g
    · rw [bucketToStr_large hpos hg (Nat.le_of_eq htop.symm)] at hrun
      cases hrun
    rw [bucketToStr_eq hg (by omega)] at hrun
    cases hrun
    have hle₁ : number shard.lower ≤ number (keyOf g (cut at_ first - 1)) := hs₁.number_le
    have hle₂ : number (keyOf g (cut at_ first)) ≤ number shard.upper := hs₂.number_le
    rw [number_keyOf (by omega)] at hle₁ hle₂
    omega
  · rintro ⟨hcut, hcut'⟩
    obtain ⟨s, t, hrun, hs₁, hs₂, hmem₁, hmem₂⟩ :=
      splitShard_inside first hg hs hat hlow hhigh hcut hcut'
    refine ⟨s, t, hrun, hs₁, hs₂, ?_, ?_, ?_⟩
    · ext k
      rw [Set.mem_inter_iff, hmem₁, hmem₂]
      exact iff_of_false (fun h => by omega) (Set.notMem_empty k)
    · ext k
      rw [Set.mem_union, hmem₁, hmem₂, ← and_or_left]
      exact and_iff_left (by omega)
    · rw [hmem₁, and_iff_right (hs.mem_keys.mpr ⟨hat, hlow', hhigh'⟩), cut]
      cases first <;> simp

theorem splitShard_partitions_iff_B :
    Partitions 1 ⟨[65], [69]⟩ [66] true ↔
      ¬ (true = true ∧ [(66 : UInt8)] = [69]) ∧ ¬ (true = false ∧ [(66 : UInt8)] = [65]) :=
  splitShard_partitions_iff (by decide) (by decide)
    ⟨by decide, by decide, by decide⟩ (by decide) (by decide) (by decide) (by decide)

/-- `split_shard({"0", "Z"}, "Z")` passes the assertions and asks for the
bucket after the last. -/
theorem splitShard_at_last :
    ¬ ∀ (g : Nat) (shard : Shard) (at_ : CppString) (first : Bool), 0 < g → g ≤ MAX_GRANULARITY →
      IsShard g shard → shard.lower < shard.upper → IsKey g at_ → StrLe shard.lower at_ →
      StrLe at_ shard.upper → Partitions g shard at_ first := by
  intro hall
  obtain ⟨s, t, hrun, -⟩ := hall 1 ⟨[48], [90]⟩ [90] true (by decide) (by decide)
    ⟨by decide, by decide, by decide⟩ (by decide) (by decide) (by decide) (by decide)
  have hcut : cut [90] true = 36 := by decide
  rw [splitShard_run (g := 1) (by decide) ⟨by decide, by decide, by decide⟩ (by decide) (by decide)
    (by decide) (by decide), hcut, bucketToStr_eq (by decide) (by decide), ok_bind,
    bucketToStr_large (by decide) (by decide) (by decide)] at hrun
  cases hrun

/-! ## `get_overlap` -/

theorem IsShard.lower_mem (h : IsShard g shard) : shard.lower ∈ keys g shard :=
  h.mem_keys.mpr ⟨h.lower, Nat.le_refl _, h.number_le⟩

theorem IsShard.upper_mem (h : IsShard g shard) : shard.upper ∈ keys g shard :=
  h.mem_keys.mpr ⟨h.upper, h.number_le, Nat.le_refl _⟩

/-- Shards are apart or share one of the two lower bounds. -/
theorem disjoint_iff (ha : IsShard g a) (hb : IsShard g b) :
    keys g a ∩ keys g b = ∅ ↔
      number a.upper < number b.lower ∨ number b.upper < number a.lower := by
  constructor
  · intro hempty
    by_contra hmeet
    have hle := hb.number_le
    have hle' := ha.number_le
    rcases Nat.le_total (number a.lower) (number b.lower) with hab | hab
    · have hmem : b.lower ∈ keys g a := ha.mem_keys.mpr ⟨hb.lower, hab, by omega⟩
      exact Set.notMem_empty _ (hempty ▸ Set.mem_inter hmem hb.lower_mem)
    · have hmem : a.lower ∈ keys g b := hb.mem_keys.mpr ⟨ha.lower, hab, by omega⟩
      exact Set.notMem_empty _ (hempty ▸ Set.mem_inter ha.lower_mem hmem)
  · intro hapart
    refine Set.eq_empty_of_forall_notMem fun k hk => ?_
    obtain ⟨-, hlow, hhigh⟩ := ha.mem_keys.mp hk.1
    obtain ⟨-, hlow', hhigh'⟩ := hb.mem_keys.mp hk.2
    omega

theorem subset_iff (ha : IsShard g a) (hb : IsShard g b) :
    keys g a ⊆ keys g b ↔ number b.lower ≤ number a.lower ∧ number a.upper ≤ number b.upper := by
  constructor
  · intro hsub
    obtain ⟨-, hlow, -⟩ := hb.mem_keys.mp (hsub ha.lower_mem)
    obtain ⟨-, -, hhigh⟩ := hb.mem_keys.mp (hsub ha.upper_mem)
    exact ⟨hlow, hhigh⟩
  · rintro ⟨hlow, hhigh⟩ k hk
    obtain ⟨hkey, hlow', hhigh'⟩ := ha.mem_keys.mp hk
    exact hb.mem_keys.mpr ⟨hkey, Nat.le_trans hlow hlow', Nat.le_trans hhigh' hhigh⟩

/-- Splitting behind the last key of another shard leaves the keys above it. -/
theorem IsShard.split_behind (hg : g ≤ MAX_GRANULARITY) (ha : IsShard g a) (hb : IsShard g b)
    (hlow : number a.lower ≤ number b.upper) (hhigh : number b.upper < number a.upper) :
    ∃ s t, splitShard a b.upper true = .ok (s, t) ∧ IsShard g s ∧ IsShard g t ∧
      ∀ k, k ∈ keys g t ↔ k ∈ keys g a ∧ number b.upper < number k := by
  have hlow' := (ha.lower.le_iff hb.upper).mpr hlow
  have hhigh' := (hb.upper.le_iff ha.upper).mpr (Nat.le_of_lt hhigh)
  have hcut : cut b.upper true = number b.upper + 1 := rfl
  obtain ⟨s, t, hrun, hs, ht, -, hmem⟩ := splitShard_inside true hg ha hb.upper hlow' hhigh'
    (by omega) (by omega)
  refine ⟨s, t, hrun, hs, ht, fun k => ?_⟩
  rw [hmem, hcut, Nat.succ_le_iff]

/-- Splitting in front of the first key of another shard leaves the keys
below it. -/
theorem IsShard.split_before (hg : g ≤ MAX_GRANULARITY) (ha : IsShard g a) (hb : IsShard g b)
    (hlow : number a.lower < number b.lower) (hhigh : number b.lower ≤ number a.upper) :
    ∃ s t, splitShard a b.lower false = .ok (s, t) ∧ IsShard g s ∧ IsShard g t ∧
      ∀ k, k ∈ keys g s ↔ k ∈ keys g a ∧ number k < number b.lower := by
  have hlow' := (ha.lower.le_iff hb.lower).mpr (Nat.le_of_lt hlow)
  have hhigh' := (hb.lower.le_iff ha.upper).mpr hhigh
  obtain ⟨s, t, hrun, hs, ht, hmem, -⟩ := splitShard_inside false hg ha hb.lower hlow' hhigh'
    hlow hhigh
  exact ⟨s, t, hrun, hs, ht, hmem⟩

/-- What a status says about the keys of two shards: where it calls for a
split, the parts are those outside `b`. -/
structure Describes (g : Nat) (a b : Shard) (status : OverlapStatus) : Prop where
  noOverlap : status = .noOverlap ↔ keys g a ∩ keys g b = ∅
  completelyContained : status = .completelyContained ↔ keys g a ⊆ keys g b
  overlapStart : status = .overlapStart →
    ∃ s t, splitShard a b.upper true = .ok (s, t) ∧ IsShard g s ∧ IsShard g t ∧
      keys g t = keys g a \ keys g b
  overlapEnd : status = .overlapEnd →
    ∃ s t, splitShard a b.lower false = .ok (s, t) ∧ IsShard g s ∧ IsShard g t ∧
      keys g s = keys g a \ keys g b
  completelyContains : status = .completelyContains →
    ∃ s t s' t', splitShard a b.lower false = .ok (s, t) ∧
    splitShard a b.upper true = .ok (s', t') ∧
      IsShard g s ∧ IsShard g t ∧ IsShard g s' ∧ IsShard g t' ∧
      keys g s ∪ keys g t' = keys g a \ keys g b

/-- `get_overlap` compares the numbers of the bounds. -/
theorem getOverlap_eq (ha : IsShard g a) (hb : IsShard g b) :
    getOverlap a b = .ok (
      if number a.upper < number b.lower ∨ number b.upper < number a.lower then .noOverlap
      else if number b.lower ≤ number a.lower then
        if number a.upper ≤ number b.upper then .completelyContained else .overlapStart
      else if number a.upper ≤ number b.upper then .overlapEnd else .completelyContains) := by
  simp only [getOverlap, ha.upper.lt_iff hb.lower, hb.upper.lt_iff ha.lower,
    hb.lower.le_iff ha.lower,
    ha.upper.le_iff hb.upper, ha.lower.lt_iff hb.lower, hb.upper.lt_iff ha.upper]
  split_ifs <;> first | rfl | omega

/-- **`get_overlap`** does not throw, and what it returns says which keys
are outside. -/
theorem getOverlap_describes (hg : g ≤ MAX_GRANULARITY) (ha : IsShard g a) (hb : IsShard g b) :
    ∃ status, getOverlap a b = .ok status ∧ Describes g a b status := by
  have hla := ha.number_le
  have hlb := hb.number_le
  have hdiff : ∀ k, k ∈ keys g a \ keys g b ↔
      k ∈ keys g a ∧ (number k < number b.lower ∨ number b.upper < number k) := by
    intro k
    rw [Set.mem_sdiff]
    refine and_congr_right fun hk => ?_
    rw [hb.mem_keys, and_iff_right hk.1]
    omega
  refine ⟨_, getOverlap_eq ha hb, ?_, ?_, ?_, ?_, ?_⟩
  · rw [disjoint_iff ha hb]
    split_ifs <;> simp_all
  · rw [subset_iff ha hb]
    split_ifs with h <;> simp_all
    omega
  · intro hstatus
    have hcond : number a.lower ≤ number b.upper ∧ number b.upper < number a.upper ∧
        number b.lower ≤ number a.lower := by
      split_ifs at hstatus
      omega
    obtain ⟨s, t, hrun, hs, ht, hmem⟩ := ha.split_behind hg hb hcond.1 hcond.2.1
    refine ⟨s, t, hrun, hs, ht, Set.ext fun k => ?_⟩
    rw [hmem, hdiff]
    refine and_congr_right fun hk => ?_
    have hnumber := (ha.mem_keys.mp hk).2
    omega
  · intro hstatus
    have hcond : number a.lower < number b.lower ∧ number b.lower ≤ number a.upper ∧
        number a.upper ≤ number b.upper := by
      split_ifs at hstatus
      omega
    obtain ⟨s, t, hrun, hs, ht, hmem⟩ := ha.split_before hg hb hcond.1 hcond.2.1
    refine ⟨s, t, hrun, hs, ht, Set.ext fun k => ?_⟩
    rw [hmem, hdiff]
    refine and_congr_right fun hk => ?_
    have hnumber := (ha.mem_keys.mp hk).2
    omega
  · intro hstatus
    have hcond : number a.lower < number b.lower ∧ number b.upper < number a.upper := by
      split_ifs at hstatus
      omega
    obtain ⟨s, t, hrun, hs, ht, hmem⟩ := ha.split_before hg hb hcond.1 (by omega)
    obtain ⟨s', t', hrun', hs', ht', hmem'⟩ := ha.split_behind hg hb (by omega) hcond.2
    refine ⟨s, t, s', t', hrun, hrun', hs, ht, hs', ht', Set.ext fun k => ?_⟩
    rw [Set.mem_union, hmem, hmem', hdiff, and_or_left]

theorem getOverlap_describes_AE_CZ :
    ∃ status, getOverlap ⟨[65], [69]⟩ ⟨[67], [90]⟩ = .ok status ∧
      Describes 1 ⟨[65], [69]⟩ ⟨[67], [90]⟩ status :=
  getOverlap_describes (by decide) ⟨by decide, by decide, by decide⟩ ⟨by decide, by decide,
  by decide⟩

end

end SystemsProjects.KvStore.Sharding
