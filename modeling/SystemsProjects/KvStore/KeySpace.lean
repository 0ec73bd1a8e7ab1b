/-
SystemsProjects.KvStore.KeySpace — `split_into` (common/shard.cpp) and the
shard of a key.

`split_into` shares out the buckets of the least granularity with enough of
them: shard `i` has part `i` of an even split, from `start (36 ^ g) n i` on
(`splitInto_eq`). The shards tile the keys of `g` characters
(`splitInto_tiles`).

`contains` compares the first `g` characters of a key with the bounds. A
longer key is in the shard of its prefix. A shorter one is below every key
it is a prefix of, so it counts as the key padded with `'0'` at the upper
bounds, but as less at the lower ones: a padded key that a shard starts
with has no shard (`hasOneShard_iff`).
-/
import SystemsProjects.Base.EvenSplit
import SystemsProjects.KvStore.ShardSplitting
import Mathlib.Data.List.GetD
import Mathlib.Data.Set.Card
import Mathlib.Order.Interval.Finset.Nat

namespace SystemsProjects.KvStore.Sharding

open SystemsProjects.Base SystemsProjects.Base.Numerals SystemsProjects.Base.EvenSplit
open SystemsProjects.Net (Shard)

/-! ## The source -/

structure Choice where
  n_buckets : Nat
  granularity : Nat

/-- The first loop of `split_into`, with the granularities left to try. -/
def chooseGranularity (n_shards : Nat) : List Nat → Except Fault Choice
  | [] => .ok ⟨0, 0⟩
  | i :: rest => do
    let opt ← granularityOpt i
    if n_shards ≤ opt then return ⟨opt, i⟩ else chooseGranularity n_shards rest

/-- `shard_sizes[i] += 1` for the first `remainder` shards. -/
def growFirst : Nat → List Nat → List Nat
  | remainder + 1, size :: shard_sizes => (size + 1) :: growFirst remainder shard_sizes
  | _, shard_sizes => shard_sizes

/-- The last loop, with the sizes left. -/
def splitIntoLoop (granularity : Nat) : List Nat → Nat → Except Fault (List Shard)
  | [], _ => .ok []
  | size :: shard_sizes, lower => do
    let upper := (lower + size + (2 ^ 64 - 1)) % 2 ^ 64
    let lower_bucket ← bucketToStr lower granularity
    let upper_bucket ← bucketToStr upper granularity
    let shards ← splitIntoLoop granularity shard_sizes ((lower + size) % 2 ^ 64)
    return ⟨lower_bucket, upper_bucket⟩ :: shards

def splitInto (n_shards : Nat) : Except Fault (List Shard) := do
  assert (0 < n_shards)
  let choice ← chooseGranularity n_shards (List.range' 1 MAX_GRANULARITY)
  let shard_size := choice.n_buckets / n_shards
  let remainder := choice.n_buckets % n_shards
  splitIntoLoop choice.granularity (growFirst remainder (List.replicate n_shards shard_size)) 0

/-! ## The shards of `split_into` -/

/-- The least granularity with a bucket for each of `n` shards. -/
structure LeastGranularity (n g : Nat) : Prop where
  pos : 0 < g
  le_max : g ≤ MAX_GRANULARITY
  enough : n ≤ 36 ^ g
  least : ∀ g', 0 < g' → n ≤ 36 ^ g' → g ≤ g'

/-- Shard `i` of `n`. -/
def shardOf (g n i : Nat) : Shard :=
  ⟨keyOf g (start (36 ^ g) n i), keyOf g (start (36 ^ g) n (i + 1) - 1)⟩

section

variable {g n i j : Nat} {k s t : CppString} {a b shard : Shard} {shards : List Shard}

theorem exists_leastGranularity (h : n ≤ 36 ^ MAX_GRANULARITY) : ∃ g, LeastGranularity n g := by
  have hex : ∃ g, 0 < g ∧ n ≤ 36 ^ g := ⟨4, by decide, h⟩
  have hfind := Nat.find_spec hex
  exact ⟨Nat.find hex, hfind.1, Nat.find_min' hex ⟨by decide, h⟩, hfind.2,
    fun g' hpos hle => Nat.find_min' hex ⟨hpos, hle⟩⟩

theorem chooseGranularity_eq (hg : LeastGranularity n g) :
    chooseGranularity n (List.range' 1 MAX_GRANULARITY) = .ok ⟨36 ^ g, g⟩ := by
  have hsteps : ∀ left i, 0 < i → i ≤ g → i + left = MAX_GRANULARITY + 1 →
      chooseGranularity n (List.range' i left) = .ok ⟨36 ^ g, g⟩ := by
    intro left
    induction left with
    | zero =>
      intro i _ hi hsum
      have hmax := hg.le_max
      omega
    | succ left ih =>
      intro i hpos hi hsum
      rw [List.range'_succ, chooseGranularity, granularityOpt_eq (by omega), ok_bind]
      rcases Nat.lt_or_eq_of_le hi with hlt | rfl
      · have hfew : ¬ n ≤ 36 ^ i := fun hle => absurd (hg.least i hpos hle) (by omega)
        rw [if_neg hfew]
        exact ih (i + 1) (by omega) hlt (by omega)
      · rw [if_pos hg.enough]
        rfl
  exact hsteps _ 1 Nat.one_pos hg.pos rfl

theorem growFirst_zero (shard_sizes : List Nat) : growFirst 0 shard_sizes = shard_sizes := by
  cases shard_sizes <;> rfl

theorem growFirst_replicate (r m q : Nat) :
    growFirst r (List.replicate m q) = (List.range m).map fun i => q + if i < r then 1 else 0 := by
  induction m generalizing r with
  | zero => cases r <;> rfl
  | succ m ih =>
    rw [List.range_succ_eq_map, List.map_cons, List.map_map, List.replicate_succ]
    cases r with
    | zero =>
      have hrest := ih 0
      rw [growFirst_zero] at hrest
      rw [growFirst_zero, hrest]
      rfl
    | succ r =>
      rw [growFirst, ih, if_pos (Nat.succ_pos r)]
      refine congrArg (_ :: ·) (List.map_congr_left fun i _ => ?_)
      simp only [Function.comp, Nat.succ_lt_succ_iff]

theorem splitIntoLoop_eq (hn : 0 < n) (hg : LeastGranularity n g) (hi : i + j = n) :
    splitIntoLoop g ((List.range' i j).map (partSize (36 ^ g) n)) (start (36 ^ g) n i) =
      .ok ((List.range' i j).map (shardOf g n)) := by
  have hpow : 36 ^ g ≤ 36 ^ 4 := Nat.pow_le_pow_right (by decide) hg.le_max
  induction j generalizing i with
  | zero => rfl
  | succ j ih =>
    have hsize := partSize_pos (i := i) hn hg.enough
    have hnext := start_succ (36 ^ g) n i
    have hlast : start (36 ^ g) n (i + 1) ≤ 36 ^ g := by
      have hmono := start_mono (36 ^ g) n (show i + 1 ≤ n by omega)
      rwa [start_last hn] at hmono
    rw [List.range'_succ, List.map_cons, List.map_cons, splitIntoLoop, ← hnext,
      show (start (36 ^ g) n (i + 1) + (2 ^ 64 - 1)) % 2 ^ 64 =
          start (36 ^ g) n (i + 1) - 1 by omega,
      Nat.mod_eq_of_lt (show start (36 ^ g) n (i + 1) < 2 ^ 64 by omega),
      bucketToStr_eq hg.le_max (by omega), bucketToStr_eq hg.le_max (by omega),
      ih (i := i + 1) (by omega)]
    rfl

/-- **`split_into`** returns the parts of an even split of the buckets. -/
theorem splitInto_eq (hn : 0 < n) (hg : LeastGranularity n g) :
    splitInto n = .ok ((List.range n).map (shardOf g n)) := by
  rw [splitInto, assert, if_pos hn, ok_bind, chooseGranularity_eq hg, ok_bind]
  dsimp only
  rw [growFirst_replicate]
  have hloop := splitIntoLoop_eq (i := 0) hn hg (Nat.zero_add n)
  rw [start_zero, ← List.range_eq_range'] at hloop
  exact hloop

/-! ## The shards tile the keys -/

/-- `t` is the next key after `s`. -/
def Successor (g : Nat) (s t : CppString) : Prop :=
  s < t ∧ ∀ k, IsKey g k → s < k → StrLe t k

/-- `n` shards without a gap or an overlap, from the least key of `g`
characters to the greatest, of even sizes. -/
structure Tiles (n g : Nat) (shards : List Shard) : Prop where
  length : shards.length = n
  isShard : ∀ shard ∈ shards, IsShard g shard
  first : ∀ shard, shards.head? = some shard → ∀ k, IsKey g k → StrLe shard.lower k
  last : ∀ shard, shards.getLast? = some shard → ∀ k, IsKey g k → StrLe k shard.upper
  next : ∀ (i : Nat) (a b : Shard), shards[i]? = some a → shards[i + 1]? = some b →
    Successor g a.upper b.lower
  sizes : ∀ a ∈ shards, ∀ b ∈ shards, (keys g a).ncard ≤ (keys g b).ncard + 1

/-- How many keys a shard has. -/
theorem IsShard.ncard_keys (h : IsShard g shard) :
    (keys g shard).ncard = number shard.upper + 1 - number shard.lower := by
  have hupper := h.upper.number_lt
  have himage : keys g shard =
      keyOf g '' (Finset.Icc (number shard.lower) (number shard.upper)) := by
    ext k
    rw [h.mem_keys, Set.mem_image]
    constructor
    · rintro ⟨hkey, hrange⟩
      exact ⟨number k, Finset.mem_coe.mpr (Finset.mem_Icc.mpr hrange), hkey.keyOf_number⟩
    · rintro ⟨m, hm, rfl⟩
      obtain ⟨hlow, hhigh⟩ := Finset.mem_Icc.mp (Finset.mem_coe.mp hm)
      have hlt : m < 36 ^ g := by omega
      rw [number_keyOf hlt]
      exact ⟨isKey_keyOf hlt, hlow, hhigh⟩
  have hinj : Set.InjOn (keyOf g) (Finset.Icc (number shard.lower) (number shard.upper)) := by
    intro m hm m' hm' heq
    have hlt := (Finset.mem_Icc.mp (Finset.mem_coe.mp hm)).2
    have hlt' := (Finset.mem_Icc.mp (Finset.mem_coe.mp hm')).2
    rw [← number_keyOf (show m < 36 ^ g by omega), heq, number_keyOf (by omega)]
  rw [himage, hinj.ncard_image, Set.ncard_coe_finset, Nat.card_Icc]

/-- Where a shard ends the next one starts, below `36 ^ g`. -/
theorem LeastGranularity.start_lt (hn : 0 < n) (hg : LeastGranularity n g) (hi : i < n) :
    start (36 ^ g) n i < start (36 ^ g) n (i + 1) ∧ start (36 ^ g) n (i + 1) ≤ 36 ^ g := by
  have hsize := partSize_pos (i := i) hn hg.enough
  have hmono := start_mono (36 ^ g) n (Nat.succ_le_of_lt hi)
  rw [start_last hn] at hmono
  rw [start_succ] at hmono ⊢
  omega

theorem LeastGranularity.numbers (hn : 0 < n) (hg : LeastGranularity n g) (hi : i < n) :
    number (shardOf g n i).lower = start (36 ^ g) n i ∧
      number (shardOf g n i).upper = start (36 ^ g) n (i + 1) - 1 := by
  have hlt := hg.start_lt hn hi
  exact ⟨number_keyOf (by omega), number_keyOf (by omega)⟩

theorem LeastGranularity.isShard (hn : 0 < n) (hg : LeastGranularity n g) (hi : i < n) :
    IsShard g (shardOf g n i) := by
  have hlt := hg.start_lt hn hi
  have hlower : IsKey g (shardOf g n i).lower := isKey_keyOf (by omega)
  have hupper : IsKey g (shardOf g n i).upper := isKey_keyOf (by omega)
  refine ⟨hlower, hupper, (hlower.le_iff hupper).mpr ?_⟩
  rw [(hg.numbers hn hi).1, (hg.numbers hn hi).2]
  omega

theorem LeastGranularity.ncard_keys (hn : 0 < n) (hg : LeastGranularity n g) (hi : i < n) :
    (keys g (shardOf g n i)).ncard = partSize (36 ^ g) n i := by
  have hlt := hg.start_lt hn hi
  have hnext := start_succ (36 ^ g) n i
  rw [(hg.isShard hn hi).ncard_keys, (hg.numbers hn hi).1, (hg.numbers hn hi).2]
  omega

theorem LeastGranularity.tiles (hn : 0 < n) (hg : LeastGranularity n g) :
    Tiles n g ((List.range n).map (shardOf g n)) where
  length := by rw [List.length_map, List.length_range]
  isShard := by
    intro shard hshard
    obtain ⟨i, hi, rfl⟩ := List.mem_map.mp hshard
    exact hg.isShard hn (List.mem_range.mp hi)
  first := by
    intro shard hshard k hk
    obtain ⟨n, rfl⟩ : ∃ n', n = n' + 1 := ⟨n - 1, (Nat.succ_pred_eq_of_pos hn).symm⟩
    rw [List.range_succ_eq_map, List.map_cons, List.head?_cons] at hshard
    cases hshard
    rw [(hg.isShard hn hn).lower.le_iff hk, (hg.numbers hn hn).1, start_zero]
    exact Nat.zero_le _
  last := by
    intro shard hshard k hk
    obtain ⟨n, rfl⟩ : ∃ n', n = n' + 1 := ⟨n - 1, (Nat.succ_pred_eq_of_pos hn).symm⟩
    rw [List.range_succ, List.map_append, List.map_singleton, List.getLast?_concat] at hshard
    cases hshard
    have hlast := Nat.lt_succ_self n
    have hnumber := hk.number_lt
    rw [hk.le_iff (hg.isShard hn hlast).upper, (hg.numbers hn hlast).2, start_last hn]
    omega
  next := by
    intro i a b ha hb
    have hi : i + 1 < n := by
      obtain ⟨hlen, -⟩ := List.getElem?_eq_some_iff.mp hb
      rwa [List.length_map, List.length_range] at hlen
    rw [List.getElem?_map, List.getElem?_range (by omega)] at ha
    rw [List.getElem?_map, List.getElem?_range hi] at hb
    cases ha
    cases hb
    have hupper := (hg.isShard hn (Nat.lt_of_succ_lt hi)).upper
    have hlower := (hg.isShard hn hi).lower
    have hlt := hg.start_lt hn (Nat.lt_of_succ_lt hi)
    constructor
    · rw [hupper.lt_iff hlower, (hg.numbers hn (Nat.lt_of_succ_lt hi)).2, (hg.numbers hn hi).1]
      omega
    · intro k hk hbehind
      rw [hupper.lt_iff hk, (hg.numbers hn (Nat.lt_of_succ_lt hi)).2] at hbehind
      rw [hlower.le_iff hk, (hg.numbers hn hi).1]
      omega
  sizes := by
    intro a ha b hb
    obtain ⟨i, hi, rfl⟩ := List.mem_map.mp ha
    obtain ⟨j, hj, rfl⟩ := List.mem_map.mp hb
    rw [hg.ncard_keys hn (List.mem_range.mp hi), hg.ncard_keys hn (List.mem_range.mp hj)]
    exact partSize_le _ _ _ _

/-- **`split_into` covers the key space** for every number of shards it has
a granularity for. -/
theorem splitInto_tiles (hn : 0 < n) (h : n ≤ 36 ^ 4) :
    ∃ g shards, LeastGranularity n g ∧ splitInto n = .ok shards ∧ Tiles n g shards := by
  obtain ⟨g, hg⟩ := exists_leastGranularity h
  exact ⟨g, _, hg, splitInto_eq hn hg, hg.tiles hn⟩

theorem splitInto_tiles_37 :
    ∃ g shards, LeastGranularity 37 g ∧ splitInto 37 = .ok shards ∧ Tiles 37 g shards :=
  splitInto_tiles (by decide) (by decide)

/-- `split_into` does not use granularity 0, which has a bucket for one
shard. -/
theorem splitInto_one_not_least :
    ¬ ∃ g shards, (1 ≤ 36 ^ g ∧ ∀ g', 1 ≤ 36 ^ g' → g ≤ g') ∧ splitInto 1 = .ok shards ∧
      Tiles 1 g shards := by
  rintro ⟨g, shards, ⟨-, hleast⟩, hrun, htiles⟩
  obtain rfl : g = 0 := Nat.le_zero.mp (hleast 0 (by decide))
  have hone : LeastGranularity 1 1 := ⟨by decide, by decide, by decide, fun g' hpos _ => hpos⟩
  rw [splitInto_eq Nat.one_pos hone] at hrun
  cases hrun
  have hlength := (htiles.isShard _ (List.mem_singleton.mpr rfl)).lower.length
  exact absurd hlength (by decide)

/-! ## The shard of a key -/

/-- A key padded with `'0'`. -/
def padded (g : Nat) (k : CppString) : CppString := k ++ List.replicate (g - k.length) 48

/-- Exactly one shard of `split_into(n)` contains `k`. -/
def HasOneShard (n : Nat) (k : CppString) : Prop :=
  ∃ shards, splitInto n = .ok shards ∧
    ∃! i : Nat, ∃ shard, shards[i]? = some shard ∧ contains shard k = .ok true

theorem contains_eq (h : IsShard g shard) :
    contains shard k = .ok
    (decide (StrLe shard.lower (k.take g) ∧ StrLe (k.take g) shard.upper)) := by
  rw [contains, h.granularity_eq]
  rfl

theorem contains_iff (h : IsShard g shard) :
    contains shard k = .ok true ↔ StrLe shard.lower (k.take g) ∧ StrLe (k.take g) shard.upper := by
  rw [contains_eq h, Except.ok.injEq, decide_eq_true_iff]

theorem isKey_padded (hk : ∀ c ∈ k, c ∈ VALID_CHARS) (hlen : k.length ≤ g) :
    IsKey g (padded g k) where
  length := by
    rw [padded, List.length_append, List.length_replicate]
    omega
  valid := by
    intro c hc
    rcases List.mem_append.mp hc with hc | hc
    · exact hk c hc
    · rw [(List.mem_replicate.mp hc).2]
      decide

/-- No key is below `'0'`s. -/
theorem not_lt_zeros (hs : ∀ c ∈ s, c ∈ VALID_CHARS) (hlen : s.length = g) :
    ¬ s < List.replicate g 48 := by
  induction s generalizing g with
  | nil =>
    subst hlen
    exact List.lt_irrefl _
  | cons c s ih =>
    subst hlen
    obtain ⟨hc, hs⟩ := List.forall_mem_cons.mp hs
    have hall : VALID_CHARS.all (fun c => !decide (c < 48)) = true := by decide
    have hge : ¬ c < 48 := by simpa using List.all_eq_true.mp hall c hc
    rw [List.length_cons, List.replicate_succ, List.cons_lt_cons_iff, not_or, not_and]
    exact ⟨hge, fun _ => ih hs rfl⟩

/-- A key of `g` characters is below a shorter one as it is below the
padded one. -/
theorem lt_short_iff (ht : IsKey g t) (hlen : k.length < g) : t < k ↔ t < padded g k := by
  obtain ⟨hlength, hvalid⟩ := ht
  rw [padded]
  induction k generalizing g t with
  | nil =>
    rw [List.nil_append, List.length_nil, Nat.sub_zero]
    exact iff_of_false (List.not_lt_nil t) (not_lt_zeros hvalid hlength)
  | cons c k ih =>
    obtain _ | ⟨d, t⟩ := t
    · rw [List.length_nil] at hlength
      omega
    · obtain ⟨-, hvalid⟩ := List.forall_mem_cons.mp hvalid
      obtain ⟨g, rfl⟩ : ∃ g', g = g' + 1 := ⟨g - 1, by omega⟩
      rw [List.length_cons, Nat.add_right_cancel_iff] at hlength
      rw [List.length_cons, Nat.succ_lt_succ_iff] at hlen
      rw [List.cons_append, List.cons_lt_cons_iff, List.cons_lt_cons_iff, List.length_cons,
        Nat.succ_sub_succ, ih hlen hlength hvalid]

/-- A shard contains a longer key by its prefix. -/
theorem contains_long_iff (h : IsShard g shard) (hk : IsKey g (k.take g)) :
    contains shard k = .ok true ↔
      number shard.lower ≤ number (k.take g) ∧ number (k.take g) ≤ number shard.upper := by
  rw [contains_iff h, h.lower.le_iff hk, hk.le_iff h.upper]

/-- At a shorter key the lower bound is exclusive. -/
theorem contains_short_iff (h : IsShard g shard) (hk : ∀ c ∈ k, c ∈ VALID_CHARS)
    (hlen : k.length < g) :
    contains shard k = .ok true ↔
      number shard.lower < number (padded g k) ∧ number (padded g k) ≤ number shard.upper := by
  have hpad := isKey_padded hk (Nat.le_of_lt hlen)
  have hlower : StrLe shard.lower k ↔ shard.lower < k := by
    have hne : shard.lower ≠ k := by
      rintro rfl
      exact absurd h.lower.length (Nat.ne_of_lt hlen)
    have hcases : StrLe shard.lower k ↔ shard.lower < k ∨ shard.lower = k := List.le_iff_lt_or_eq
    rw [hcases, or_iff_left hne]
  rw [contains_iff h, List.take_of_length_le (Nat.le_of_lt hlen), hlower, StrLe,
    lt_short_iff h.lower hlen,
    lt_short_iff h.upper hlen, h.lower.lt_iff hpad, h.upper.lt_iff hpad, Nat.not_lt]

theorem hasOneShard_eq (hn : 0 < n) (hg : LeastGranularity n g) :
    HasOneShard n k ↔ ∃! i : Nat, i < n ∧ contains (shardOf g n i) k = .ok true := by
  have hget : ∀ i, (∃ shard, ((List.range n).map (shardOf g n))[i]? = some shard ∧
      contains shard k = .ok true) ↔ i < n ∧ contains (shardOf g n i) k = .ok true := by
    intro i
    rw [List.getElem?_map]
    by_cases hi : i < n
    · rw [List.getElem?_range hi, and_iff_right hi]
      exact ⟨fun ⟨_, hsome, hk⟩ => by cases hsome; exact hk, fun hk => ⟨_, rfl, hk⟩⟩
    · rw [List.getElem?_eq_none (by rw [List.length_range]; omega)]
      exact iff_of_false (fun ⟨_, hsome, _⟩ => by cases hsome) (fun h => hi h.1)
  simp only [HasOneShard, splitInto_eq hn hg, Except.ok.injEq, exists_eq_left', hget]

/-- A key as long as the bounds is in one shard, by the number of its prefix. -/
theorem hasOneShard_long (hn : 0 < n) (hg : LeastGranularity n g) (hk : ∀ c ∈ k, c ∈ VALID_CHARS)
    (hlen : g ≤ k.length) : HasOneShard n k := by
  have hprefix : IsKey g (k.take g) :=
    ⟨List.length_take_of_le hlen, fun c hc => hk c (List.mem_of_mem_take hc)⟩
  rw [hasOneShard_eq hn hg]
  have hpart := existsUnique_part hn hprefix.number_lt
  refine (existsUnique_congr fun i => and_congr_right fun hi => ?_).mpr hpart
  have hlt := hg.start_lt hn hi
  rw [contains_long_iff (hg.isShard hn hi) hprefix, (hg.numbers hn hi).1, (hg.numbers hn hi).2]
  omega

/-- A shorter key is in one shard unless a shard starts with the padded key. -/
theorem hasOneShard_short_iff (hn : 0 < n) (hg : LeastGranularity n g)
    (hk : ∀ c ∈ k, c ∈ VALID_CHARS) (hlen : k.length < g) :
    HasOneShard n k ↔ ∀ i < n, start (36 ^ g) n i ≠ number (padded g k) := by
  have hpad := isKey_padded hk (Nat.le_of_lt hlen)
  have hcontains : ∀ i, (i < n ∧ contains (shardOf g n i) k = .ok true) ↔
      (i < n ∧ start (36 ^ g) n i ≤ number (padded g k) ∧
        number (padded g k) < start (36 ^ g) n (i + 1)) ∧
        start (36 ^ g) n i ≠ number (padded g k) := by
    intro i
    rw [and_assoc]
    refine and_congr_right fun hi => ?_
    have hlt := hg.start_lt hn hi
    rw [contains_short_iff (hg.isShard hn hi) hk hlen, (hg.numbers hn hi).1, (hg.numbers hn hi).2]
    omega
  obtain ⟨home, hhome, hunique⟩ := existsUnique_part hn hpad.number_lt
  rw [hasOneShard_eq hn hg]
  simp only [hcontains]
  constructor
  · rintro ⟨i, ⟨hpart, hne⟩, -⟩ j hj heq
    -- the part that starts with the key is the only one it can be in
    have hlt := hg.start_lt hn hj
    have hj' := hunique j ⟨hj, Nat.le_of_eq heq, heq ▸ hlt.1⟩
    have hi := hunique i hpart
    rw [hi, ← hj'] at hne
    exact hne heq
  · intro hnone
    exact ⟨home, ⟨hhome, hnone home hhome.1⟩, fun i h => hunique i h.1⟩

/-- **Exactly one shard contains a key** if the key is as long as the
bounds, or shorter and no shard starts with the padded key, and only then. -/
theorem hasOneShard_iff (hn : 0 < n) (h : n ≤ 36 ^ 4) (hk : ∀ c ∈ k, c ∈ VALID_CHARS) :
    ∃ g, LeastGranularity n g ∧ (HasOneShard n k ↔
      g ≤ k.length ∨ ∀ i < n, start (36 ^ g) n i ≠ number (padded g k)) := by
  obtain ⟨g, hg⟩ := exists_leastGranularity h
  refine ⟨g, hg, ?_⟩
  rcases Nat.lt_or_ge k.length g with hlen | hlen
  · rw [hasOneShard_short_iff hn hg hk hlen, or_iff_right (Nat.not_le.mpr hlen)]
  · exact iff_of_true (hasOneShard_long hn hg hk hlen) (.inl hlen)

theorem hasOneShard_iff_37 :
    ∃ g, LeastGranularity 37 g ∧ (HasOneShard 37 [65, 66] ↔
      g ≤ 2 ∨ ∀ i < 37, start (36 ^ g) 37 i ≠ number (padded g [65, 66])) :=
  hasOneShard_iff (by decide) (by decide) (by simp [VALID_CHARS])

/-- The key `"0"` is below the first of 37 shards. -/
theorem not_hasOneShard_zero :
    ¬ ∀ (n : Nat) (k : CppString), 0 < n → n ≤ 36 ^ 4 → k ≠ [] → (∀ c ∈ k, c ∈ VALID_CHARS) →
      HasOneShard n k := by
  intro hall
  have htwo : LeastGranularity 37 2 := by
    refine ⟨by decide, by decide, by decide, fun g' hpos hle => ?_⟩
    obtain _ | _ | g' := g'
    · exact absurd hpos (by decide)
    · exact absurd hle (by decide)
    · omega
  have hvalid : ∀ c ∈ [(48 : UInt8)], c ∈ VALID_CHARS := by simp [VALID_CHARS]
  have hzero := hall 37 [48] (by decide) (by decide) (by decide) hvalid
  rw [hasOneShard_short_iff (by decide) htwo hvalid (by decide)] at hzero
  exact hzero 0 (by decide) (by decide)

end

end SystemsProjects.KvStore.Sharding
