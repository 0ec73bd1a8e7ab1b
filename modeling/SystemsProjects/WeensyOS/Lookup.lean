/-
SystemsProjects.WeensyOS.Lookup — what a `vmiter` finds.

`downLoop_repoint` is the reason a `vmiter` may be moved without starting
over: as long as the address keeps its upper digits, the walk down to the
level of the iterator is the same walk. Hence a moved iterator is a new
one (`realFind_eq_new`). In a `Tree` a new iterator stops at the deepest
page-table page on the path of its address (`new_spec`).
-/
import SystemsProjects.WeensyOS.PageTree
import Mathlib.Data.Nat.Bitwise

namespace SystemsProjects.WeensyOS

open SystemsProjects.Base
open SystemsProjects.Base.RadixTree

/-! ## Upper digits -/

theorem and_lbitsUpper {x k : Nat} (hx : x < 2 ^ 64) (hk : k ≤ 64) :
    x &&& lbitsUpper k = x / 2 ^ k * 2 ^ k := by
  have hmask : lbitsUpper k = (2 ^ (64 - k) - 1) <<< k := by
    rw [lbitsUpper, Nat.shiftLeft_eq, Nat.sub_mul, Nat.one_mul, ← Nat.pow_add,
      Nat.sub_add_cancel hk]
  rw [hmask, ← Nat.shiftRight_eq_div_pow, ← Nat.shiftLeft_eq]
  refine Nat.eq_of_testBit_eq fun i => ?_
  simp only [Nat.testBit_and, Nat.testBit_shiftLeft, Nat.testBit_two_pow_sub_one,
    Nat.testBit_shiftRight]
  by_cases hi : k ≤ i
  · rw [Nat.add_sub_cancel' hi]
    by_cases hi' : i < 64
    · simp [hi, show i - k < 64 - k by omega]
    · rw [Nat.testBit_lt_two_pow (Nat.lt_of_lt_of_le hx
        (Nat.pow_le_pow_right Nat.two_pos (by omega)))]
      simp
  · simp [hi]

/-- The test of `real_find`: the addresses agree above bit `k`. -/
theorem xor_and_lbitsUpper {a b k : Nat} (ha : a < 2 ^ 64) (hb : b < 2 ^ 64) (hk : k ≤ 64) :
    (a ^^^ b) &&& lbitsUpper k = 0 ↔ a / 2 ^ k = b / 2 ^ k := by
  rw [and_lbitsUpper (Nat.xor_lt_two_pow ha hb) hk, ← Nat.shiftRight_eq_div_pow,
    Nat.shiftRight_xor_distrib, ← Nat.shiftRight_eq_div_pow, ← Nat.shiftRight_eq_div_pow,
    Nat.mul_eq_zero, Nat.xor_eq_zero_iff]
  simp

theorem div_pow_congr {a b m n : Nat} (h : a / 2 ^ m = b / 2 ^ m) (hmn : m ≤ n) :
    a / 2 ^ n = b / 2 ^ n := by
  obtain ⟨k, rfl⟩ := Nat.exists_eq_add_of_le hmn
  rw [Nat.pow_add, ← Nat.div_div_eq_div_mul, h, Nat.div_div_eq_div_mul]

theorem entryIndex_congr {a b m lbits : Nat} (h : a / 2 ^ m = b / 2 ^ m) (hm : m ≤ lbits) :
    entryIndex a lbits = entryIndex b lbits := by
  rw [entryIndex_eq, entryIndex_eq, div_pow_congr h hm]

theorem vaIsCanonical_iff {va : Nat} (hva : va < 2 ^ 64) :
    vaIsCanonical va = true ↔ va / 2 ^ 47 = 0 ∨ va / 2 ^ 47 = 2 ^ 17 - 1 := by
  simp only [vaIsCanonical, Bool.or_eq_true, decide_eq_true_eq, VA_LOWMAX, VA_HIGHMIN]
  omega

namespace VmIter

theorem canonical_of_lt {va : Nat} (h : va ≤ MEMSIZE_VIRTUAL) : vaIsCanonical va = true := by
  have h : va ≤ 0x300000 := h
  rw [vaIsCanonical, Bool.or_eq_true, decide_eq_true_eq]
  exact .inl (show va ≤ 0x7FFFFFFFFFFF by omega)

/-! ## Moving an iterator -/

/-- The loop of `down` goes on. -/
def Descends (mem : ByteMem) (it : VmIter) : Prop :=
  it.lbits_ > PAGEOFFBITS ∧ it.pe mem &&& (PTE_P ||| PTE_PS) = PTE_P

instance (mem : ByteMem) (it : VmIter) : Decidable (Descends mem it) :=
  inferInstanceAs (Decidable (_ ∧ _))

/-- One round of `down`. -/
def below (mem : ByteMem) (it : VmIter) : VmIter :=
  { it with
    perm_ := it.perm_ &&& (it.pe mem ||| (2 ^ 64 - 1 - (PTE_P ||| PTE_W ||| PTE_U)))
    lbits_ := it.lbits_ - PAGEINDEXBITS
    pep_ := some (entryAddr (it.pe mem &&& PTE_PAMASK)
      (entryIndex it.va_ (it.lbits_ - PAGEINDEXBITS))) }

section

variable {mem : ByteMem} {it : VmIter}

theorem downLoop_of_descends (rounds : Nat) (h : Descends mem it) :
    downLoop mem (rounds + 1) it = downLoop mem rounds (below mem it) := if_pos h

theorem downLoop_of_not_descends (rounds : Nat) (h : ¬ Descends mem it) :
    downLoop mem rounds it = it := by
  cases rounds with
  | zero => rfl
  | succ rounds => exact if_neg h

/-- Rounds beyond `lbits_` change nothing. -/
theorem downLoop_rounds {n m : Nat} (hn : it.lbits_ ≤ n) (hm : it.lbits_ ≤ m) :
    downLoop mem n it = downLoop mem m it := by
  induction n generalizing m it with
  | zero => rw [downLoop_of_not_descends m fun h => by have hgt : it.lbits_ > 12 := h.1; omega]; rfl
  | succ n ih =>
    by_cases h : Descends mem it
    · have hgt : it.lbits_ > 12 := h.1
      have hlbits : (below mem it).lbits_ = it.lbits_ - 9 := rfl
      obtain ⟨m, rfl⟩ : ∃ m', m = m' + 1 := ⟨m - 1, by omega⟩
      rw [downLoop_of_descends n h, downLoop_of_descends m h]
      exact ih (by omega) (by omega)
    · rw [downLoop_of_not_descends _ h, downLoop_of_not_descends _ h]

theorem lbits_downLoop_le (n : Nat) (it : VmIter) : (downLoop mem n it).lbits_ ≤ it.lbits_ := by
  induction n generalizing it with
  | zero => exact Nat.le_refl _
  | succ n ih =>
    by_cases h : Descends mem it
    · rw [downLoop_of_descends n h]
      exact (ih _).trans (Nat.sub_le _ _)
    · rw [downLoop_of_not_descends _ h]

theorem downLoop_fields (n : Nat) (it : VmIter) :
    (downLoop mem n it).va_ = it.va_ ∧ (downLoop mem n it).pt_ = it.pt_ := by
  induction n generalizing it with
  | zero => exact ⟨rfl, rfl⟩
  | succ n ih =>
    by_cases h : Descends mem it
    · rw [downLoop_of_descends n h]
      exact ih (below mem it)
    · rw [downLoop_of_not_descends _ h]
      exact ⟨rfl, rfl⟩

/-- `pep_` points into a page, to the entry for `va_`. -/
def Placed (it : VmIter) : Prop :=
  ∃ p, p % 4096 = 0 ∧ it.pep_ = some (entryAddr p (entryIndex it.va_ it.lbits_))

/-- The move of `real_find` within a page. -/
def repoint (va : Nat) (it : VmIter) : VmIter :=
  { it with
    pep_ := it.pep_.map fun pep => pep + 8 * entryIndex va it.lbits_ - 8 * ((pep % PAGESIZE) >>> 3)
    va_ := va }

theorem placed_below : Placed (below mem it) := ⟨_, pamask_aligned _, rfl⟩

theorem curidx_eq {p i : Nat} (hp : p % 4096 = 0) (hi : i < 512) :
    (entryAddr p i % PAGESIZE) >>> 3 = i := by
  simp only [Nat.shiftRight_eq_div_pow, entryAddr, PAGESIZE]
  omega

theorem repoint_pep (h : Placed it) (va : Nat) :
    ∃ p, p % 4096 = 0 ∧ it.pep_ = some (entryAddr p (entryIndex it.va_ it.lbits_)) ∧
      (repoint va it).pep_ = some (entryAddr p (entryIndex va it.lbits_)) := by
  obtain ⟨p, hp, hpep⟩ := h
  refine ⟨p, hp, hpep, ?_⟩
  simp only [repoint, hpep, Option.map_some, curidx_eq hp (entryIndex_lt _ _), Option.some.injEq]
  unfold entryAddr
  omega

/-- The walk for an address that agrees with `va_` down to where the walk
for `va_` ends passes through there. -/
theorem downLoop_repoint {n va : Nat} (hplaced : Placed it) (hn : it.lbits_ ≤ n)
    (hsame : it.va_ / 2 ^ ((downLoop mem n it).lbits_ + 9) =
      va / 2 ^ ((downLoop mem n it).lbits_ + 9)) :
    downLoop mem n (repoint va it) = downLoop mem n (repoint va (downLoop mem n it)) := by
  induction n generalizing it with
  | zero => rfl
  | succ n ih =>
    by_cases h : Descends mem it
    · have hgt : it.lbits_ > 12 := h.1
      rw [downLoop_of_descends n h] at hsame ⊢
      have hle : (downLoop mem n (below mem it)).lbits_ ≤ it.lbits_ - 9 := lbits_downLoop_le n _
      -- at this level both addresses use the same entry
      have hindex : entryIndex va it.lbits_ = entryIndex it.va_ it.lbits_ :=
        (entryIndex_congr hsame (by omega)).symm
      obtain ⟨p, hp, hpep, hpep'⟩ := repoint_pep hplaced va
      have hpe : (repoint va it).pe mem = it.pe mem := by
        rw [pe, pe, hpep', hpep, hindex]
      have hdesc : Descends mem (repoint va it) := by
        rw [Descends, hpe]
        exact h
      have hbelow : below mem (repoint va it) = repoint va (below mem it) := by
        obtain ⟨q, hq, hpepq, hpepq'⟩ :=
          repoint_pep (show Placed (below mem it) from placed_below) va
        have hfirst : below mem (repoint va it) =
            { below mem it with
              pep_ := some (entryAddr (it.pe mem &&& PTE_PAMASK) (entryIndex va (it.lbits_ - 9)))
              va_ := va } := by
          rw [below, hpe]
          rfl
        have hq' : q = it.pe mem &&& PTE_PAMASK := by
          have := Option.some.inj (hpepq.symm.trans
            (show (below mem it).pep_ = some (entryAddr _ _) from rfl))
          exact Nat.add_right_cancel this
        have hsecond : repoint va (below mem it) =
            { below mem it with pep_ := (repoint va (below mem it)).pep_, va_ := va } := rfl
        rw [hfirst, hsecond, hpepq', hq']
        rfl
      have hlbits : (below mem it).lbits_ = it.lbits_ - 9 := rfl
      rw [downLoop_of_descends n hdesc, hbelow, ih placed_below (by omega) hsame]
      exact downLoop_rounds (show (downLoop mem n (below mem it)).lbits_ ≤ n by omega)
        (show (downLoop mem n (below mem it)).lbits_ ≤ n + 1 by omega)
    · rw [downLoop_of_not_descends _ h]

end

/-- Where a walk starts. -/
def start (pt va : Nat) : VmIter :=
  { pt_ := pt, pep_ := some (entryAddr pt (entryIndex va initial_lbits)), lbits_ := initial_lbits,
    perm_ := initial_perm, va_ := va }

theorem new_of_canonical (mem : ByteMem) (pt : Nat) {va : Nat} (h : vaIsCanonical va = true) :
    new mem pt va = down mem (start pt va) := by
  simp [new, realFind, h, start]

theorem new_of_not_canonical (mem : ByteMem) (pt : Nat) {va : Nat}
    (h : ¬ vaIsCanonical va = true) :
    new mem pt va = .ok { pt_ := pt, pep_ := none, lbits_ := 47, perm_ := 0, va_ := va } := by
  simp [new, realFind, h, down, downLoop, pe]

theorem placed_start {pt : Nat} (hpt : pt % 4096 = 0) (va : Nat) : Placed (start pt va) :=
  ⟨pt, hpt, rfl⟩

theorem repoint_start {pt : Nat} (hpt : pt % 4096 = 0) (va va' : Nat) :
    repoint va' (start pt va) = start pt va' := by
  simp only [repoint, start, Option.map_some, curidx_eq hpt (entryIndex_lt _ _)]
  congr 2
  unfold entryAddr
  omega

theorem realFind_within {mem : ByteMem} {va : Nat} {it : VmIter} (hlbits : it.lbits_ < 39)
    (hva : it.va_ < 2 ^ 64) (hva' : va < 2 ^ 64)
    (h : it.va_ / 2 ^ (it.lbits_ + 9) = va / 2 ^ (it.lbits_ + 9)) :
    realFind mem va false it = down mem (repoint va it) := by
  have hupper := (xor_and_lbitsUpper hva hva' (show it.lbits_ + 9 ≤ 64 by omega)).mpr h
  simp only [realFind, Bool.false_eq_true, false_and, if_false]
  rw [if_pos ⟨hlbits, hupper⟩]
  rfl

theorem realFind_restart {mem : ByteMem} {va : Nat} {it : VmIter} (hva : it.va_ < 2 ^ 64)
    (hva' : va < 2 ^ 64)
    (h : ¬ (it.lbits_ < 39 ∧ it.va_ / 2 ^ (it.lbits_ + 9) = va / 2 ^ (it.lbits_ + 9))) :
    realFind mem va false it = new mem it.pt_ va := by
  have hcond : ¬ (it.lbits_ < initial_lbits ∧
      (it.va_ ^^^ va) &&& lbitsUpper (it.lbits_ + PAGEINDEXBITS) = 0) := by
    rintro ⟨hlt, hupper⟩
    have hlt : it.lbits_ < 39 := hlt
    exact h ⟨hlt, (xor_and_lbitsUpper hva hva' (show it.lbits_ + 9 ≤ 64 by omega)).mp hupper⟩
  by_cases hcanon : vaIsCanonical va = true
  · rw [new_of_canonical mem it.pt_ hcanon]
    simp only [realFind, Bool.false_eq_true, false_and, if_false]
    rw [if_neg hcond, if_neg (not_not_intro hcanon)]
    rfl
  · rw [new_of_not_canonical mem it.pt_ hcanon]
    simp only [realFind, Bool.false_eq_true, false_and, if_false]
    rw [if_neg hcond, if_pos hcanon]
    simp [down, downLoop, pe]

/-- **A moved iterator is a new one.** -/
theorem realFind_eq_new {mem : ByteMem} {pt va va' : Nat} {it : VmIter} (hpt : pt % 4096 = 0)
    (hva : va < 2 ^ 64) (hva' : va' < 2 ^ 64) (hit : new mem pt va = .ok it) :
    realFind mem va' false it = new mem pt va' := by
  by_cases hcanon : vaIsCanonical va = true
  · rw [new_of_canonical mem pt hcanon, down] at hit
    split at hit
    · cases hit
    · obtain rfl := Except.ok.inj hit
      have hlbits : (downLoop mem 39 (start pt va)).lbits_ ≤ 39 := lbits_downLoop_le 39 _
      have hfields : (downLoop mem 39 (start pt va)).va_ = va ∧
          (downLoop mem 39 (start pt va)).pt_ = pt := downLoop_fields 39 _
      by_cases hstep : (downLoop mem 39 (start pt va)).lbits_ < 39 ∧
          va / 2 ^ ((downLoop mem 39 (start pt va)).lbits_ + 9) =
            va' / 2 ^ ((downLoop mem 39 (start pt va)).lbits_ + 9)
      · have hcanon' : vaIsCanonical va' = true := by
          rw [vaIsCanonical_iff hva] at hcanon
          rw [vaIsCanonical_iff hva', ← div_pow_congr hstep.2 (by omega)]
          exact hcanon
        have hwalk := downLoop_repoint (placed_start hpt va) (Nat.le_refl 39) hstep.2
        rw [repoint_start hpt] at hwalk
        have hrounds : downLoop mem 39 (repoint va' (downLoop mem 39 (start pt va))) =
            downLoop mem (downLoop mem 39 (start pt va)).lbits_
              (repoint va' (downLoop mem 39 (start pt va))) :=
          downLoop_rounds hlbits (Nat.le_refl _)
        rw [show (start pt va).lbits_ = 39 from rfl]
        rw [realFind_within hstep.1 (by rw [hfields.1]; exact hva) hva'
          (by rw [hfields.1]; exact hstep.2),
          new_of_canonical mem pt hcanon', down, down, show (start pt va').lbits_ = 39 from rfl,
          hwalk, hrounds]
        rfl
      · rw [show (start pt va).lbits_ = 39 from rfl]
        rw [realFind_restart (by rw [hfields.1]; exact hva) hva' (by rw [hfields.1]; exact hstep),
          hfields.2]
  · rw [new_of_not_canonical mem pt hcanon] at hit
    cases hit
    refine realFind_restart hva hva' fun h => ?_
    have hlt : 47 < 39 := h.1
    omega

/-- The same for `find`. -/
theorem find_eq_new {mem : ByteMem} {pt va va' : Nat} {it : VmIter} (hpt : pt % 4096 = 0)
    (hva : va < 2 ^ 64) (hva' : va' < 2 ^ 64) (hit : new mem pt va = .ok it) (hitva : it.va_ = va) :
    find mem va' it = new mem pt va' := by
  unfold find
  split
  · exact realFind_eq_new hpt hva hva' hit
  · rename_i heq
    rw [← hit, ← hitva, not_not.mp heq]

/-! ## New iterators in a tree -/

/-- The iterator for `va` at depth `d`, in the page at `p`. -/
def iterAt (root va d p : Nat) : VmIter :=
  { pt_ := root, pep_ := some (entryAddr p (entryIndex va (39 - 9 * d))), lbits_ := 39 - 9 * d,
    perm_ := 0xFFF, va_ := va }

/-- The same with the permissions `m` collected. -/
def iterWith (root va d p m : Nat) : VmIter :=
  { pt_ := root, pep_ := some (entryAddr p (entryIndex va (39 - 9 * d))), lbits_ := 39 - 9 * d,
    perm_ := m, va_ := va }

/-- The page-table page at depth `d` on the path of `va` is its last. -/
structure Stops (mem : ByteMem) (root va d p : Nat) : Prop where
  depth : d ≤ 3
  node : nodeAt (child mem) 512 root d (slot d va) = some p
  last : d < 3 → child mem p (entryIndex va (39 - 9 * d)) = none

section

variable {mem : ByteMem} {root va d p : Nat}

theorem pe_iterAt : (iterAt root va d p).pe mem = entry mem p (entryIndex va (39 - 9 * d)) := rfl

theorem pe_iterWith (m : Nat) :
    (iterWith root va d p m).pe mem = entry mem p (entryIndex va (39 - 9 * d)) := rfl

/-- `down` goes on at depth `d` exactly if the entry is a link. -/
theorem descends_iff (hd : d ≤ 3) (m : Nat) :
    Descends mem (iterWith root va d p m) ↔
      d < 3 ∧ ∃ q, child mem p (entryIndex va (39 - 9 * d)) = some q := by
  have hlbits : (iterWith root va d p m).lbits_ > PAGEOFFBITS ↔ d < 3 := by
    show 39 - 9 * d > 12 ↔ d < 3
    omega
  rw [Descends, hlbits, pe_iterWith, child, link]
  refine and_congr_right fun _ => ?_
  split <;> simp_all

theorem below_iterWith {q m : Nat} (hd : d < 3)
    (hq : child mem p (entryIndex va (39 - 9 * d)) = some q) :
    below mem (iterWith root va d p m) =
      iterWith root va (d + 1) q (m &&& (entry mem p (entryIndex va (39 - 9 * d)) |||
        (2 ^ 64 - 1 - (PTE_P ||| PTE_W ||| PTE_U)))) := by
  rw [child, link] at hq
  split at hq
  · cases hq
    simp only [iterWith, below, PAGEINDEXBITS, show 39 - 9 * d - 9 = 39 - 9 * (d + 1) by omega]
    rfl
  · cases hq

/-- Links with every permission, at all depths. -/
def FullLinks (mem : ByteMem) (root : Nat) : Prop :=
  ∀ d < 3, ∀ x p, nodeAt (child mem) 512 root d x = some p → ∀ i < 512, ∀ q,
    child mem p i = some q → entry mem p i &&& 7 = 7

/-- From a page-table page on the path the walk reaches the last. -/
theorem downLoop_stops {rounds : Nat} (m : Nat) (hrounds : 3 - d ≤ rounds) (hd : d ≤ 3)
    (hp : nodeAt (child mem) 512 root d (slot d va) = some p) :
    ∃ d' p' m', Stops mem root va d' p' ∧
      downLoop mem rounds (iterWith root va d p m) = iterWith root va d' p' m' ∧
      (FullLinks mem root → m = 0xFFF → m' = 0xFFF) := by
  induction rounds generalizing d p m with
  | zero => exact ⟨d, p, m, ⟨hd, hp, fun h => by omega⟩, rfl, fun _ h => h⟩
  | succ rounds ih =>
    by_cases h : Descends mem (iterWith root va d p m)
    · obtain ⟨hlt, q, hq⟩ := (descends_iff hd m).mp h
      have hq' : nodeAt (child mem) 512 root (d + 1) (slot (d + 1) va) = some q := by
        rw [nodeAt_succ_slot hd, hp, Option.bind_some, hq]
      rw [downLoop_of_descends rounds h, below_iterWith hlt hq]
      obtain ⟨d', p', m', hstop, hloop, hfull⟩ :=
        ih (m &&& (entry mem p (entryIndex va (39 - 9 * d)) |||
          (2 ^ 64 - 1 - (PTE_P ||| PTE_W ||| PTE_U)))) (by omega) (by omega) hq'
      refine ⟨d', p', m', hstop, hloop, fun hlinks hm => hfull hlinks ?_⟩
      rw [hm, initialPerm_and (hlinks d hlt _ p hp _ (entryIndex_lt _ _) q hq)]
    · refine ⟨d, p, m, ⟨hd, hp, fun hlt => ?_⟩, downLoop_of_not_descends _ h, fun _ h => h⟩
      have h := mt (descends_iff hd m).mpr h
      cases hq : child mem p (entryIndex va (39 - 9 * d)) with
      | none => rfl
      | some q => exact absurd ⟨hlt, q, hq⟩ h

/-- The test behind the loop of `down`. -/
def Panics (d e : Nat) : Prop := e &&& PTE_PAMASK ≥ 0x100000000 ∧ 39 - 9 * d < 30

instance (d e : Nat) : Decidable (Panics d e) := inferInstanceAs (Decidable (_ ∧ _))

theorem not_panics {e : Nat} (h : e &&& PTE_PAMASK < 2 ^ 32) (d : Nat) : ¬ Panics d e :=
  fun hpanic => absurd hpanic.1 (Nat.not_le.mpr h)

/-- `down` from a page-table page on the path. -/
theorem down_stops (m : Nat) (hd : d ≤ 3)
    (hp : nodeAt (child mem) 512 root d (slot d va) = some p) :
    ∃ d' p' m', Stops mem root va d' p' ∧
      down mem (iterWith root va d p m) =
        (if Panics d' (entry mem p' (entryIndex va (39 - 9 * d'))) then .error .panic
          else .ok (iterWith root va d' p' m')) ∧
      (FullLinks mem root → m = 0xFFF → m' = 0xFFF) := by
  have hrounds : 3 - d ≤ (iterWith root va d p m).lbits_ := show 3 - d ≤ 39 - 9 * d by omega
  obtain ⟨d', p', m', hstop, hloop, hfull⟩ := downLoop_stops m hrounds hd hp
  refine ⟨d', p', m', hstop, ?_, hfull⟩
  rw [down, hloop]
  rfl

theorem down_iterAt (ht : Tree mem root) (hd : d ≤ 3)
    (hp : nodeAt (child mem) 512 root d (slot d va) = some p) :
    ∃ d' p', Stops mem root va d' p' ∧
      down mem (iterAt root va d p) = .ok (iterAt root va d' p') := by
  obtain ⟨d', p', m', hstop, hdown, hfull⟩ := down_stops 0xFFF hd hp
  obtain rfl := hfull ht.linkPerm rfl
  have hlow := ht.low p' ⟨d', hstop.depth, _, hstop.node⟩ _ (entryIndex_lt va (39 - 9 * d'))
  rw [if_neg (not_panics hlow d')] at hdown
  exact ⟨d', p', hstop, hdown⟩

/-- **A new iterator** stops at the last page-table page on the path. -/
theorem new_spec (ht : Tree mem root) (hva : vaIsCanonical va = true) :
    ∃ d p, Stops mem root va d p ∧ new mem root va = .ok (iterAt root va d p) := by
  rw [new_of_canonical mem root hva]
  exact down_iterAt (d := 0) (p := root) ht (by omega) (by rw [slot_zero, nodeAt_root])

/-- Below an absent page-table page there is none. -/
theorem nodeAt_slot_none {d' : Nat} (hd' : d' ≤ 3) (hlt : d < d')
    (h : nodeAt (child mem) 512 root (d + 1) (slot (d + 1) va) = none) :
    nodeAt (child mem) 512 root d' (slot d' va) = none := by
  induction d' with
  | zero => omega
  | succ d' ih =>
    obtain rfl | hlt' := Nat.eq_or_lt_of_le (Nat.le_of_lt_succ hlt)
    · exact h
    · rw [nodeAt_succ_slot (by omega), ih (by omega) hlt', Option.bind_none]

/-- There is one last page-table page. -/
theorem Stops.unique {d' p' : Nat} (h : Stops mem root va d p) (h' : Stops mem root va d' p') :
    d = d' ∧ p = p' := by
  have hnot : ∀ {a b q r}, Stops mem root va a q → Stops mem root va b r → ¬ a < b := by
    intro a b q r ha hb hlt
    have hb3 := hb.depth
    have hnone := nodeAt_slot_none hb.depth hlt (by
      rw [nodeAt_succ_slot ha.depth, ha.node, Option.bind_some, ha.last (by omega)])
    rw [hb.node] at hnone
    cases hnone
  have hd : d = d' := by
    have h1 := hnot h h'
    have h2 := hnot h' h
    omega
  subst hd
  exact ⟨rfl, Option.some.inj (h.node.symm.trans h'.node)⟩

end

/-! ## What an iterator shows -/

theorem perm_eq {mem : ByteMem} {it : VmIter} (h : it.perm_ = 0xFFF) :
    it.perm mem = entryPerm (it.pe mem) := by
  have hbit : it.pe mem &&& 0xFFF &&& PTE_P = it.pe mem &&& PTE_P := by
    rw [Nat.and_assoc]
    rfl
  have hlow : it.pe mem &&& 0xFFF ≤ 0xFFF := Nat.and_le_right
  have hmod : it.pe mem &&& 1 = it.pe mem % 2 := Nat.and_one_is_mod _
  rw [perm, h, hbit, entryPerm]
  by_cases hp : it.pe mem &&& PTE_P = 0
  · rw [hp, if_neg (by simp)]
    exact Nat.and_zero _
  · have hone : it.pe mem &&& PTE_P = 1 := by
      rw [show it.pe mem &&& PTE_P = it.pe mem &&& 1 from rfl] at hp ⊢
      omega
    rw [hone, if_pos Nat.one_ne_zero, show (2 ^ 64 - 1) % 2 ^ 64 = 2 ^ 64 - 1 from rfl,
      Nat.and_two_pow_sub_one_eq_mod, Nat.mod_eq_of_lt (by omega)]

/-- What an iterator for `va` shows of the table at `root`. -/
structure Sees (mem : ByteMem) (root va : Nat) (it : VmIter) : Prop where
  va_eq : it.va_ = va
  perm_eq : it.perm mem = entryPerm (leaf mem root (slot 4 va))
  pa_eq : leaf mem root (slot 4 va) &&& PTE_P ≠ 0 →
    it.pa mem = (leaf mem root (slot 4 va) &&& PTE_PAMASK) + va % 4096

section

variable {mem mem' : ByteMem} {root va d p : Nat}

theorem Stops.sees (h : Stops mem root va d p) (hplain : d < 3 → NoLarge mem root) :
    Sees mem root va (iterAt root va d p) := by
  obtain ⟨hd, hnode, hlast⟩ := h
  obtain rfl | hlt := Nat.eq_or_lt_of_le hd
  · have hleaf := leaf_slot va hnode
    refine ⟨rfl, ?_, fun hp => ?_⟩
    · rw [hleaf]
      exact perm_eq rfl
    · rw [hleaf] at hp ⊢
      have hpe : (iterAt root va 3 p).pe mem = entry mem p (entryIndex va 12) := rfl
      rw [pa, hpe, if_pos hp]
      show (entry mem p (entryIndex va 12) &&& PTE_PAMASK) + (va &&& lbitsMask 12) = _
      exact congrArg (_ + ·) (Nat.and_two_pow_sub_one_eq_mod va 12)
  · have hzero := leaf_slot_none va (nodeAt_slot_none (Nat.le_refl 3) hlt (by
      rw [nodeAt_succ_slot hd, hnode, Option.bind_some, hlast hlt]))
    have habsent := hplain hlt d hlt _ p hnode _ (entryIndex_lt va (39 - 9 * d)) (hlast hlt)
    refine ⟨rfl, ?_, fun hp => absurd (by rw [hzero]; rfl) hp⟩
    rw [hzero, perm_eq rfl, pe_iterAt, entryPerm, entryPerm, if_neg (not_not_intro habsent)]
    rfl

/-- The page-table page for the entry of `va` exists. -/
def Covered (mem : ByteMem) (root va : Nat) : Prop :=
  ∃ p, nodeAt (child mem) 512 root 3 (slot 3 va) = some p

/-- A walk under a large page does not reach the entry of its address;
such addresses are left out. -/
def Plain (mem : ByteMem) (root va : Nat) : Prop := NoLarge mem root ∨ Covered mem root va

theorem Stops.depth_eq (h : Stops mem root va d p) (hc : Covered mem root va) : d = 3 := by
  obtain ⟨q, hq⟩ := hc
  refine (Nat.lt_or_eq_of_le h.depth).resolve_left fun hlt => ?_
  rw [nodeAt_slot_none (Nat.le_refl 3) hlt (by
    rw [nodeAt_succ_slot h.depth, h.node, Option.bind_some, h.last hlt])] at hq
  cases hq

theorem Stops.noLarge (h : Stops mem root va d p) (hplain : Plain mem root va) :
    d < 3 → NoLarge mem root :=
  fun hlt => hplain.resolve_right fun hc => Nat.ne_of_lt hlt (h.depth_eq hc)

/-- A new iterator shows the entry of its page. -/
theorem new_sees (ht : Tree mem root) (hplain : Plain mem root va)
    (hva : vaIsCanonical va = true) : ∃ it, new mem root va = .ok it ∧ Sees mem root va it := by
  obtain ⟨d, p, hstop, hnew⟩ := new_spec ht hva
  exact ⟨_, hnew, hstop.sees (hstop.noLarge hplain)⟩

/-- A lookup depends on the page-table pages alone. -/
theorem new_congr (ht : Tree mem root) (hsame : SameTables mem mem' root)
    (hva : vaIsCanonical va = true) : new mem' root va = new mem root va := by
  obtain ⟨d, p, hstop, hnew⟩ := new_spec ht hva
  obtain ⟨d', p', hstop', hnew'⟩ := new_spec (hsame.tree ht) hva
  have hback : Stops mem' root va d p := by
    refine ⟨hstop.depth, by rw [hsame.tableAt hstop.depth]; exact hstop.node, fun hlt => ?_⟩
    rw [child, (hsame p ⟨d, hstop.depth, _, hstop.node⟩).entry (entryIndex_lt _ _)]
    exact hstop.last hlt
  obtain ⟨rfl, rfl⟩ := hback.unique hstop'
  rw [hnew, hnew']

end

end VmIter

end SystemsProjects.WeensyOS
