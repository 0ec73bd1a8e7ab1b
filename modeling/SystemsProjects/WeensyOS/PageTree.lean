/-
SystemsProjects.WeensyOS.PageTree — page tables as trees in memory.

A four-level page table is a radix tree of page-table pages, with an
entry's page as child; a `Tree` has no page in two places, and its links
carry every permission. `leaf` is the entry for a page of addresses, zero
where a page-table page is missing. The bit arithmetic of entries is done
here, once.
-/
import SystemsProjects.Base.RadixTree
import SystemsProjects.WeensyOS.VmIter
import Mathlib.Tactic.IntervalCases

namespace SystemsProjects.WeensyOS

open SystemsProjects.Base
open SystemsProjects.Base.RadixTree

/-! ## Bits of an entry -/

theorem and_pamask (e : Nat) : e &&& PTE_PAMASK = e % 2 ^ 52 / 2 ^ 12 * 2 ^ 12 := by
  rw [show PTE_PAMASK = (2 ^ 40 - 1) <<< 12 from rfl, ← Nat.shiftRight_eq_div_pow,
    ← Nat.shiftLeft_eq]
  refine Nat.eq_of_testBit_eq fun i => ?_
  simp only [Nat.testBit_and, Nat.testBit_shiftLeft, Nat.testBit_two_pow_sub_one,
    Nat.testBit_shiftRight, Nat.testBit_mod_two_pow]
  by_cases hi : 12 ≤ i
  · rw [Nat.add_sub_cancel' hi, Bool.and_comm]
    have : (i - 12 < 40) ↔ i < 52 := by omega
    simp [hi, this]
  · simp [hi]

theorem pamask_aligned (e : Nat) : (e &&& PTE_PAMASK) % 4096 = 0 := by
  rw [and_pamask]
  omega

/-- A page address in its permission bits. -/
theorem and_perm_of_aligned {p m : Nat} (hp : p % 4096 = 0) (hm : m < 4096) : p &&& m = 0 := by
  obtain ⟨n, rfl⟩ : ∃ n, p = 2 ^ 12 * n := Nat.dvd_of_mod_eq_zero hp
  refine Nat.eq_of_testBit_eq fun i => ?_
  rw [Nat.testBit_and, Nat.testBit_two_pow_mul, Nat.zero_testBit]
  by_cases hi : 12 ≤ i
  · have hm : m < 2 ^ 12 := hm
    rw [Nat.testBit_lt_two_pow (Nat.lt_of_lt_of_le hm (Nat.pow_le_pow_right Nat.two_pos hi)),
      Bool.and_false]
  · simp [hi]

theorem or_eq_add {p perm : Nat} (hp : p % 4096 = 0) (hperm : perm < 4096) :
    p ||| perm = p + perm := by
  obtain ⟨n, rfl⟩ := Nat.dvd_of_mod_eq_zero hp
  exact (Nat.two_pow_add_eq_or_of_lt (i := 12) hperm n).symm

/-- The permission bits of a mapping. -/
theorem or_and_perm {p perm m : Nat} (hp : p % 4096 = 0) (hm : m < 4096) :
    (p ||| perm) &&& m = perm &&& m := by
  rw [Nat.and_or_distrib_right, and_perm_of_aligned hp hm, Nat.zero_or]

/-- The page of a mapping. -/
theorem or_and_pamask {p perm : Nat} (hp : p % 4096 = 0) (hlt : p < 2 ^ 52) (hperm : perm < 4096) :
    (p ||| perm) &&& PTE_PAMASK = p := by
  rw [or_eq_add hp hperm, and_pamask]
  omega

theorem pamask_of_page {p : Nat} (hp : p % 4096 = 0) (hlt : p < 2 ^ 52) : p &&& PTE_PAMASK = p := by
  rw [and_pamask]
  omega

/-- A link with every permission leaves the collected permissions alone. -/
theorem initialPerm_and {e : Nat} (h : e &&& 7 = 7) :
    0xFFF &&& (e ||| (2 ^ 64 - 1 - (PTE_P ||| PTE_W ||| PTE_U))) = 0xFFF := by
  have habsorb : 0xFF8 &&& e ||| 0xFF8 = 0xFF8 := by
    refine Nat.eq_of_testBit_eq fun i => ?_
    rw [Nat.testBit_or, Nat.testBit_and]
    cases Nat.testBit 0xFF8 i <;> simp
  calc 0xFFF &&& (e ||| (2 ^ 64 - 1 - (PTE_P ||| PTE_W ||| PTE_U)))
      = ((7 ||| 0xFF8) &&& e) ||| 0xFF8 := by rw [Nat.and_or_distrib_left]; rfl
    _ = (e &&& 7) ||| (0xFF8 &&& e ||| 0xFF8) := by
      rw [Nat.and_or_distrib_right, Nat.and_comm 7 e, Nat.or_assoc]
    _ = 0xFFF := by rw [h, habsorb]; rfl

/-! ## Entries -/

/-- Entry `i` of the page-table page at `p`. -/
def entry (mem : ByteMem) (p i : Nat) : Nat := mem.read (entryAddr p i) 8

/-- The page-table page an entry leads to. -/
def link (e : Nat) : Option Nat :=
  if e &&& (PTE_P ||| PTE_PS) = PTE_P then some (e &&& PTE_PAMASK) else none

def child (mem : ByteMem) (p i : Nat) : Option Nat := link (entry mem p i)

/-- The bytes of the page at `p` are the same. -/
def SamePage (mem mem' : ByteMem) (p : Nat) : Prop := ∀ i < 4096, mem' (p + i) = mem (p + i)

theorem SamePage.refl (mem : ByteMem) (p : Nat) : SamePage mem mem p := fun _ _ => rfl

theorem SamePage.trans {mem mem' mem'' : ByteMem} {p : Nat} (h : SamePage mem mem' p)
    (h' : SamePage mem' mem'' p) : SamePage mem mem'' p :=
  fun i hi => (h' i hi).trans (h i hi)

theorem SamePage.entry {mem mem' : ByteMem} {p i : Nat} (h : SamePage mem mem' p) (hi : i < 512) :
    entry mem' p i = entry mem p i := by
  refine ByteMem.read_congr fun j hj => ?_
  rw [entryAddr, Nat.add_assoc]
  exact h _ (by omega)

theorem link_zero : link 0 = none := rfl

/-- The entry that links a page-table page. -/
theorem link_table {q : Nat} (hq : q % 4096 = 0) (hlt : q < 2 ^ 52) :
    link (q ||| PTE_P ||| PTE_W ||| PTE_U) = some q := by
  rw [Nat.or_assoc, Nat.or_assoc, link, or_and_perm hq (by decide), if_pos (by decide),
    or_and_pamask hq hlt (by decide)]

theorem link_aligned {e q : Nat} (h : link e = some q) : q % 4096 = 0 := by
  rw [link] at h
  split at h
  · cases h
    exact pamask_aligned e
  · cases h

/-! ## Trees -/

/-- A page-table page of the table at `root`: the root at depth 0, the
pages that hold the entries of mapped pages at depth 3. -/
abbrev IsTable (mem : ByteMem) (root p : Nat) : Prop := IsNode (child mem) 512 root 3 p

/-- A page table: every page in one place, below 4 GB, and every link with
all permissions. -/
structure Tree (mem : ByteMem) (root : Nat) : Prop where
  distinct : Distinct (child mem) 512 root 3
  aligned : root % 4096 = 0
  low : ∀ p, IsTable mem root p → ∀ i < 512, entry mem p i &&& PTE_PAMASK < 2 ^ 32
  linkPerm : ∀ d < 3, ∀ x p, nodeAt (child mem) 512 root d x = some p → ∀ i < 512, ∀ q,
    child mem p i = some q → entry mem p i &&& 7 = 7

/-- The entry for page `vpn` of the address space. -/
def leaf (mem : ByteMem) (root vpn : Nat) : Nat :=
  match nodeAt (child mem) 512 root 3 (vpn / 512) with
  | none => 0
  | some p => entry mem p (vpn % 512)

/-- No large pages: an entry that is no link is absent. -/
def NoLarge (mem : ByteMem) (root : Nat) : Prop :=
  ∀ d < 3, ∀ x p, nodeAt (child mem) 512 root d x = some p → ∀ i < 512, child mem p i = none →
    entry mem p i &&& PTE_P = 0

/-- The permissions an entry gives. -/
def entryPerm (e : Nat) : Nat := if e &&& PTE_P ≠ 0 then e &&& 0xFFF else 0

section

variable {mem mem' : ByteMem} {root : Nat}

theorem nodeAt_aligned (haligned : root % 4096 = 0) {d x p : Nat}
    (h : nodeAt (child mem) 512 root d x = some p) : p % 4096 = 0 := by
  cases d with
  | zero =>
    rw [nodeAt] at h
    split at h
    · cases h
      exact haligned
    · cases h
  | succ d =>
    rw [nodeAt, Option.bind_eq_some_iff] at h
    obtain ⟨q, -, hq⟩ := h
    exact link_aligned hq

theorem Tree.table_aligned (h : Tree mem root) {p : Nat} (hp : IsTable mem root p) :
    p % 4096 = 0 := by
  obtain ⟨d, -, x, hp⟩ := hp
  exact nodeAt_aligned h.aligned hp

/-- The pages above the last ones decide where the page-table pages are. -/
theorem nodeAt_of_above
    (habove : ∀ d < 3, ∀ x p, nodeAt (child mem) 512 root d x = some p → SamePage mem mem' p)
    {d : Nat} (hd : d ≤ 3) (x : Nat) :
    nodeAt (child mem') 512 root d x = nodeAt (child mem) 512 root d x := by
  refine nodeAt_congr (D := 3) (fun e he y p hp i hi => ?_) (by decide) hd x
  rw [child, child, (habove e he y p hp).entry hi]

/-- A tree whose pages above the last ones are unchanged. -/
theorem Tree.of_above (ht : Tree mem root)
    (habove : ∀ d < 3, ∀ x p, nodeAt (child mem) 512 root d x = some p → SamePage mem mem' p)
    (hlow : ∀ x p, nodeAt (child mem) 512 root 3 x = some p → ∀ i < 512,
      entry mem' p i &&& PTE_PAMASK < 2 ^ 32) :
    Tree mem' root where
  distinct := by
    intro d hd d' hd' x x' p hp hp'
    rw [nodeAt_of_above habove hd] at hp
    rw [nodeAt_of_above habove hd'] at hp'
    exact ht.distinct d hd d' hd' x x' p hp hp'
  aligned := ht.aligned
  low := by
    rintro p ⟨d, hd, x, hp⟩ i hi
    rw [nodeAt_of_above habove hd] at hp
    rcases Nat.lt_or_eq_of_le hd with hlt | rfl
    · rw [(habove d hlt x p hp).entry hi]
      exact ht.low p ⟨d, hd, x, hp⟩ i hi
    · exact hlow x p hp i hi
  linkPerm := by
    intro d hd x p hp i hi q hq
    rw [nodeAt_of_above habove (Nat.le_of_lt hd)] at hp
    have hsame := (habove d hd x p hp).entry hi
    rw [child, hsame] at hq
    rw [hsame]
    exact ht.linkPerm d hd x p hp i hi q hq

/-- A tree whose page-table pages are unchanged. -/
def SameTables (mem mem' : ByteMem) (root : Nat) : Prop :=
  ∀ p, IsTable mem root p → SamePage mem mem' p

theorem SameTables.above (h : SameTables mem mem' root) :
    ∀ d < 3, ∀ x p, nodeAt (child mem) 512 root d x = some p → SamePage mem mem' p :=
  fun d hd x p hp => h p ⟨d, Nat.le_of_lt hd, x, hp⟩

theorem SameTables.tableAt (h : SameTables mem mem' root) {d : Nat} (hd : d ≤ 3) (x : Nat) :
    nodeAt (child mem') 512 root d x = nodeAt (child mem) 512 root d x :=
  nodeAt_of_above h.above hd x

theorem SameTables.isTable (h : SameTables mem mem' root) (p : Nat) :
    IsTable mem' root p ↔ IsTable mem root p := by
  constructor <;> rintro ⟨d, hd, x, hp⟩
  · exact ⟨d, hd, x, by rw [← h.tableAt hd]; exact hp⟩
  · exact ⟨d, hd, x, by rw [← hp]; exact h.tableAt hd x⟩

theorem SameTables.leaf (h : SameTables mem mem' root) (vpn : Nat) :
    leaf mem' root vpn = leaf mem root vpn := by
  rw [WeensyOS.leaf, WeensyOS.leaf, h.tableAt (by decide)]
  cases hp : nodeAt (child mem) 512 root 3 (vpn / 512) with
  | none => rfl
  | some p => exact (h p ⟨3, by decide, _, hp⟩).entry (Nat.mod_lt _ (by decide))

theorem SameTables.tree (h : SameTables mem mem' root) (ht : Tree mem root) : Tree mem' root := by
  refine ht.of_above h.above fun x p hp i hi => ?_
  have htable : IsTable mem root p := ⟨3, by decide, x, hp⟩
  rw [(h p htable).entry hi]
  exact ht.low p htable i hi

theorem SameTables.noLarge (h : SameTables mem mem' root) (hplain : NoLarge mem root) :
    NoLarge mem' root := by
  intro d hd x p hp i hi hnone
  rw [h.tableAt (by omega)] at hp
  have hsame := (h p ⟨d, by omega, x, hp⟩).entry hi
  rw [child, hsame] at hnone
  rw [hsame]
  exact hplain d hd x p hp i hi hnone

end

/-! ### Zeroed memory -/

/-- Memory full of zeros, in which every page is an empty table. -/
def zeroed : ByteMem := fun _ => 0

theorem entry_zeroed (p i : Nat) : entry zeroed p i = 0 := ByteMem.read_zero _ 8

theorem nodeAt_zeroed {root d x p : Nat} (h : nodeAt (child zeroed) 512 root d x = some p) :
    d = 0 ∧ x = 0 ∧ p = root := by
  cases d with
  | zero =>
    rw [nodeAt] at h
    split at h
    · rename_i hx
      exact ⟨rfl, hx, (Option.some.inj h).symm⟩
    · cases h
  | succ d =>
    rw [nodeAt, Option.bind_eq_some_iff] at h
    obtain ⟨q, -, hq⟩ := h
    rw [child, entry_zeroed, link_zero] at hq
    cases hq

theorem distinct_zeroed (root : Nat) : Distinct (child zeroed) 512 root 3 := by
  intro d _ d' _ x x' p hp hp'
  obtain ⟨rfl, rfl, -⟩ := nodeAt_zeroed hp
  obtain ⟨rfl, rfl, -⟩ := nodeAt_zeroed hp'
  exact ⟨rfl, rfl⟩

/-! ## Paths of addresses -/

/-- The prefix of an address that selects its page-table page at depth
`d`; at depth 4, the number of its page. -/
def slot (d va : Nat) : Nat := va % 2 ^ 48 / 2 ^ (48 - 9 * d)

theorem entryIndex_eq (va lbits : Nat) : entryIndex va lbits = va / 2 ^ lbits % 512 := by
  rw [entryIndex, Nat.shiftRight_eq_div_pow]
  exact Nat.and_two_pow_sub_one_eq_mod _ 9

theorem entryIndex_lt (va lbits : Nat) : entryIndex va lbits < 512 := by
  rw [entryIndex_eq]
  exact Nat.mod_lt _ (by decide)

theorem slot_zero (va : Nat) : slot 0 va = 0 := Nat.div_eq_of_lt (Nat.mod_lt _ (by decide))

theorem slot_succ {d : Nat} (hd : d ≤ 3) (va : Nat) :
    slot (d + 1) va = 512 * slot d va + entryIndex va (39 - 9 * d) := by
  rw [slot, slot, entryIndex_eq]
  interval_cases d <;> omega

section

variable {mem : ByteMem} {root : Nat}

theorem nodeAt_succ_slot {d : Nat} (hd : d ≤ 3) (va : Nat) :
    nodeAt (child mem) 512 root (d + 1) (slot (d + 1) va) =
      (nodeAt (child mem) 512 root d (slot d va)).bind fun p => child mem p
      (entryIndex va (39 - 9 * d)) := by
  rw [slot_succ hd]
  exact nodeAt_succ_digits (entryIndex_lt _ _)

theorem leaf_slot (va : Nat) {p : Nat} (h : nodeAt (child mem) 512 root 3 (slot 3 va) = some p) :
    leaf mem root (slot 4 va) = entry mem p (entryIndex va 12) := by
  rw [leaf, slot_succ (by decide), digits_div (entryIndex_lt _ _), h,
    digits_mod (entryIndex_lt _ _)]

theorem leaf_slot_none (va : Nat) (h : nodeAt (child mem) 512 root 3 (slot 3 va) = none) :
    leaf mem root (slot 4 va) = 0 := by
  rw [leaf, slot_succ (by decide), digits_div (entryIndex_lt _ _), h]

end

end SystemsProjects.WeensyOS
