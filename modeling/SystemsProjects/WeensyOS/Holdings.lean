/-
SystemsProjects.WeensyOS.Holdings — the references a page table holds.

A page table holds one reference on every page it maps for user access,
the console apart, and one on each of its own pages; `holds` counts them.
The kernel keeps no such count. It is what the reference counts of
`physpages` are compared with: every update of a table raises both alike
(`Updates.balance`), and `free_pagetable` gives back what the table holds.
-/
import SystemsProjects.WeensyOS.Mapping
import Mathlib.Algebra.BigOperators.Group.Finset.Basic
import Mathlib.Algebra.Order.BigOperators.Group.Finset

namespace SystemsProjects.WeensyOS

open SystemsProjects.Base
open SystemsProjects.Base.RadixTree

/-- An entry that gives its page to the process. -/
def UserEntry (e : Nat) : Prop := e &&& (PTE_P ||| PTE_U) = PTE_P ||| PTE_U

instance (e : Nat) : Decidable (UserEntry e) := inferInstanceAs (Decidable (_ = _))

/-- The references on the page at `p` that entry `e` of page `vpn` holds. -/
def frameRef (vpn e p : Nat) : Nat :=
  if UserEntry e ∧ vpn ≠ CONSOLE_ADDR / PAGESIZE ∧ e &&& PTE_PAMASK = p then 1 else 0

/-- Those of all entries below `MEMSIZE_VIRTUAL`. -/
def frameCount (lf : Nat → Nat) (p : Nat) : Nat :=
  ∑ vpn ∈ Finset.range 768, frameRef vpn (lf vpn) p

open Classical in
/-- The reference on a page of the table itself. -/
noncomputable def tableRef (mem : ByteMem) (root p : Nat) : Nat :=
  if IsTable mem root p then 1 else 0

/-- The references on the page at `p` that the table at `root` holds. -/
noncomputable def holds (mem : ByteMem) (root p : Nat) : Nat :=
  frameCount (leaf mem root) p + tableRef mem root p

section

variable {vpn e p : Nat} {lf lf' : Nat → Nat}

theorem frameRef_le_one : frameRef vpn e p ≤ 1 := by
  unfold frameRef
  split
  · exact Nat.le_refl 1
  · exact Nat.zero_le 1

theorem frameRef_of_not_user (h : ¬ UserEntry e) : frameRef vpn e p = 0 :=
  if_neg fun h' => h h'.1

theorem frameRef_console : frameRef (CONSOLE_ADDR / PAGESIZE) e p = 0 :=
  if_neg fun h => h.2.1 rfl

theorem frameRef_user (h : UserEntry e) (hne : vpn ≠ CONSOLE_ADDR / PAGESIZE) :
    frameRef vpn e p = if p = e &&& PTE_PAMASK then 1 else 0 := by
  simp only [frameRef, h, hne, ne_eq, not_false_eq_true, true_and, eq_comm]

/-- Two entries that map a page hold two references. -/
theorem frameRef_add_le_frameCount {vpn' : Nat} (h : vpn < 768) (h' : vpn' < 768)
    (hne : vpn ≠ vpn') :
    frameRef vpn (lf vpn) p + frameRef vpn' (lf vpn') p ≤ frameCount lf p := by
  rw [frameCount, ← Finset.add_sum_erase _ _ (Finset.mem_range.mpr h)]
  refine Nat.add_le_add_left ?_ _
  exact Finset.single_le_sum (f := fun vpn => frameRef vpn (lf vpn) p) (fun _ _ => Nat.zero_le _)
    (Finset.mem_erase.mpr ⟨hne.symm, Finset.mem_range.mpr h'⟩)

theorem frameCount_pos : 0 < frameCount lf p ↔ ∃ vpn < 768, frameRef vpn (lf vpn) p ≠ 0 := by
  rw [frameCount, Finset.sum_pos_iff]
  simp only [Finset.mem_range, Nat.pos_iff_ne_zero]

/-- One entry changed. -/
theorem frameCount_update (h : vpn < 768) :
    frameCount (Function.update lf vpn e) p + frameRef vpn (lf vpn) p =
      frameCount lf p + frameRef vpn e p := by
  have hmem := Finset.mem_range.mpr h
  have hrest : ∑ n ∈ (Finset.range 768).erase vpn, frameRef n (Function.update lf vpn e n) p =
      ∑ n ∈ (Finset.range 768).erase vpn, frameRef n (lf n) p := by
    refine Finset.sum_congr rfl fun n hn => ?_
    rw [Function.update_of_ne (Finset.ne_of_mem_erase hn)]
  rw [frameCount, frameCount, ← Finset.add_sum_erase _ _ hmem,
    ← Finset.add_sum_erase _ _ hmem, hrest,
    Function.update_self]
  omega

theorem frameCount_le (h : ∀ vpn < 768, frameRef vpn (lf' vpn) p ≤ frameRef vpn (lf vpn) p) :
    frameCount lf' p ≤ frameCount lf p :=
  Finset.sum_le_sum fun vpn hvpn => h vpn (Finset.mem_range.mp hvpn)

theorem frameCount_eq_zero (h : ∀ vpn < 768, frameRef vpn (lf vpn) p = 0) : frameCount lf p = 0 :=
  Finset.sum_eq_zero fun vpn hvpn => h vpn (Finset.mem_range.mp hvpn)

end

/-! ## What an iterator shows of an entry -/

section

variable {mem : ByteMem} {root va m e : Nat} {it : VmIter}

theorem slot_page (h : va < MEMSIZE_VIRTUAL) : slot 4 va = va / 4096 := by
  have h : va < 0x300000 := h
  rw [slot]
  omega

theorem UserEntry.present (h : UserEntry e) : e &&& PTE_P ≠ 0 := by
  have hbit : e &&& (PTE_P ||| PTE_U) &&& PTE_P = e &&& PTE_P := by
    rw [Nat.and_assoc]
    rfl
  rw [← hbit, h]
  decide

/-- A set of permissions with `PTE_P` is shown if the entry has it. -/
theorem entryPerm_and (hm : m < 4096) (hp : m &&& PTE_P = PTE_P) :
    entryPerm e &&& m = m ↔ e &&& m = m := by
  rw [entryPerm]
  by_cases hpresent : e &&& PTE_P = 0
  · rw [if_neg (not_not_intro hpresent), Nat.zero_and]
    refine iff_of_false ?_ fun h => ?_
    · rintro rfl
      cases hp
    · rw [← h, Nat.and_assoc, Nat.and_comm m, ← Nat.and_assoc, hpresent, Nat.zero_and] at hp
      cases hp
  · have hmask : 0xFFF &&& m = m := by
      rw [Nat.and_comm]
      exact (Nat.and_two_pow_sub_one_eq_mod m 12).trans (Nat.mod_eq_of_lt hm)
    rw [if_pos hpresent, Nat.and_assoc, hmask]

theorem VmIter.Sees.hasPerm_iff (h : Sees mem root va it) (hlow : va < MEMSIZE_VIRTUAL)
    (hm : m < 4096) (hp : m &&& PTE_P = PTE_P) :
    it.hasPerm mem m = true ↔ leaf mem root (va / 4096) &&& m = m := by
  rw [hasPerm, decide_eq_true_eq, h.perm_eq, slot_page hlow, entryPerm_and hm hp]

theorem VmIter.Sees.user_iff (h : Sees mem root va it) (hlow : va < MEMSIZE_VIRTUAL) :
    it.user mem = true ↔ UserEntry (leaf mem root (va / 4096)) :=
  h.hasPerm_iff hlow (by decide) (by decide)

theorem VmIter.Sees.writable_iff (h : Sees mem root va it) (hlow : va < MEMSIZE_VIRTUAL) :
    it.writable mem = true ↔ leaf mem root (va / 4096) &&& (PTE_P ||| PTE_W) = PTE_P ||| PTE_W :=
  h.hasPerm_iff hlow (by decide) (by decide)

theorem VmIter.Sees.present_iff (h : Sees mem root va it) (hlow : va < MEMSIZE_VIRTUAL) :
    it.present mem = true ↔ leaf mem root (va / 4096) &&& PTE_P ≠ 0 := by
  have hbit := Nat.and_one_is_mod (leaf mem root (va / 4096))
  rw [present, h.hasPerm_iff hlow (by decide) (by decide)]
  show leaf mem root (va / 4096) &&& 1 = 1 ↔ leaf mem root (va / 4096) &&& 1 ≠ 0
  omega

end

section

variable {L : Layout} {k k' : Kernel} {mem mem' : ByteMem} {root p : Nat}

theorem tableRef_of_table (h : IsTable mem root p) : tableRef mem root p = 1 := if_pos h

theorem tableRef_of_not_table (h : ¬ IsTable mem root p) : tableRef mem root p = 0 := if_neg h

theorem tableRef_congr (h : IsTable mem' root p ↔ IsTable mem root p) :
    tableRef mem' root p = tableRef mem root p := by
  by_cases hp : IsTable mem root p
  · rw [tableRef_of_table hp, tableRef_of_table (h.mpr hp)]
  · rw [tableRef_of_not_table hp, tableRef_of_not_table (mt h.mp hp)]

theorem holds_pos : 0 < holds mem root p ↔
    IsTable mem root p ∨ ∃ vpn < 768, frameRef vpn (leaf mem root vpn) p ≠ 0 := by
  rw [← frameCount_pos, holds]
  by_cases h : IsTable mem root p
  · rw [tableRef_of_table h]
    exact iff_of_true (Nat.succ_pos _) (.inl h)
  · rw [tableRef_of_not_table h, Nat.add_zero, or_iff_right h]

theorem SameTables.holds (h : SameTables mem mem' root) (p : Nat) :
    holds mem' root p = holds mem root p := by
  rw [WeensyOS.holds, WeensyOS.holds, funext h.leaf, tableRef_congr (h.isTable p)]

/-- Fresh page-table pages are new ones. -/
theorem Updates.tableRef {fresh : List Nat} {lf : Nat → Nat} (h : Updates L k k' root fresh lf)
    (hfree : ∀ q, Free L k q → ¬ IsTable k.mem root q) (p : Nat) :
    tableRef k'.mem root p = tableRef k.mem root p + if p ∈ fresh then 1 else 0 := by
  by_cases hp : p ∈ fresh
  · rw [tableRef_of_table ((h.tables p).mpr (.inr hp)),
      tableRef_of_not_table (hfree p (h.taken.free p hp)), if_pos hp]
  · rw [if_neg hp, Nat.add_zero, tableRef_congr ((h.tables p).trans (or_iff_left hp))]

theorem Taken.refs_eq {fresh : List Nat} (h : Taken L k k' fresh) (hp : p % 4096 = 0) :
    k'.refs p = k.refs p + if p ∈ fresh then 1 else 0 := by
  rw [h.refs p hp]
  split
  · rename_i hmem
    rw [(h.free p hmem).2]
  · rfl

/-- **Counts and holdings change alike** when an entry changes, but for
that entry's own page. -/
theorem Updates.balance {fresh : List Nat} {vpn e : Nat} (hvpn : vpn < 768)
    (h : Updates L k k' root fresh (Function.update (WeensyOS.leaf k.mem root) vpn e))
    (hfree : ∀ q, Free L k q → ¬ IsTable k.mem root q) (hp : p % 4096 = 0) :
    k'.refs p + WeensyOS.holds k.mem root p + frameRef vpn e p =
      k.refs p + WeensyOS.holds k'.mem root p + frameRef vpn (WeensyOS.leaf k.mem root vpn) p := by
  have hframes : frameCount (Function.update (WeensyOS.leaf k.mem root) vpn e) p +
      frameRef vpn (WeensyOS.leaf k.mem root vpn) p =
        frameCount (WeensyOS.leaf k.mem root) p + frameRef vpn e p := frameCount_update hvpn
  rw [h.taken.refs_eq hp, WeensyOS.holds, WeensyOS.holds, h.tableRef hfree p, funext h.leaf]
  omega

/-- The same without a changed entry. -/
theorem Updates.balance_leaf {fresh : List Nat}
    (h : Updates L k k' root fresh (WeensyOS.leaf k.mem root))
    (hfree : ∀ q, Free L k q → ¬ IsTable k.mem root q) (hp : p % 4096 = 0) :
    k'.refs p + WeensyOS.holds k.mem root p = k.refs p + WeensyOS.holds k'.mem root p := by
  rw [h.taken.refs_eq hp, WeensyOS.holds, WeensyOS.holds, h.tableRef hfree p, funext h.leaf]
  omega

end

end SystemsProjects.WeensyOS
