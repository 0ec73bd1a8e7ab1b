/-
SystemsProjects.WeensyOS.Building — a page table under construction.

`process_setup` and `syscall_fork` build a new process's page table from
free pages, one entry after another. `Building` says how far they are:
what the table maps, that its pages were free at the start, that a
reference taken since is held by the table or still `spare`, and that no
page in use has changed. Each operation of the two functions has a lemma
here.
-/
import SystemsProjects.WeensyOS.FreePages
import SystemsProjects.WeensyOS.PageAlloc

namespace SystemsProjects.WeensyOS

open SystemsProjects.Base
open SystemsProjects.Base.RadixTree

/-! ## A page of zeros -/

section

variable {mem : ByteMem} {root d x p : Nat}

theorem nodeAt_empty (hzero : ∀ i < 512, entry mem root i = 0)
    (h : nodeAt (child mem) 512 root d x = some p) : d = 0 ∧ x = 0 ∧ p = root := by
  induction d generalizing x p with
  | zero =>
    rw [nodeAt] at h
    split at h
    · rename_i hx
      exact ⟨rfl, hx, (Option.some.inj h).symm⟩
    · cases h
  | succ d ih =>
    rw [nodeAt, Option.bind_eq_some_iff] at h
    obtain ⟨q, hq, hp⟩ := h
    obtain ⟨-, -, rfl⟩ := ih hq
    rw [child, hzero _ (Nat.mod_lt _ (by decide)), link_zero] at hp
    cases hp

theorem isTable_empty (hzero : ∀ i < 512, entry mem root i = 0) : IsTable mem root p ↔
    p = root := by
  constructor
  · rintro ⟨d, -, x, hp⟩
    exact (nodeAt_empty hzero hp).2.2
  · rintro rfl
    exact isNode_root

theorem tree_empty (haligned : root % 4096 = 0) (hzero : ∀ i < 512, entry mem root i = 0) :
    Tree mem root where
  distinct := by
    intro d _ d' _ x x' p hp hp'
    obtain ⟨rfl, rfl, -⟩ := nodeAt_empty hzero hp
    obtain ⟨rfl, rfl, -⟩ := nodeAt_empty hzero hp'
    exact ⟨rfl, rfl⟩
  aligned := haligned
  low := by
    intro p hp i hi
    rw [isTable_empty hzero] at hp
    rw [hp, hzero i hi, Nat.zero_and]
    decide
  linkPerm := by
    intro d _ x p hp i hi q hq
    obtain ⟨-, -, rfl⟩ := nodeAt_empty hzero hp
    rw [child, hzero i hi, link_zero] at hq
    cases hq

theorem noLarge_empty (hzero : ∀ i < 512, entry mem root i = 0) : NoLarge mem root := by
  intro d _ x p hp i hi _
  obtain ⟨-, -, rfl⟩ := nodeAt_empty hzero hp
  rw [hzero i hi, Nat.zero_and]

theorem leaf_empty (hzero : ∀ i < 512, entry mem root i = 0) (vpn : Nat) :
    leaf mem root vpn = 0 := by
  rw [leaf]
  cases hp : nodeAt (child mem) 512 root 3 (vpn / 512) with
  | none => rfl
  | some p => exact absurd (nodeAt_empty hzero hp).1 (by decide)

end

/-! ## The invariant of the construction -/

/-- The table at `pt` maps `lf`; it was begun in `k₀`. -/
structure Building (L : Layout) (k₀ k : Kernel) (pt : Nat) (lf : Nat → Nat) (spare : Nat → Int) :
    Prop where
  tree : Tree k.mem pt
  noLarge : NoLarge k.mem pt
  leaf : leaf k.mem pt = lf
  tables : ∀ p, IsTable k.mem pt p → Free L k₀ p
  isFresh : ∀ p, Free L k₀ p → k.refs p ≤ 1 ∧ 0 ≤ spare p
  refs : ∀ p, p % 4096 = 0 → (k.refs p : Int) = k₀.refs p + holds k.mem pt p + spare p
  grown : ∀ p, p % 4096 = 0 → k₀.refs p ≤ k.refs p
  mem : ∀ p, p % 4096 = 0 → (Free L k₀ p → Free L k p) → SamePage k₀.mem k.mem p
  ptable : k.ptable = k₀.ptable
  current : k.current = k₀.current

section

variable {L : Layout} {k₀ k k' : Kernel} {pt p q vpn e : Nat} {lf : Nat → Nat}
  {spare spare' : Nat → Int}
  {fresh : List Nat}

namespace Building

theorem congr (h : Building L k₀ k pt lf spare) (hs : ∀ p, p % 4096 = 0 → spare' p = spare p) :
    Building L k₀ k pt lf spare' where
  tree := h.tree
  noLarge := h.noLarge
  leaf := h.leaf
  tables := h.tables
  isFresh := fun p hp => by
    rw [hs p hp.1.aligned]
    exact h.isFresh p hp
  refs := fun p hp => by
    rw [hs p hp]
    exact h.refs p hp
  grown := h.grown
  mem := h.mem
  ptable := h.ptable
  current := h.current

/-- What is free was free at the start. -/
theorem free_of (h : Building L k₀ k pt lf spare) (hq : Free L k q) : Free L k₀ q := by
  have hgrown := h.grown q hq.1.aligned
  exact ⟨hq.1, by rw [hq.2] at hgrown; omega⟩

/-- What the table holds is in use. -/
theorem not_free (h : Building L k₀ k pt lf spare) (hq : 0 < holds k.mem pt q) :
    ¬ Free L k q := by
  intro hfree
  have hrefs := h.refs q hfree.1.aligned
  have hspare := (h.isFresh q (h.free_of hfree)).2
  rw [hfree.2] at hrefs
  omega

theorem free_not_table (h : Building L k₀ k pt lf spare) (hq : Free L k q) :
    ¬ IsTable k.mem pt q :=
  fun ht => h.not_free (holds_pos.mpr (.inl ht)) hq

/-- A page of the table is in use only there. -/
theorem table_once (h : Building L k₀ k pt lf spare) (hp : IsTable k.mem pt p) :
    k.refs p = 1 ∧ frameCount lf p = 0 ∧ spare p = 0 := by
  have hfree := h.tables p hp
  have hrefs := h.refs p hfree.1.aligned
  have hone := h.isFresh p hfree
  rw [holds, tableRef_of_table hp, hfree.2, h.leaf] at hrefs
  omega

/-- A page that the table maps is neither free nor a page of the table. -/
theorem mapped {w : Bool} (h : Building L k₀ k pt lf spare) (hvpn : InUserRange vpn)
    (hq : IsPage L q) (hentry : lf vpn = frameEntry q w) :
    ¬ Free L k q ∧ ¬ IsTable k.mem pt q := by
  have hone := frameCount_of_entry hvpn hq hentry
  refine ⟨h.not_free ?_, fun ht => ?_⟩
  · rw [holds, h.leaf]
    omega
  · have hzero := (h.table_once ht).2.1
    omega

/-- A page that was free at the start is mapped once. -/
theorem mapped_once {w w' : Bool} {vpn' : Nat} (h : Building L k₀ k pt lf spare)
    (hvpn : InUserRange vpn) (hvpn' : InUserRange vpn') (hq : Free L k₀ q)
    (hentry : lf vpn = frameEntry q w) (hentry' : lf vpn' = frameEntry q w') : vpn = vpn' := by
  by_contra hne
  have htwo : frameRef vpn (lf vpn) q + frameRef vpn' (lf vpn') q ≤ frameCount lf q :=
    frameRef_add_le_frameCount hvpn.lt hvpn'.lt hne
  rw [hentry, hentry', frameRef_frameEntry hvpn hq.1, frameRef_frameEntry hvpn' hq.1,
    if_pos rfl] at htwo
  have hfresh := h.isFresh q hq
  have hrefs := h.refs q hq.1.aligned
  rw [hq.2, holds, h.leaf] at hrefs
  omega

/-- Stores to pages that are taken but not of the table. -/
theorem store {mem : ByteMem} (h : Building L k₀ k pt lf spare)
    (hsame : ∀ p, p % 4096 = 0 → (Free L k₀ p → ¬ Free L k p → IsTable k.mem pt p) →
      SamePage k.mem mem p) :
    Building L k₀ { k with mem := mem } pt lf spare := by
  have htables : SameTables k.mem mem pt := fun p hp =>
    hsame p (h.tree.table_aligned hp) fun _ _ => hp
  refine ⟨htables.tree h.tree, htables.noLarge h.noLarge, (funext htables.leaf).trans h.leaf,
    fun p hp => h.tables p ((htables.isTable p).mp hp), h.isFresh, fun p hp => ?_, h.grown,
    fun p hp hkept => ?_, h.ptable, h.current⟩
  · show (k.refs p : Int) = _
    rw [htables.holds]
    exact h.refs p hp
  · exact (h.mem p hp hkept).trans (hsame p hp fun hfree htaken => absurd (hkept hfree) htaken)

/-- A page taken. -/
theorem take (h : Building L k₀ k pt lf spare) (hq : Free L k q) :
    Building L k₀ (k.take q) pt lf fun p => spare p + if p = q then 1 else 0 := by
  have hqal := hq.1.aligned
  have hsame : ∀ p, p % 4096 = 0 → p ≠ q → SamePage k.mem (k.take q).mem p := fun p hp hpq =>
    samePage_fill hp hqal hpq
  have htables : SameTables k.mem (k.take q).mem pt := fun p hp =>
    hsame p (h.tree.table_aligned hp) fun hpq => h.free_not_table hq (hpq ▸ hp)
  refine ⟨htables.tree h.tree, htables.noLarge h.noLarge, (funext htables.leaf).trans h.leaf,
    fun p hp => h.tables p ((htables.isTable p).mp hp), fun p hp => ?_, fun p hp => ?_,
    fun p hp => ?_, fun p hp hkept => ?_, h.ptable, h.current⟩
  · have hfresh := h.isFresh p hp
    rw [refs_take hp.1.aligned hqal]
    split <;> omega
  · have hrefs := h.refs p hp
    rw [refs_take hp hqal, htables.holds]
    split
    · rename_i hpq
      rw [hpq, hq.2] at hrefs
      rw [hpq]
      omega
    · omega
  · have hgrown := h.grown p hp
    rw [refs_take hp hqal]
    split
    · rename_i hpq
      rw [hpq, hq.2] at hgrown
      rw [hpq]
      omega
    · exact hgrown
  · have hpq : p ≠ q := by
      rintro rfl
      exact absurd (hkept (h.free_of hq)) (by rw [free_take hq]; exact fun h' => h'.2 rfl)
    exact (h.mem p hp fun hp => ((free_take hq).mp (hkept hp)).1).trans (hsame p hp hpq)

/-- The table updated. -/
theorem updates {lf' : Nat → Nat} (h : Building L k₀ k pt lf spare)
    (hup : Updates L k k' pt fresh lf') (hspare : ∀ p, Free L k₀ p → 0 ≤ spare' p)
    (hrefs : ∀ p, p % 4096 = 0 → (k'.refs p : Int) = k₀.refs p + holds k'.mem pt p + spare' p) :
    Building L k₀ k' pt lf' spare' where
  tree := hup.tree
  noLarge := hup.noLarge h.noLarge
  leaf := funext hup.leaf
  tables := by
    intro p hp
    rcases (hup.tables p).mp hp with hp | hp
    · exact h.tables p hp
    · exact h.free_of (hup.taken.free p hp)
  isFresh := by
    intro p hp
    have hfresh := h.isFresh p hp
    refine ⟨?_, hspare p hp⟩
    rw [hup.taken.refs p hp.1.aligned]
    split <;> omega
  refs := hrefs
  grown := by
    intro p hp
    have hgrown := h.grown p hp
    rw [hup.taken.refs_eq hp]
    omega
  mem := by
    intro p hp hkept
    have hfree : Free L k₀ p → Free L k p := fun hp => (hup.taken.free_of (hkept hp)).1
    refine (h.mem p hp hfree).trans (hup.mem p hp fun ht => ?_)
    -- a page-table page is not free any more
    rcases (hup.tables p).mp ht with ht' | ht'
    · exact h.free_not_table (hfree (h.tables p ht')) ht'
    · exact (hup.taken.free_of (hkept (h.free_of (hup.taken.free p ht')))).2 ht'
  ptable := hup.ptable.trans h.ptable
  current := hup.current.trans h.current

/-- Page-table pages linked. -/
theorem grow (h : Building L k₀ k pt lf spare)
    (hup : Updates L k k' pt fresh (WeensyOS.leaf k.mem pt)) : Building L k₀ k' pt lf spare := by
  rw [h.leaf] at hup
  refine h.updates hup (fun p hp => (h.isFresh p hp).2) fun p hp => ?_
  rw [← h.leaf] at hup
  have hbal := hup.balance_leaf (fun q => h.free_not_table) hp
  have hrefs := h.refs p hp
  omega

/-- An entry written, with the page-table pages it needs. -/
theorem setEntry (h : Building L k₀ k pt lf spare)
    (hup : Updates L k k' pt fresh (Function.update (WeensyOS.leaf k.mem pt) vpn e))
    (hvpn : vpn < 768) (hold : ∀ p, frameRef vpn (lf vpn) p = 0)
    (hnew : ∀ p, Free L k₀ p → (frameRef vpn e p : Int) ≤ spare p) :
    Building L k₀ k' pt (Function.update lf vpn e) fun p => spare p - frameRef vpn e p := by
  have hbal := fun {p} => hup.balance (p := p) hvpn (fun q => h.free_not_table)
  rw [h.leaf] at hup hbal
  refine h.updates hup (fun p hp => by have := hnew p hp; omega) fun p hp => ?_
  have hbal := hbal hp
  have hrefs := h.refs p hp
  rw [hold p] at hbal
  omega

/-- A reference more on a page that was in use. -/
theorem share (h : Building L k₀ k pt lf spare) (hp : p % 4096 = 0) (hused : ¬ Free L k₀ p)
    (hlt : k.refs p < 255) :
    Building L k₀ (k.setRefcount (p / 4096) (k.physpages (p / 4096) + 1)) pt lf
      fun q => spare q + if q = p then 1 else 0 := by
  have hrefs : ∀ q, q % 4096 = 0 →
      (k.setRefcount (p / 4096) (k.physpages (p / 4096) + 1)).refs q =
        k.refs q + if q = p then 1 else 0 := by
    intro q hq
    have hone : (k.physpages (p / 4096) + 1) % 256 = k.refs p + 1 :=
      Nat.mod_eq_of_lt (Nat.succ_lt_succ hlt)
    simp only [Kernel.setRefcount, Kernel.refs, Function.update_apply, div_page_inj hq hp]
    split
    · rename_i hqp
      rw [hqp]
      exact hone
    · rfl
  refine ⟨h.tree, h.noLarge, h.leaf, h.tables, fun q hq => ?_, fun q hq => ?_, fun q hq => ?_,
    fun q hq hkept => h.mem q hq fun hfree => ?_, h.ptable, h.current⟩
  · have hqp : q ≠ p := by
      rintro rfl
      exact hused hq
    have hfresh := h.isFresh q hq
    rw [hrefs q hq.1.aligned, if_neg hqp]
    omega
  · have := h.refs q hq
    rw [hrefs q hq]
    show _ = (k₀.refs q : Int) + holds k.mem pt q + _
    split <;> omega
  · have := h.grown q hq
    rw [hrefs q hq]
    omega
  · have hkept := hkept hfree
    have hzero := hkept.2
    rw [hrefs q hq] at hzero
    exact ⟨hkept.1, by omega⟩

end Building

/-! ## The start -/

theorem kallocPagetable_nil (h : freePages L k = []) : kallocPagetable L k = (none, k) := by
  rw [kallocPagetable, kalloc_nil h]

/-- **`kalloc_pagetable`** begins a table. -/
theorem kallocPagetable_cons {l : List Nat} (h : freePages L k = pt :: l) :
    ∃ k', kallocPagetable L k = (some pt, k') ∧ freePages L k' = l ∧
      (∀ p, IsTable k'.mem pt p → p = pt) ∧ Building L k k' pt (fun _ => 0) fun _ => 0 := by
  have hq : Free L k pt := mem_freePages.mp (h ▸ List.mem_cons_self)
  have hal := hq.1.aligned
  let k' := (k.take pt).memset pt 0 PAGESIZE
  have hzero : ∀ i < 512, entry k'.mem pt i = 0 := fun i hi => entry_fill_zero hi
  have hrefs : ∀ p, p % 4096 = 0 → k'.refs p = if p = pt then 1 else k.refs p := fun p hp =>
    refs_take hp hal
  have hholds : ∀ p, holds k'.mem pt p = if p = pt then 1 else 0 := by
    intro p
    have hframes : frameCount (WeensyOS.leaf k'.mem pt) p = 0 := by
      refine frameCount_eq_zero fun vpn _ => ?_
      rw [leaf_empty hzero]
      exact frameRef_of_not_user (by decide)
    rw [holds, hframes, Nat.zero_add]
    split
    · rename_i hp
      exact tableRef_of_table ((isTable_empty hzero).mpr hp)
    · rename_i hp
      exact tableRef_of_not_table (mt (isTable_empty hzero).mp hp)
  refine ⟨k', by rw [kallocPagetable, kalloc_cons h], freePages_take h,
    fun p => (isTable_empty hzero).mp, tree_empty hal hzero,
    noLarge_empty hzero, funext (leaf_empty hzero), fun p hp => ?_, fun p hp => ⟨?_, Int.le_refl 0⟩,
    fun p hp => ?_, fun p hp => ?_, fun p hp hkept => ?_, rfl, rfl⟩
  · rw [(isTable_empty hzero).mp hp]
    exact hq
  · rw [hrefs p hp.1.aligned, hp.2]
    split <;> omega
  · rw [hrefs p hp, hholds p]
    split
    · rename_i hpt
      rw [hpt, hq.2]
      rfl
    · omega
  · rw [hrefs p hp]
    split
    · rename_i hpt
      rw [hpt, hq.2]
      exact Nat.zero_le 1
    · exact Nat.le_refl _
  · have hpt : p ≠ pt := by
      rintro rfl
      have hone := (hkept hq).2
      rw [hrefs p hp, if_pos rfl] at hone
      cases hone
    exact (samePage_fill hp hal hpt).trans (samePage_fill hp hal hpt)

end

/-! ## `try_map` -/

/-- `try_map` at `va` returned 0, with the page-table pages `l`. -/
structure Maps (L : Layout) (k k' : Kernel) (pt va : Nat) (l : List Nat) : Prop where
  drawn : Drawn L k k' l
  covered : VmIter.Covered k'.mem pt va
  grows : ∀ d ≤ 3, ∀ x p, nodeAt (child k.mem) 512 pt d x = some p →
    nodeAt (child k'.mem) 512 pt d x = some p
  path : ∀ d ≤ 3, ∀ x p, nodeAt (child k'.mem) 512 pt d x = some p →
    nodeAt (child k.mem) 512 pt d x = some p ∨ x = slot d va
  tables : ∀ p, IsTable k'.mem pt p ↔ IsTable k.mem pt p ∨ p ∈ l
  mem : ∀ p, p % 4096 = 0 → ¬ IsTable k'.mem pt p → SamePage k.mem k'.mem p

section

variable {L : Layout} {k₀ k k' : Kernel} {pt va pa perm d p : Nat} {lf : Nat → Nat}
  {spare : Nat → Int}

/-- The root is the only page-table page. -/
def RootOnly (mem : ByteMem) (pt : Nat) : Prop := ∀ p, IsTable mem pt p → p = pt

/-- The page-table pages for addresses below 2 MB are there, and with
`high` also those for the rest; they are on one path but for the last. -/
structure LowTables (mem : ByteMem) (pt : Nat) (high : Bool) : Prop where
  low : VmIter.Covered mem pt 0
  high_iff : VmIter.Covered mem pt 0x200000 ↔ high = true
  narrow : ∀ d ≤ 2, ∀ x p, nodeAt (child mem) 512 pt d x = some p → x = 0

/-- The page-table pages that an address lacks. -/
def lacking (high : Bool) (va : Nat) : Nat := if high = false ∧ 0x200000 ≤ va then 1 else 0

theorem lacking_low {high : Bool} (h : va < 0x200000) : lacking high va = 0 :=
  if_neg fun h' => absurd h'.2 (Nat.not_le.mpr h)

theorem RootOnly.stops {mem : ByteMem} (h : RootOnly mem pt)
    (hdist : Distinct (child mem) 512 pt 3) (hstop : VmIter.Stops mem pt va d p) : d = 0 := by
  obtain rfl := h p ⟨d, hstop.depth, _, hstop.node⟩
  exact (hdist d hstop.depth 0 (by decide) _ 0 p hstop.node nodeAt_root).1

theorem RootOnly.not_covered {mem : ByteMem} (h : RootOnly mem pt)
    (hdist : Distinct (child mem) 512 pt 3) : ¬ VmIter.Covered mem pt va := by
  rintro ⟨p, hp⟩
  obtain rfl := h p ⟨3, Nat.le_refl 3, _, hp⟩
  exact absurd (hdist 3 (Nat.le_refl 3) 0 (by decide) _ 0 p hp nodeAt_root).1 (by decide)

theorem covered_congr {mem : ByteMem} {a b : Nat} (h : slot 3 a = slot 3 b) :
    VmIter.Covered mem pt a ↔ VmIter.Covered mem pt b := by
  rw [VmIter.Covered, VmIter.Covered, h]

theorem slot_low (h : va < 0x200000) : slot 3 va = slot 3 0 := by
  simp only [slot]
  omega

theorem slot_high (h : 0x200000 ≤ va) (h' : va < MEMSIZE_VIRTUAL) :
    slot 3 va = slot 3 0x200000 := by
  have h' : va < 0x300000 := h'
  simp only [slot]
  omega

theorem LowTables.covered_iff {mem : ByteMem} {high : Bool} (h : LowTables mem pt high)
    (hva : va < MEMSIZE_VIRTUAL) :
    VmIter.Covered mem pt va ↔ va < 0x200000 ∨ high = true := by
  by_cases hlow : va < 0x200000
  · rw [covered_congr (slot_low hlow)]
    exact iff_of_true h.low (.inl hlow)
  · rw [covered_congr (slot_high (Nat.not_lt.mp hlow) hva), h.high_iff, or_iff_right hlow]

/-- Two of the three are there for every address. -/
theorem LowTables.stops {mem : ByteMem} {high : Bool} (h : LowTables mem pt high)
    (hva : va < MEMSIZE_VIRTUAL) (hstop : VmIter.Stops mem pt va d p) :
    3 - d = lacking high va := by
  have hva' : va < 0x300000 := hva
  have hd := hstop.depth
  by_cases hc : VmIter.Covered mem pt va
  · rw [hstop.depth_eq hc, lacking, if_neg]
    rw [h.covered_iff hva] at hc
    rintro ⟨rfl, hle⟩
    rcases hc with hc | hc
    · omega
    · cases hc
  · have hd2 : 2 ≤ d := by
      obtain ⟨r, hr⟩ := h.low
      have hslot : slot 2 0 = slot 2 va := by
        simp only [slot]
        omega
      by_contra hlt
      have hnone : nodeAt (child mem) 512 pt 2 (slot 2 va) = none :=
        VmIter.nodeAt_slot_none (by decide) (Nat.lt_of_not_le hlt) (by
          rw [nodeAt_succ_slot hd, hstop.node, Option.bind_some, hstop.last (by omega)])
      rw [nodeAt_succ_slot (by decide), hslot, hnone, Option.bind_none] at hr
      cases hr
    have hd3 : d ≠ 3 := by
      rintro rfl
      exact hc ⟨p, hstop.node⟩
    rw [h.covered_iff hva, not_or] at hc
    rw [lacking, if_pos ⟨by simpa using hc.2, by omega⟩]
    omega

/-- The pages in their slots, and nothing else, matter. -/
theorem LowTables.congr {mem mem' : ByteMem} {high : Bool} (hl : LowTables mem pt high)
    (h : ∀ d ≤ 3, ∀ x, nodeAt (child mem') 512 pt d x = nodeAt (child mem) 512 pt d x) :
    LowTables mem' pt high := by
  have hcov : ∀ a, VmIter.Covered mem' pt a ↔ VmIter.Covered mem pt a := fun a => by
    rw [VmIter.Covered, VmIter.Covered, h 3 (Nat.le_refl 3)]
  refine ⟨(hcov 0).mpr hl.low, (hcov _).trans hl.high_iff, fun d hd x p hp => ?_⟩
  rw [h d (Nat.le_trans hd (by decide))] at hp
  exact hl.narrow d hd x p hp

theorem SameTables.lowTables {mem mem' : ByteMem} {high : Bool} (h : SameTables mem mem' pt)
    (hl : LowTables mem pt high) : LowTables mem' pt high :=
  hl.congr fun _ hd x => h.tableAt hd x

theorem Maps.keeps {l : List Nat} {a : Nat} (h : Maps L k k' pt va l)
    (hc : VmIter.Covered k.mem pt a) : VmIter.Covered k'.mem pt a := by
  obtain ⟨p, hp⟩ := hc
  exact ⟨p, h.grows 3 (Nat.le_refl 3) _ p hp⟩

theorem Maps.only {l : List Nat} {a : Nat} (h : Maps L k k' pt va l)
    (hc : VmIter.Covered k'.mem pt a) : VmIter.Covered k.mem pt a ∨ slot 3 a = slot 3 va := by
  obtain ⟨p, hp⟩ := hc
  exact (h.path 3 (Nat.le_refl 3) _ p hp).imp_left fun hp => ⟨p, hp⟩

/-- The tables above the last are shared by all addresses below 1 GB. -/
theorem slot_narrow (hva : va < MEMSIZE_VIRTUAL) (hd : d ≤ 2) : slot d va = 0 := by
  have hva : va < 0x300000 := hva
  have hle : 2 ^ 30 ≤ 2 ^ (48 - 9 * d) := Nat.pow_le_pow_right (by decide) (by omega)
  exact Nat.div_eq_of_lt (Nat.lt_of_le_of_lt (Nat.mod_le _ _) (by omega))

theorem Maps.lowTables {l : List Nat} {high : Bool} (h : Maps L k k' pt va l)
    (hva : va < MEMSIZE_VIRTUAL) (hl : LowTables k.mem pt high) :
    LowTables k'.mem pt (high || decide (0x200000 ≤ va)) where
  low := h.keeps hl.low
  high_iff := by
    rw [Bool.or_eq_true, decide_eq_true_eq]
    constructor
    · intro hc
      rcases h.only hc with hc | hslot
      · exact .inl (hl.high_iff.mp hc)
      · refine .inr (Nat.not_lt.mp fun hlt => ?_)
        rw [slot_low hlt] at hslot
        exact absurd hslot (by decide)
    · rintro (hhigh | hle)
      · exact h.keeps (hl.high_iff.mpr hhigh)
      · exact (covered_congr (slot_high hle hva)).mp h.covered
  narrow := by
    intro d hd x p hp
    rcases h.path d (by omega) x p hp with hp | hx
    · exact hl.narrow d hd x p hp
    · rw [hx, slot_narrow hva hd]

/-- The first page. -/
theorem Maps.lowTables_first {l : List Nat} (h : Maps L k k' pt va l) (hva : va < 0x200000)
    (hr : RootOnly k.mem pt) (hdist : Distinct (child k.mem) 512 pt 3) :
    LowTables k'.mem pt false where
  low := (covered_congr (slot_low hva)).mp h.covered
  high_iff := by
    refine iff_of_false (fun hc => ?_) Bool.false_ne_true
    rcases h.only hc with hc | hslot
    · exact hr.not_covered hdist hc
    · rw [slot_low hva] at hslot
      exact absurd hslot (by decide)
  narrow := by
    intro d hd x p hp
    rcases h.path d (by omega) x p hp with hp | hx
    · obtain rfl := hr p ⟨d, by omega, x, hp⟩
      exact (hdist d (by omega) 0 (by decide) x 0 p hp nodeAt_root).2
    · rw [hx, slot_narrow (Nat.lt_trans hva (by decide)) hd]

/-- **`try_map`** under construction: it fails only for want of
page-table pages. -/
theorem Building.tryMapAt_cases (h : Building L k₀ k pt lf spare) (hm : VmIter.Mappable va pa perm)
    (hperm : perm ≠ 0) (hva : va < MEMSIZE_VIRTUAL)
    (hold : ∀ p, frameRef (va / 4096) (lf (va / 4096)) p = 0)
    (hnew : ∀ p, Free L k₀ p → (frameRef (va / 4096) (pa ||| perm) p : Int) ≤ spare p) :
    ∃ d p, VmIter.Stops k.mem pt va d p ∧
      ((∃ k' l, tryMapAt L pt va pa perm k = .ok (0, k') ∧ l.length = 3 - d ∧ Maps L k k' pt va l ∧
        Building L k₀ k' pt (Function.update lf (va / 4096) (pa ||| perm))
          fun p => spare p - frameRef (va / 4096) (pa ||| perm) p) ∨
      ∃ k' l, tryMapAt L pt va pa perm k = .ok (-1, k') ∧ l.length < 3 - d ∧
        freePages L k = l ∧ freePages L k' = [] ∧ Building L k₀ k' pt lf spare) := by
  obtain ⟨d, p, hstop, hout⟩ := tryMapAt_spec (L := L) hm h.tree
    (.inr ⟨hperm, h.noLarge, fun q => h.free_not_table⟩)
  have hdrawn : ∀ {r : Int} {k' : Kernel}, tryMapAt L pt va pa perm k = .ok (r, k') →
      ∃ l, Drawn L k k' l := by
    intro r k' hrun
    rw [tryMapAt] at hrun
    obtain ⟨it, -, hrun⟩ := bind_eq_ok hrun
    obtain ⟨out, htry, hrun⟩ := bind_eq_ok hrun
    cases hrun
    exact tryMap_drawn htry
  refine ⟨d, p, hstop, ?_⟩
  rcases hout with ⟨k', fresh, hrun, hin⟩ | ⟨k', fresh, hrun, hex⟩
  · obtain ⟨l, hl⟩ := hdrawn hrun
    have hperm := hl.perm hin.updates.taken
    have hup := hin.updates
    rw [slot_page hva] at hup
    refine .inl ⟨k', l, hrun, by rw [← hperm.length_eq, hin.length], ⟨hl, hin.covered, hup.grows,
      hin.path, fun p => ?_, hup.mem⟩, h.setEntry hup (Nat.div_lt_of_lt_mul hva) hold hnew⟩
    rw [hup.tables, hperm.mem_iff]
  · obtain ⟨l, hl⟩ := hdrawn hrun
    have hperm := hl.perm hex.updates.taken
    have hnil := outOfPages_iff.mp hex.out
    refine .inr ⟨k', l, hrun, by rw [← hperm.length_eq]; exact hex.short, ?_, hnil,
      h.grow hex.updates⟩
    rw [hl.order, hnil, List.append_nil]

end

end SystemsProjects.WeensyOS
