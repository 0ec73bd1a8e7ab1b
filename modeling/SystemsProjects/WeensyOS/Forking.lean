/-
SystemsProjects.WeensyOS.Forking — the table `fork` builds for a child.

The second loop of `fork` goes over the parent's pages in order. Up to
page `n` the child's table has what `CopyOf` says, and the free pages
taken so far are known exactly: a frame for each page the parent may
write, and the page-table pages. The loop stops early only for want of a
page, and then its table can be taken down again.
-/
import SystemsProjects.WeensyOS.Teardown
import SystemsProjects.WeensyOS.UserView

namespace SystemsProjects.WeensyOS

open SystemsProjects.Base
open SystemsProjects.Base.RadixTree

/-! ## Pages of the parent -/

/-- What a process may access on page `vpn`. -/
def pageView (k : Kernel) (vpn : Nat) : Option (Nat × Bool) :=
  userPage k.mem k.cur.pagetable (vpn * PAGESIZE)

/-- The pages below page `n` that the process may write, the console
apart. -/
def ownPages (k : Kernel) : Nat → Nat
  | 0 => 0
  | n + 1 =>
    ownPages k n +
      if n ≠ CONSOLE_ADDR / PAGESIZE ∧ (pageView k n).any Prod.snd = true then 1 else 0

/-- The process has a page from 2 MB on, below page `n`. -/
def hasHigh (k : Kernel) (n : Nat) : Bool :=
  (List.range n).any fun vpn => decide (0x200 ≤ vpn) && (pageView k vpn).isSome

/-- The pages that the process may only read have fewer than `m`
references. -/
def SharesBelow (k : Kernel) (m : Nat) : Prop :=
  ∀ vpn < MEMSIZE_VIRTUAL / PAGESIZE, ∀ p, pageView k vpn = some (p, false) → k.refs p < m

/-- What `fork` needs of the state it is called in. -/
structure CanFork (L : Layout) (k : Kernel) : Prop where
  inv : Inv L k
  live : Live k k.current
  counts : SharesBelow k 255

/-- What a child gets for an entry of its parent. -/
inductive CopyOf (L : Layout) (k₀ : Kernel) (mem : ByteMem) : Nat → Nat → Prop where
  | absent : CopyOf L k₀ mem 0 0
  | shared {p : Nat} (hp : IsPage L p) :
      CopyOf L k₀ mem (frameEntry p false) (frameEntry p false)
  | copied {p q : Nat} (hp : IsPage L p) (hq : Free L k₀ q)
      (hbytes : ∀ i < 4096, mem (q + i) = k₀.mem (p + i)) :
      CopyOf L k₀ mem (frameEntry p true) (frameEntry q true)

/-- The child's table at `pt`, done up to page `n`. -/
structure Forking (L : Layout) (k₀ k : Kernel) (pt n : Nat) (lf : Nat → Nat) : Prop where
  building : Building L k₀ k pt lf fun _ => 0
  below : ∀ vpn < n, InUserRange vpn →
    CopyOf L k₀ k.mem (leaf k₀.mem (k₀.root k₀.current) vpn) (lf vpn)
  rest : ∀ vpn, ¬ (vpn < n ∧ InUserRange vpn) → lf vpn = kernelEntry vpn
  tables : LowTables k.mem pt (hasHigh k₀ n)
  free : freePages L k =
    (freePages L k₀).drop (4 + ownPages k₀ n + if hasHigh k₀ n = true then 1 else 0)
  room : 4 + ownPages k₀ n + (if hasHigh k₀ n = true then 1 else 0) ≤ (freePages L k₀).length

section

variable {L : Layout} {k₀ k k' : Kernel} {pt n p vpn : Nat} {lf : Nat → Nat} {w : Bool}

theorem hasHigh_succ (k : Kernel) (n : Nat) :
    hasHigh k (n + 1) = (hasHigh k n || (decide (0x200 ≤ n) && (pageView k n).isSome)) := by
  rw [hasHigh, List.range_succ, List.any_append, List.any_cons, List.any_nil, Bool.or_false]
  rfl

theorem hasHigh_iff : hasHigh k n = true ↔ ∃ vpn < n, 0x200 ≤ vpn ∧
    (pageView k vpn).isSome = true := by
  simp only [hasHigh, List.any_eq_true, List.mem_range, Bool.and_eq_true, decide_eq_true_eq]

theorem ownPages_mono {m : Nat} (h : m ≤ n) : ownPages k m ≤ ownPages k n := by
  induction h with
  | refl => exact Nat.le_refl _
  | step _ ih => exact ih.trans (Nat.le_add_right _ _)

/-- Without a page from 2 MB on there is none to write there. -/
theorem ownPages_low (hn : 0x200 ≤ n) (h : hasHigh k n = false) :
    ownPages k n = ownPages k 0x200 := by
  induction hn with
  | refl => rfl
  | @step n hn ih =>
    rw [hasHigh_succ, Bool.or_eq_false_iff] at h
    have hnone : pageView k n = none := by
      simpa [show 512 ≤ n from hn] using h.2
    rw [ownPages, ih h.1, hnone, if_neg (by simp), Nat.add_zero]

theorem CanFork.space (h : CanFork L k) : Space L k.mem (k.root k.current) :=
  h.inv.spaces k.current h.live

/-- A page of the parent, by its entry. -/
theorem CanFork.pageView_eq (h : CanFork L k) (hn : n < MEMSIZE_VIRTUAL / PAGESIZE) :
    pageView k n = entryPage (leaf k.mem (k.root k.current) n) :=
  h.space.userPage_mul hn

/-- The count of a page that the parent may only read can grow. -/
theorem CanFork.refs_lt (h : CanFork L k) (hn : InUserRange n) (hp : IsPage L p)
    (hentry : leaf k.mem (k.root k.current) n = frameEntry p false) : k.refs p < 255 :=
  h.counts n hn.lt p (by rw [h.pageView_eq hn.lt, hentry, entryPage_frameEntry hp])

/-! ## What the child holds -/

/-- The parent's pages, and those of others, are as before. -/
theorem Building.sameTables {spare : Nat → Int} {pid : Nat} (h : Building L k₀ k pt lf spare)
    (hs : CanFork L k₀) (hlive : Live k₀ pid) : SameTables k₀.mem k.mem (k₀.root pid) := fun p hp =>
  h.mem p ((hs.inv.spaces pid hlive).tree.table_aligned hp) fun hfree =>
    absurd hp (hs.inv.free_not_table hlive hfree)

theorem CopyOf.frameRef_le {mem : ByteMem} {e e' : Nat} (h : CopyOf L k₀ mem e e')
    (hvpn : InUserRange vpn) (hp : ¬ Free L k₀ p) : frameRef vpn e' p ≤ frameRef vpn e p := by
  cases h with
  | absent => exact Nat.le_refl _
  | shared hq => exact Nat.le_refl _
  | @copied r q _ hq _ =>
    have hne : p ≠ q := by
      rintro rfl
      exact hp hq
    rw [frameRef_frameEntry hvpn hq.1, if_neg hne]
    exact Nat.zero_le _

/-- Of the pages in use the child maps what its parent does. -/
theorem Forking.frameRef_le (h : Forking L k₀ k pt n lf) (hp : ¬ Free L k₀ p) (vpn : Nat) :
    frameRef vpn (lf vpn) p ≤ frameRef vpn (leaf k₀.mem (k₀.root k₀.current) vpn) p := by
  by_cases hvpn : vpn < n ∧ InUserRange vpn
  · exact (h.below vpn hvpn.1 hvpn.2).frameRef_le hvpn.2 hp
  · rw [h.rest vpn hvpn, frameRef_kernelEntry]
    exact Nat.zero_le _

theorem Forking.holds_eq (h : Forking L k₀ k pt n lf) (hp : ¬ Free L k₀ p) :
    holds k.mem pt p = frameCount lf p := by
  rw [holds, tableRef_of_not_table fun ht => hp (h.building.tables p ht), Nat.add_zero,
    h.building.leaf]

theorem Forking.frameCount_le (h : Forking L k₀ k pt n lf) (hp : ¬ Free L k₀ p) :
    frameCount lf p ≤ frameCount (leaf k₀.mem (k₀.root k₀.current)) p :=
  WeensyOS.frameCount_le fun vpn _ => h.frameRef_le hp vpn

/-- What an entry of the child maps: a page that was free, or one that the
parent may only read. -/
theorem CopyOf.frame {mem : ByteMem} {e e' : Nat} (h : CopyOf L k₀ mem e e')
    (hvpn : InUserRange vpn)
    (hne : frameRef vpn e' p ≠ 0) : IsPage L p ∧ (¬ Free L k₀ p → e = frameEntry p false) := by
  cases h with
  | absent => exact absurd (frameRef_of_not_user (by decide)) hne
  | @shared q hq =>
    rw [frameRef_frameEntry hvpn hq, ite_ne_right_iff] at hne
    obtain rfl := hne.1
    exact ⟨hq, fun _ => rfl⟩
  | @copied r q _ hq _ =>
    rw [frameRef_frameEntry hvpn hq.1, ite_ne_right_iff] at hne
    obtain rfl := hne.1
    exact ⟨hq.1, fun hused => absurd hq hused⟩

theorem Forking.frame (h : Forking L k₀ k pt n lf) (hne : frameRef vpn (lf vpn) p ≠ 0) :
    (vpn < n ∧ InUserRange vpn) ∧ IsPage L p ∧
      (¬ Free L k₀ p → leaf k₀.mem (k₀.root k₀.current) vpn = frameEntry p false) := by
  by_cases hvpn : vpn < n ∧ InUserRange vpn
  · exact ⟨hvpn, (h.below vpn hvpn.1 hvpn.2).frame hvpn.2 hne⟩
  · rw [h.rest vpn hvpn] at hne
    exact absurd frameRef_kernelEntry hne

/-- What the parent may only read the child shares. -/
theorem CopyOf.eq_readOnly {mem : ByteMem} {e' : Nat} (h : CopyOf L k₀ mem (frameEntry p false) e')
    (hp : IsPage L p) : e' = frameEntry p false := by
  generalize heq : frameEntry p false = e at h
  cases h with
  | absent => rfl
  | shared _ => rfl
  | copied hq _ _ => exact absurd (frameEntry_inj hp.aligned hq.aligned heq).2 (by decide)

/-- A page in use that the child maps is one the parent may only read. -/
theorem Forking.readOnly (h : Forking L k₀ k pt n lf) (hused : ¬ Free L k₀ p)
    (hpos : 0 < holds k.mem pt p) :
    ∃ vpn < n, InUserRange vpn ∧ IsPage L p ∧
      leaf k₀.mem (k₀.root k₀.current) vpn = frameEntry p false := by
  rw [h.holds_eq hused] at hpos
  obtain ⟨vpn, -, hne⟩ := frameCount_pos.mp hpos
  obtain ⟨⟨hn, hvpn⟩, hp, hentry⟩ := h.frame hne
  exact ⟨vpn, hn, hvpn, hp, hentry hused⟩

/-- It holds that page once. -/
theorem Forking.shared (h : Forking L k₀ k pt n lf) (hs : CanFork L k₀) (hp : ¬ Free L k₀ p)
    (hpos : 0 < holds k.mem pt p) :
    holds k.mem pt p = 1 ∧ Shareable L k₀ p ∧ k₀.refs p < 255 := by
  have heq := h.holds_eq hp
  have hle : holds k.mem pt p ≤ holds k₀.mem (k₀.root k₀.current) p := by
    rw [heq, holds]
    exact (h.frameCount_le hp).trans (Nat.le_add_right _ _)
  have honce := hs.inv.once k₀.current hs.live p
  obtain ⟨vpn, -, hvpn, hpage, hentry⟩ := h.readOnly hp hpos
  exact ⟨by omega, hs.inv.shareable hs.live hvpn hpage hentry, hs.refs_lt hvpn hpage hentry⟩

/-! ## Taking it down -/

/-- The call failed: the counts are those of before and `spare`, and no
page in use has changed. -/
structure Undone (L : Layout) (k₀ k : Kernel) (spare : Nat → Int) : Prop where
  refs : ∀ p, p % 4096 = 0 → (k.refs p : Int) = k₀.refs p + spare p
  mem : ∀ p, p % 4096 = 0 → ¬ Free L k₀ p → SamePage k₀.mem k.mem p
  ptable : k.ptable = k₀.ptable
  current : k.current = k₀.current

/-- The entries of a table that can be taken down: they map pages, and
pages in use once at most. -/
structure Droppable (L : Layout) (k₀ : Kernel) (lf : Nat → Nat) : Prop where
  isPage : ∀ vpn p, frameRef vpn (lf vpn) p ≠ 0 → IsPage L p
  once : ∀ p, ¬ Free L k₀ p → 0 < frameCount lf p → frameCount lf p = 1 ∧ k₀.refs p < 255

theorem droppable_kernelPart (L : Layout) (k₀ : Kernel) (n : Nat) :
    Droppable L k₀ (kernelPart n) := by
  have hzero : ∀ vpn p, frameRef vpn (kernelPart n vpn) p = 0 := by
    intro vpn p
    rw [kernelPart]
    split
    · exact frameRef_kernelEntry
    · exact frameRef_of_not_user (by decide)
  refine ⟨fun vpn p hne => absurd (hzero vpn p) hne, fun p _ hpos => ?_⟩
  rw [frameCount_eq_zero fun vpn _ => hzero vpn p] at hpos
  exact absurd hpos (Nat.lt_irrefl 0)

theorem Forking.droppable (h : Forking L k₀ k pt n lf) (hs : CanFork L k₀) : Droppable L k₀ lf where
  isPage := fun _ _ hne => (h.frame hne).2.1
  once := by
    intro p hp hpos
    have heq := h.holds_eq hp
    obtain ⟨hone, -, hlt⟩ := h.shared hs hp (by rw [heq]; exact hpos)
    exact ⟨by rw [← heq]; exact hone, hlt⟩

theorem Building.refs_lt {spare : Nat → Int} (h : Building L k₀ k pt lf spare) (hinv : Inv L k₀)
    (hd : Droppable L k₀ lf) (hspare : ∀ p, ¬ Free L k₀ p → spare p = 0) (p : Nat) :
    k.refs p < 256 := by
  refine refs_lt_all (fun q hal => ?_) p
  by_cases hfree : Free L k₀ q
  · exact Nat.lt_of_le_of_lt (h.isFresh q hfree).1 (by decide)
  · have hrefs := h.refs q hal
    have hlt := hinv.refs_lt q
    rw [hspare q hfree] at hrefs
    rw [holds, tableRef_of_not_table fun ht => hfree (h.tables q ht), h.leaf] at hrefs
    rcases Nat.eq_zero_or_pos (frameCount lf q) with hzero | hpos
    · omega
    · obtain ⟨hone, hsmall⟩ := hd.once q hfree hpos
      omega

/-- **A table under construction, taken down**, gives back what it
holds. -/
theorem Building.abandon {spare : Nat → Int} (h : Building L k₀ k pt lf spare) (hinv : Inv L k₀)
    (hd : Droppable L k₀ lf) (hspare : ∀ p, ¬ Free L k₀ p → spare p = 0) :
    ∃ k', abandon L pt k = .ok (some (-1), k') ∧ Undone L k₀ k' spare := by
  obtain ⟨k', hrun, hrel⟩ := freePagetable_spec (L := L) h.tree h.noLarge (h.refs_lt hinv hd hspare)
  refine ⟨k', by rw [WeensyOS.abandon, hrun]; rfl, fun p hp => ?_, fun p hp hused => ?_,
    hrel.ptable.trans h.ptable, hrel.current.trans h.current⟩
  · have hrefs := h.refs p hp
    rw [hrel.refs p hp]
    split
    · have hnonneg : 0 ≤ spare p := by
        by_cases hfree : Free L k₀ p
        · exact (h.isFresh p hfree).2
        · exact Int.le_of_eq (hspare p hfree).symm
      omega
    · rename_i hnot
      have hzero : holds k.mem pt p = 0 := by
        refine Nat.eq_zero_of_not_pos fun hpos => ?_
        rcases holds_pos.mp hpos with ht | ⟨vpn, -, hne⟩
        · exact hnot (h.tables p ht).1
        · rw [h.leaf] at hne
          exact hnot (hd.isPage vpn p hne)
      omega
  · rw [hrel.mem]
    exact h.mem p hp fun hfree => absurd hfree hused

/-! ## The kernel's pages -/

theorem CanFork.kernelPages (hs : CanFork L k₀) : KernelPages L k₀ (k₀.root k₀.current) where
  tree := hs.space.tree
  plain := fun _ _ => .inl hs.space.noLarge
  used := fun _ hp hfree => hs.inv.free_not_table hs.live hfree hp
  entries := by
    intro vpn h1 h2
    refine (hs.space.entries vpn).resolve_right fun huser => ?_
    have h2 : vpn < 0x80 := h2
    have h3 : 0x100 ≤ vpn := huser.1.1
    omega

/-- The loop of `fork` over the kernel's pages. -/
theorem forkKernelPages_spec (hs : CanFork L k₀) (hb : Building L k₀ k pt (fun _ => 0) fun _ => 0)
    (hroot : RootOnly k.mem pt) :
    (3 ≤ (freePages L k).length ∧
      ∃ k', forPages (k₀.root k₀.current) KERNEL_START_ADDR KERNEL_STACK_TOP
      (forkKernelPage L pt) k =
          .ok (none, k') ∧
        Building L k₀ k' pt (kernelPart (KERNEL_STACK_TOP / PAGESIZE)) (fun _ => 0) ∧
        LowTables k'.mem pt false ∧ freePages L k' = (freePages L k).drop 3) ∨
    (freePages L k).length < 3 ∧
      ∃ k', forPages (k₀.root k₀.current) KERNEL_START_ADDR KERNEL_STACK_TOP
      (forkKernelPage L pt) k =
          .ok (some (-1), k') ∧ Undone L k₀ k' fun _ => 0 := by
  have hpages := hs.kernelPages
  by_cases hroom : 3 ≤ (freePages L k).length
  · refine .inl ⟨hroom,
      hpages.copy (fun va it k k' hva hpresent hpa hperm hrun => ?_) hb hroot hroom⟩
    rw [forkKernelPage, if_neg (not_not_intro hpresent), hva, hpa, hperm, hrun]
    rfl
  · -- the first page lacks three page-table pages
    refine .inr ⟨Nat.lt_of_not_le hroom, ?_⟩
    let I : Nat → Kernel → Prop := fun va k' => va = KERNEL_START_ADDR ∧ k' = k
    have hloop : LoopEnds (forPages (k₀.root k₀.current) KERNEL_START_ADDR KERNEL_STACK_TOP
        (forkKernelPage L pt) k) (I KERNEL_STACK_TOP)
        (fun r k' => r = -1 ∧ Undone L k₀ k' fun _ => 0) := by
      refine forPages_rule hpages.tree
        (fun va _ hva => hpages.plain va (Nat.lt_trans hva (by decide)))
        (fun va k' hI => by rw [hI.2]; exact hpages.sameTables hb)
        (fun va k' it hstart hlimit hva hI _ hsees => .inr ?_) rfl rfl (by decide) (by decide)
        ⟨rfl, rfl⟩
      obtain ⟨rfl, rfl⟩ := hI
      obtain ⟨hpresent, hpa, hperm⟩ := hpages.sees hb hva hstart hlimit hsees
      rw [← kernelPart_start] at hb
      obtain ⟨d, p, hstop, ⟨k₁, l, -, hlen, hmaps, -⟩ | ⟨k₁, l, hrun, -, -, -, hb₁⟩⟩ :=
        hb.tryMapKernel (Nat.le_refl _) (by decide)
      · obtain rfl := hroot.stops hb.tree.distinct hstop
        have horder := congrArg List.length hmaps.drawn.order
        rw [List.length_append] at horder
        omega
      · obtain ⟨k₂, habandon, hundone⟩ :=
          hb₁.abandon hs.inv (droppable_kernelPart L k₀ _) fun _ _ => rfl
        refine ⟨-1, k₂, ?_, rfl, hundone⟩
        rw [forkKernelPage, if_neg (not_not_intro hpresent), hsees.va_eq, hpa, hperm]
        have hrun : tryMapAt L pt KERNEL_START_ADDR KERNEL_START_ADDR (PTE_P ||| PTE_W) k' =
          .ok (-1, k₁) := hrun
        rw [hrun]
        exact habandon
    rcases hloop with ⟨k', -, heq, -⟩ | ⟨r, k', hrun, rfl, hundone⟩
    · exact absurd heq (by decide)
    · exact ⟨k', hrun, hundone⟩

end

end SystemsProjects.WeensyOS
