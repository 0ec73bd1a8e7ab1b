/-
SystemsProjects.WeensyOS.AddressSpace — what a process's page table looks
like, and the invariant over all processes.

A `Space` maps the kernel's pages and the console at their places, pages
of its own or shared ones for the process in `[PROC_START_ADDR,
MEMSIZE_VIRTUAL)`, and nothing else. `Inv` ties the spaces of all live
processes to the reference counts: a page has a reference for everyone who
holds it, and one that is written through, or is a page-table page, has
exactly one. Every system call changes one process (`Inv.change`).
-/
import SystemsProjects.WeensyOS.Holdings
import SystemsProjects.WeensyOS.Kernel

namespace SystemsProjects.WeensyOS

open SystemsProjects.Base
open SystemsProjects.Base.RadixTree

/-! ## Entries -/

/-- The permissions of a process's page, writable or not. -/
def framePerm (w : Bool) : Nat :=
  if w = true then PTE_P ||| PTE_W ||| PTE_U else PTE_P ||| PTE_U

/-- The entry that maps the page at `p` for a process. -/
def frameEntry (p : Nat) (w : Bool) : Nat := p ||| framePerm w

/-- The entries that every process has: the kernel's pages and the
console. -/
def kernelEntry (vpn : Nat) : Nat :=
  if KERNEL_START_ADDR / PAGESIZE ≤ vpn ∧ vpn < KERNEL_STACK_TOP / PAGESIZE then
    vpn * PAGESIZE ||| (PTE_P ||| PTE_W)
  else if vpn = CONSOLE_ADDR / PAGESIZE then CONSOLE_ADDR ||| (PTE_P ||| PTE_W ||| PTE_U)
  else 0

/-- The pages of addresses a process may ask for. -/
def InUserRange (vpn : Nat) : Prop :=
  PROC_START_ADDR / PAGESIZE ≤ vpn ∧ vpn < MEMSIZE_VIRTUAL / PAGESIZE

section

variable {L : Layout} {vpn p q : Nat} {w w' : Bool}

theorem framePerm_lt (w : Bool) : framePerm w < 4096 := by
  cases w <;> decide

theorem framePerm_ne_zero (w : Bool) : framePerm w ≠ 0 := by
  cases w <;> decide

theorem frameEntry_and_pamask (hp : p % 4096 = 0) (hlow : p < 2 ^ 52) (w : Bool) :
    frameEntry p w &&& PTE_PAMASK = p :=
  or_and_pamask hp hlow (framePerm_lt w)

theorem IsPage.frameEntry_and_pamask (hp : IsPage L p) (w : Bool) :
    frameEntry p w &&& PTE_PAMASK = p :=
  WeensyOS.frameEntry_and_pamask hp.aligned (Nat.lt_trans hp.bounds.2.1 (by decide)) w

theorem userEntry_frameEntry (hp : p % 4096 = 0) (w : Bool) : UserEntry (frameEntry p w) := by
  rw [UserEntry, frameEntry, or_and_perm hp (by decide)]
  cases w <;> rfl

theorem frameEntry_writable (hp : p % 4096 = 0) :
    frameEntry p w &&& (PTE_P ||| PTE_W) = PTE_P ||| PTE_W ↔ w = true := by
  rw [frameEntry, or_and_perm hp (by decide)]
  cases w <;> decide

theorem frameEntry_inj (hp : p % 4096 = 0) (hq : q % 4096 = 0)
    (h : frameEntry p w = frameEntry q w') : p = q ∧ w = w' := by
  rw [frameEntry, frameEntry, or_eq_add hp (framePerm_lt w), or_eq_add hq (framePerm_lt w')] at h
  have hw := framePerm_lt w
  have hw' := framePerm_lt w'
  have hpq : p = q := by omega
  have hperm : framePerm w = framePerm w' := by omega
  refine ⟨hpq, ?_⟩
  cases w <;> cases w' <;> first | rfl | cases hperm

theorem kernelEntry_user (h : UserEntry (kernelEntry vpn)) : vpn = CONSOLE_ADDR / PAGESIZE := by
  by_contra hne
  rw [kernelEntry, if_neg hne] at h
  split at h
  · rw [UserEntry, or_and_perm (Nat.mul_mod_left _ _) (by decide)] at h
    cases h
  · cases h

theorem kernelEntry_of_user (h : InUserRange vpn) : kernelEntry vpn = 0 := by
  have h1 : 0x100 ≤ vpn := h.1
  have hk : ¬ (KERNEL_START_ADDR / PAGESIZE ≤ vpn ∧ vpn < KERNEL_STACK_TOP / PAGESIZE) := by
    rintro ⟨-, h2⟩
    have h2 : vpn < 0x80 := h2
    omega
  have hc : ¬ vpn = CONSOLE_ADDR / PAGESIZE := by
    intro h2
    have h2 : vpn = 0xB8 := h2
    omega
  rw [kernelEntry, if_neg hk, if_neg hc]

/-- The entries of the kernel hold no reference. -/
theorem frameRef_kernelEntry : frameRef vpn (kernelEntry vpn) p = 0 :=
  if_neg fun h => h.2.1 (kernelEntry_user h.1)

theorem frameRef_frameEntry (hvpn : InUserRange vpn) (hp : IsPage L p) (q : Nat) :
    frameRef vpn (frameEntry p w) q = if q = p then 1 else 0 := by
  have hne : vpn ≠ CONSOLE_ADDR / PAGESIZE := by
    rintro rfl
    exact absurd hvpn.1 (by decide)
  rw [frameRef_user (userEntry_frameEntry hp.aligned w) hne, hp.frameEntry_and_pamask]

theorem InUserRange.lt (h : InUserRange vpn) : vpn < 768 := h.2

end

/-! ## Address spaces -/

/-- A process's page table. -/
structure Space (L : Layout) (mem : ByteMem) (root : Nat) : Prop where
  tree : Tree mem root
  noLarge : NoLarge mem root
  tables : ∀ p, IsTable mem root p → IsPage L p
  covered : ∀ va < MEMSIZE_VIRTUAL, VmIter.Covered mem root va
  entries : ∀ vpn, leaf mem root vpn = kernelEntry vpn ∨
    InUserRange vpn ∧ ∃ p w, IsPage L p ∧ leaf mem root vpn = frameEntry p w

/-- The pages that nobody else may hold: those of the table, and those the
process may write. -/
def Private (L : Layout) (mem : ByteMem) (root p : Nat) : Prop :=
  IsTable mem root p ∨ IsPage L p ∧ ∃ vpn, InUserRange vpn ∧ leaf mem root vpn = frameEntry p true

section

variable {L : Layout} {mem mem' : ByteMem} {root p : Nat}

theorem SameTables.space (h : SameTables mem mem' root) (hs : Space L mem root) :
    Space L mem' root where
  tree := h.tree hs.tree
  noLarge := h.noLarge hs.noLarge
  tables := fun p hp => hs.tables p ((h.isTable p).mp hp)
  covered := by
    intro va hva
    obtain ⟨p, hp⟩ := hs.covered va hva
    exact ⟨p, (h.tableAt (Nat.le_refl 3) _).trans hp⟩
  entries := fun vpn => by rw [h.leaf]; exact hs.entries vpn

theorem SameTables.private_iff (h : SameTables mem mem' root) :
    Private L mem' root p ↔ Private L mem root p := by
  unfold Private
  simp only [h.leaf, h.isTable p]

/-- The page of a reference of the space. -/
theorem Space.frameRef_ne_zero (h : Space L mem root) {vpn : Nat}
    (hne : frameRef vpn (leaf mem root vpn) p ≠ 0) :
    InUserRange vpn ∧ IsPage L p ∧ ∃ w, leaf mem root vpn = frameEntry p w := by
  rcases h.entries vpn with hk | ⟨hvpn, q, w, hq, hentry⟩
  · rw [hk] at hne
    exact absurd frameRef_kernelEntry hne
  · rw [hentry, frameRef_frameEntry hvpn hq] at hne
    split at hne
    · rename_i heq
      subst heq
      exact ⟨hvpn, hq, w, hentry⟩
    · exact absurd rfl hne

/-- What a space holds are pages. -/
theorem Space.isPage_of_holds (h : Space L mem root) (hp : 0 < holds mem root p) : IsPage L p := by
  rcases holds_pos.mp hp with ht | ⟨vpn, -, hne⟩
  · exact h.tables p ht
  · exact (h.frameRef_ne_zero hne).2.1

/-- A page that is mapped is held. -/
theorem frameCount_of_entry {lf : Nat → Nat} {vpn : Nat} {w : Bool} (hvpn : InUserRange vpn)
    (hp : IsPage L p) (hentry : lf vpn = frameEntry p w) : 0 < frameCount lf p := by
  refine frameCount_pos.mpr ⟨vpn, hvpn.lt, ?_⟩
  rw [hentry, frameRef_frameEntry hvpn hp, if_pos rfl]
  exact Nat.one_ne_zero

theorem holds_of_entry {vpn : Nat} {w : Bool} (hvpn : InUserRange vpn) (hp : IsPage L p)
    (hentry : leaf mem root vpn = frameEntry p w) : 0 < holds mem root p :=
  Nat.lt_of_lt_of_le (frameCount_of_entry hvpn hp hentry) (Nat.le_add_right _ _)

theorem Private.holds (h : Private L mem root p) : 0 < holds mem root p := by
  rcases h with ht | ⟨hp, vpn, hvpn, hentry⟩
  · exact holds_pos.mpr (.inl ht)
  · exact holds_of_entry hvpn hp hentry

end

/-! ## All processes -/

/-- A process that has not exited. -/
def Live (k : Kernel) (pid : Nat) : Prop := pid < PID_MAX ∧ (k.ptable pid).state ≠ .free

instance (k : Kernel) (pid : Nat) : Decidable (Live k pid) := inferInstanceAs (Decidable (_ ∧ _))

/-- The root of a process's page table. -/
abbrev Kernel.root (k : Kernel) (pid : Nat) : Nat := (k.ptable pid).pagetable

/-- The references a process holds on the page at `p`. -/
noncomputable def shares (k : Kernel) (pid p : Nat) : Nat :=
  if Live k pid then holds k.mem (k.root pid) p else 0

/-- The references all processes hold. -/
noncomputable def total (k : Kernel) (p : Nat) : Nat := ∑ pid ∈ Finset.range 16, shares k pid p

/-- **The invariant.** -/
structure Inv (L : Layout) (k : Kernel) : Prop where
  refs_lt : ∀ p, k.refs p < 256
  spaces : ∀ pid, Live k pid → Space L k.mem (k.root pid)
  once : ∀ pid, Live k pid → ∀ p, holds k.mem (k.root pid) p ≤ 1
  bound : ∀ p, p % 4096 = 0 → total k p ≤ k.refs p
  own : ∀ pid, Live k pid → ∀ p, Private L k.mem (k.root pid) p → k.refs p = 1

/-- No reference is lost, but for those on pages with one reference: the
count of a page that someone holds, or that has two references, is the
number of those who hold it. -/
def Exact (k : Kernel) : Prop :=
  ∀ p, p % 4096 = 0 → 0 < total k p ∨ 2 ≤ k.refs p → k.refs p = total k p

section

variable {L : Layout} {k k' : Kernel} {pid pid' p : Nat}

theorem shares_live (h : Live k pid) : shares k pid p = holds k.mem (k.root pid) p := if_pos h

theorem shares_le_total (h : Live k pid) : shares k pid p ≤ total k p :=
  Finset.single_le_sum (f := fun pid => shares k pid p) (fun _ _ => Nat.zero_le _)
    (Finset.mem_range.mpr h.1)

/-- Two processes that hold a page have two references. -/
theorem shares_add_le_total (h : Live k pid) (h' : Live k pid') (hne : pid ≠ pid') :
    shares k pid p + shares k pid' p ≤ total k p := by
  rw [total, ← Finset.add_sum_erase _ _ (Finset.mem_range.mpr h.1)]
  refine Nat.add_le_add_left ?_ _
  exact Finset.single_le_sum (f := fun pid => shares k pid p) (fun _ _ => Nat.zero_le _)
    (Finset.mem_erase.mpr ⟨hne.symm, Finset.mem_range.mpr h'.1⟩)

theorem Space.aligned_of_holds {mem : ByteMem} {root : Nat} (h : Space L mem root)
    (hp : 0 < holds mem root p) : p % 4096 = 0 :=
  (h.isPage_of_holds hp).aligned

/-- **A held page has a reference**, so `kalloc` does not hand it out. -/
theorem Inv.refs_pos (h : Inv L k) (hlive : Live k pid) (hp : 0 < holds k.mem (k.root pid) p) :
    0 < k.refs p := by
  have hle := shares_le_total (p := p) hlive
  have hbound := h.bound p ((h.spaces pid hlive).aligned_of_holds hp)
  rw [shares_live hlive] at hle
  omega

theorem Inv.not_free (h : Inv L k) (hlive : Live k pid) (hp : 0 < holds k.mem (k.root pid) p) :
    ¬ Free L k p := fun hfree => Nat.ne_of_gt (h.refs_pos hlive hp) hfree.2

theorem Inv.free_not_table (h : Inv L k) (hlive : Live k pid) {q : Nat} (hq : Free L k q) :
    ¬ IsTable k.mem (k.root pid) q :=
  fun ht => h.not_free hlive (holds_pos.mpr (.inl ht)) hq

/-- **A private page is nobody else's.** -/
theorem Inv.private_alone (h : Inv L k) (hlive : Live k pid) (hlive' : Live k pid')
    (hne : pid ≠ pid') (hp : Private L k.mem (k.root pid) p) : holds k.mem (k.root pid') p = 0 := by
  have hsum := shares_add_le_total (p := p) hlive hlive' hne
  have hbound := h.bound p ((h.spaces pid hlive).aligned_of_holds hp.holds)
  have hown := h.own pid hlive p hp
  have hpos := hp.holds
  rw [shares_live hlive, shares_live hlive'] at hsum
  omega

/-- A process maps a page in one place. -/
theorem Inv.mapped_once (h : Inv L k) {vpn vpn' : Nat} {w w' : Bool} (hlive : Live k pid)
    (hvpn : InUserRange vpn) (hvpn' : InUserRange vpn') (hp : IsPage L p)
    (hentry : leaf k.mem (k.root pid) vpn = frameEntry p w)
    (hentry' : leaf k.mem (k.root pid) vpn' = frameEntry p w') : vpn = vpn' := by
  by_contra hne
  have htwo : frameRef vpn (leaf k.mem (k.root pid) vpn) p +
      frameRef vpn' (leaf k.mem (k.root pid) vpn') p ≤ frameCount (leaf k.mem (k.root pid)) p :=
    frameRef_add_le_frameCount hvpn.lt hvpn'.lt hne
  rw [hentry, hentry', frameRef_frameEntry hvpn hp, frameRef_frameEntry hvpn' hp,
    if_pos rfl] at htwo
  have honce := h.once pid hlive p
  rw [holds] at honce
  omega

/-- A page that a process maps is nobody's page-table page. -/
theorem Inv.frame_not_table (h : Inv L k) {vpn : Nat} {w : Bool} (hlive : Live k pid)
    (hlive' : Live k pid') (hvpn : InUserRange vpn) (hp : IsPage L p)
    (hentry : leaf k.mem (k.root pid) vpn = frameEntry p w) : ¬ IsTable k.mem (k.root pid') p := by
  intro ht
  by_cases hne : pid' = pid
  · subst hne
    have hframe := frameCount_of_entry hvpn hp hentry
    have honce := h.once pid' hlive p
    rw [holds, tableRef_of_table ht] at honce
    omega
  · have hzero := h.private_alone hlive' hlive hne (.inl ht)
    exact absurd hzero (Nat.ne_of_gt (holds_of_entry hvpn hp hentry))

/-- One process changed. -/
theorem total_change {a : Nat} (ha : a < PID_MAX)
    (h : ∀ pid ≠ a, shares k' pid p = shares k pid p) :
    total k' p + shares k a p = total k p + shares k' a p := by
  have hmem : a ∈ Finset.range 16 := Finset.mem_range.mpr ha
  have hrest : ∑ pid ∈ (Finset.range 16).erase a, shares k' pid p =
      ∑ pid ∈ (Finset.range 16).erase a, shares k pid p :=
    Finset.sum_congr rfl fun pid hpid => h pid (Finset.ne_of_mem_erase hpid)
  rw [total, total, ← Finset.add_sum_erase _ _ hmem, ← Finset.add_sum_erase _ _ hmem, hrest]
  omega

/-- The others keep their tables. -/
structure Others (k k' : Kernel) (a : Nat) : Prop where
  slot : ∀ pid ≠ a, k'.ptable pid = k.ptable pid
  tables : ∀ pid ≠ a, Live k pid → SameTables k.mem k'.mem (k.root pid)

theorem Others.live {a : Nat} (h : Others k k' a) (hne : pid ≠ a) : Live k' pid ↔ Live k pid := by
  rw [Live, Live, h.slot pid hne]

theorem Others.shares {a : Nat} (h : Others k k' a) (hne : pid ≠ a) (p : Nat) :
    shares k' pid p = shares k pid p := by
  rw [WeensyOS.shares, WeensyOS.shares]
  by_cases hlive : Live k pid
  · rw [if_pos hlive, if_pos ((h.live hne).mpr hlive), Kernel.root, h.slot pid hne,
      (h.tables pid hne hlive).holds]
  · rw [if_neg hlive, if_neg (mt (h.live hne).mp hlive)]

/-- What must hold of the process that a step changed. -/
structure Sound (L : Layout) (k : Kernel) (pid : Nat) : Prop where
  space : Space L k.mem (k.root pid)
  once : ∀ p, holds k.mem (k.root pid) p ≤ 1
  own : ∀ p, Private L k.mem (k.root pid) p → k.refs p = 1

/-- **A step that changes one process** keeps the invariant. -/
theorem Inv.change {a : Nat} (h : Inv L k) (ha : a < PID_MAX) (hothers : Others k k' a)
    (hlt : ∀ p, k'.refs p < 256)
    (hbalance : ∀ p, p % 4096 = 0 → k.refs p + shares k' a p ≤ k'.refs p + shares k a p)
    (hown : ∀ pid ≠ a, Live k pid → ∀ p, Private L k.mem (k.root pid) p → k'.refs p = 1)
    (hsound : Live k' a → Sound L k' a) : Inv L k' := by
  have hall : ∀ pid, Live k' pid → Sound L k' pid := by
    intro pid hlive
    by_cases hne : pid = a
    · subst hne
      exact hsound hlive
    · have hlive₀ := (hothers.live hne).mp hlive
      have hsame := hothers.tables pid hne hlive₀
      have hroot : k'.root pid = k.root pid := by rw [Kernel.root, hothers.slot pid hne]
      refine ⟨?_, fun p => ?_, fun p hp => ?_⟩
      · rw [hroot]
        exact hsame.space (h.spaces pid hlive₀)
      · rw [hroot, hsame.holds]
        exact h.once pid hlive₀ p
      · rw [hroot, hsame.private_iff] at hp
        exact hown pid hne hlive₀ p hp
  refine ⟨hlt, fun pid hp => (hall pid hp).space, fun pid hp => (hall pid hp).once, fun p hp => ?_,
    fun pid hp => (hall pid hp).own⟩
  have htotal := total_change (p := p) ha fun pid hne => hothers.shares hne p
  have hbound := h.bound p hp
  have hbal := hbalance p hp
  have hle : shares k a p ≤ total k p :=
    Finset.single_le_sum (f := fun pid => shares k pid p) (fun _ _ => Nat.zero_le _)
      (Finset.mem_range.mpr ha)
  omega

/-- The processes have the same tables, and the pages in use the same
counts. -/
structure Keeps (k k' : Kernel) : Prop where
  refs : ∀ p, p % 4096 = 0 → 0 < k.refs p → k'.refs p = k.refs p
  fresh : ∀ p, p % 4096 = 0 → k.refs p = 0 → k'.refs p ≤ 1
  tables : ∀ pid, Live k pid → SameTables k.mem k'.mem (k.root pid)
  root : ∀ pid, k'.root pid = k.root pid
  live : ∀ pid, Live k' pid ↔ Live k pid

theorem Keeps.shares (h : Keeps k k') (pid p : Nat) : shares k' pid p = shares k pid p := by
  rw [WeensyOS.shares, WeensyOS.shares]
  by_cases hlive : Live k pid
  · rw [if_pos hlive, if_pos ((h.live pid).mpr hlive), h.root, (h.tables pid hlive).holds]
  · rw [if_neg hlive, if_neg (mt (h.live pid).mp hlive)]

theorem Keeps.total (h : Keeps k k') (p : Nat) : total k' p = total k p :=
  Finset.sum_congr rfl fun pid _ => h.shares pid p

/-- **A step that changes no table** keeps the invariant. -/
theorem Keeps.inv (h : Keeps k k') (hinv : Inv L k) : Inv L k' where
  refs_lt := by
    refine refs_lt_all fun p hp => ?_
    rcases Nat.eq_zero_or_pos (k.refs p) with hzero | hpos
    · exact Nat.lt_of_le_of_lt (h.fresh p hp hzero) (by decide)
    · rw [h.refs p hp hpos]
      exact hinv.refs_lt p
  spaces := fun pid hlive => by
    have hlive := (h.live pid).mp hlive
    rw [h.root]
    exact (h.tables pid hlive).space (hinv.spaces pid hlive)
  once := fun pid hlive p => by
    have hlive := (h.live pid).mp hlive
    rw [h.root, (h.tables pid hlive).holds]
    exact hinv.once pid hlive p
  bound := fun p hp => by
    have hbound := hinv.bound p hp
    rw [h.total]
    rcases Nat.eq_zero_or_pos (k.refs p) with hzero | hpos
    · omega
    · rw [h.refs p hp hpos]
      exact hbound
  own := fun pid hlive p hp => by
    have hlive := (h.live pid).mp hlive
    rw [h.root, (h.tables pid hlive).private_iff] at hp
    have hown := hinv.own pid hlive p hp
    rw [h.refs p ((hinv.spaces pid hlive).aligned_of_holds hp.holds) (by omega), hown]

theorem Keeps.exact (h : Keeps k k') (hinv : Inv L k) (hexact : Exact k) : Exact k' := by
  intro p hp hcond
  have hbound := hinv.bound p hp
  rw [h.total] at hcond ⊢
  rcases Nat.eq_zero_or_pos (k.refs p) with hzero | hpos
  · have hone := h.fresh p hp hzero
    omega
  · rw [h.refs p hp hpos] at hcond ⊢
    exact hexact p hp hcond

end

end SystemsProjects.WeensyOS
