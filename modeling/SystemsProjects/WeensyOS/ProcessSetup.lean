/-
SystemsProjects.WeensyOS.ProcessSetup — what `process_setup` builds.

Every new page table starts with the kernel's pages and the console
(`kernelPart`, then `kernelEntry`); the pages of the program's segments
follow, each in the first free page. The free pages taken on the way are
counted exactly, so the call is known to succeed with enough of them.
-/
import SystemsProjects.WeensyOS.Building
import SystemsProjects.WeensyOS.PageLoop

namespace SystemsProjects.WeensyOS

open SystemsProjects.Base
open SystemsProjects.Base.RadixTree

/-! ## The kernel's page table -/

/-- The kernel's page table, as `kernel_start` leaves it. -/
structure KernelTable (L : Layout) (mem : ByteMem) : Prop where
  tree : Tree mem L.kernelPagetable
  covered : ∀ va < MEMSIZE_VIRTUAL, VmIter.Covered mem L.kernelPagetable va
  image : ∀ p, IsTable mem L.kernelPagetable p → L.kernelPagetable ≤ p ∧ p < L.kernelEnd
  entries : ∀ vpn, KERNEL_START_ADDR / PAGESIZE ≤ vpn → vpn < KERNEL_STACK_TOP / PAGESIZE →
    leaf mem L.kernelPagetable vpn = kernelEntry vpn

/-- The kernel's pages below page `n`. -/
def kernelPart (n vpn : Nat) : Nat :=
  if KERNEL_START_ADDR / PAGESIZE ≤ vpn ∧ vpn < n then kernelEntry vpn else 0

section

variable {L : Layout} {mem mem' : ByteMem} {k₀ k k' : Kernel} {root pt n va vpn p : Nat}
  {it : VmIter}

/-- `kalloc` hands out no page of the kernel's image. -/
theorem KernelTable.not_page (h : KernelTable L mem) (hp : IsTable mem L.kernelPagetable p) :
    ¬ IsPage L p := by
  intro hpage
  have hb := hpage.bounds
  have himage := h.image p hp
  have hstart : 0x40000 ≤ L.kernelPagetable := L.start_le
  omega

theorem SameTables.kernelTable (h : SameTables mem mem' L.kernelPagetable)
    (hk : KernelTable L mem) : KernelTable L mem' where
  tree := h.tree hk.tree
  covered := by
    intro va hva
    obtain ⟨p, hp⟩ := hk.covered va hva
    exact ⟨p, (h.tableAt (Nat.le_refl 3) _).trans hp⟩
  image := fun p hp => hk.image p ((h.isTable p).mp hp)
  entries := fun vpn h1 h2 => by
    rw [h.leaf]
    exact hk.entries vpn h1 h2

theorem kernelPart_start : kernelPart (KERNEL_START_ADDR / PAGESIZE) = fun _ => 0 := by
  funext vpn
  exact if_neg fun h => absurd h.2 (Nat.not_lt.mpr h.1)

theorem kernelPart_succ (h : KERNEL_START_ADDR / PAGESIZE ≤ n) :
    Function.update (kernelPart n) n (kernelEntry n) = kernelPart (n + 1) := by
  funext vpn
  rw [Function.update_apply, kernelPart, kernelPart]
  by_cases hvpn : vpn = n
  · rw [if_pos hvpn, hvpn, if_pos ⟨h, Nat.lt_succ_self n⟩]
  · have hiff : vpn < n + 1 ↔ vpn < n := by omega
    simp only [if_neg hvpn, hiff]

theorem kernelPart_self : kernelPart n n = 0 := if_neg fun h => Nat.lt_irrefl n h.2

/-- With the console the table of the kernel's pages is complete. -/
theorem kernelPart_console :
    Function.update (kernelPart (KERNEL_STACK_TOP / PAGESIZE)) (CONSOLE_ADDR / PAGESIZE)
      (CONSOLE_ADDR ||| (PTE_P ||| PTE_W ||| PTE_U)) = kernelEntry := by
  funext vpn
  rw [Function.update_apply]
  by_cases hvpn : vpn = CONSOLE_ADDR / PAGESIZE
  · rw [if_pos hvpn, hvpn]
    decide
  · rw [if_neg hvpn, kernelPart]
    split
    · rfl
    · rename_i hk
      rw [kernelEntry, if_neg hk, if_neg hvpn]

/-- The entry of one of the kernel's pages. -/
theorem kernelEntry_kernel (h1 : KERNEL_START_ADDR / PAGESIZE ≤ vpn)
    (h2 : vpn < KERNEL_STACK_TOP / PAGESIZE) :
    kernelEntry vpn = vpn * PAGESIZE ||| (PTE_P ||| PTE_W) :=
  if_pos ⟨h1, h2⟩

/-- What an iterator shows of one. -/
theorem sees_kernel (hva : va % 4096 = 0) (h1 : KERNEL_START_ADDR ≤ va) (h2 : va < KERNEL_STACK_TOP)
    (hsees : VmIter.Sees mem root va it)
    (hleaf : leaf mem root (va / 4096) = kernelEntry (va / 4096)) :
    it.present mem = true ∧ it.pa mem = va ∧ copiedPerm mem it = PTE_P ||| PTE_W := by
  have h1 : 0x40000 ≤ va := h1
  have h2 : va < 0x80000 := h2
  have hlow : va < MEMSIZE_VIRTUAL := show va < 0x300000 by omega
  have hmul : va / 4096 * 4096 = va := by omega
  rw [kernelEntry_kernel (show 0x40 ≤ va / 4096 by omega) (show va / 4096 < 0x80 by omega)] at hleaf
  rw [show va / 4096 * PAGESIZE = va from hmul] at hleaf
  have hand : ∀ m < 4096, leaf mem root (va / 4096) &&& m = (PTE_P ||| PTE_W) &&& m := by
    intro m hm
    rw [hleaf, or_and_perm hva hm]
  have hpresent : leaf mem root (va / 4096) &&& PTE_P ≠ 0 := by
    rw [hand _ (by decide)]
    decide
  refine ⟨(hsees.present_iff hlow).mpr hpresent, ?_, ?_⟩
  · rw [hsees.pa_eq (by rw [slot_page hlow]; exact hpresent), slot_page hlow, hleaf,
      or_and_pamask hva (by omega) (by decide), hva, Nat.add_zero]
  · have hw : it.writable mem = true := by
      rw [hsees.writable_iff hlow, hand _ (by decide)]
      decide
    have hu : ¬ it.user mem = true := by
      rw [hsees.user_iff hlow, UserEntry, hand _ (by decide)]
      decide
    rw [copiedPerm, if_pos hw, if_neg hu]
    rfl

/-! ## Copying it -/

theorem mapAt_of_tryMapAt {r : Int} {pa perm : Nat} (h : tryMapAt L pt va pa perm k = .ok (r, k')) :
    mapAt L pt va pa perm k = if r = 0 then .ok k' else .error .assertion := by
  rw [tryMapAt] at h
  obtain ⟨it, hnew, h⟩ := bind_eq_ok h
  obtain ⟨out, htry, h⟩ := bind_eq_ok h
  cases h
  rw [mapAt, hnew]
  simp only [ok_bind, VmIter.map, htry, assert]
  by_cases hr : out.1 = 0
  · rw [if_pos hr, if_pos hr]
    rfl
  · rw [if_neg hr, if_neg hr]
    rfl

/-- The entry of one of the kernel's pages, set under construction. -/
theorem Building.tryMapKernel (h : Building L k₀ k pt (kernelPart n) fun _ => 0)
    (h1 : KERNEL_START_ADDR / PAGESIZE ≤ n) (h2 : n < KERNEL_STACK_TOP / PAGESIZE) :
    ∃ d p, VmIter.Stops k.mem pt (n * 4096) d p ∧
      ((∃ k' l, tryMapAt L pt (n * 4096) (n * 4096) (PTE_P ||| PTE_W) k = .ok (0, k') ∧
        l.length = 3 - d ∧ Maps L k k' pt (n * 4096) l ∧
        Building L k₀ k' pt (kernelPart (n + 1)) fun _ => 0) ∨
      ∃ k' l, tryMapAt L pt (n * 4096) (n * 4096) (PTE_P ||| PTE_W) k = .ok (-1, k') ∧
        l.length < 3 - d ∧ freePages L k = l ∧ freePages L k' = [] ∧
        Building L k₀ k' pt (kernelPart n) fun _ => 0) := by
  have h1' : 0x40 ≤ n := h1
  have h2' : n < 0x80 := h2
  have hdiv : n * 4096 / 4096 = n := Nat.mul_div_cancel n (by decide)
  have hentry : n * 4096 ||| (PTE_P ||| PTE_W) = kernelEntry n := (kernelEntry_kernel h1 h2).symm
  have hm : VmIter.Mappable (n * 4096) (n * 4096) (PTE_P ||| PTE_W) :=
    ⟨VmIter.canonical_of_lt (show n * 4096 ≤ 0x300000 by omega), Nat.mul_mod_left n 4096,
      Nat.mul_mod_left n 4096, show n * 4096 < 2 ^ 32 by omega, by decide⟩
  obtain ⟨d, p, hstop, hout⟩ := h.tryMapAt_cases hm (by decide) (show n * 4096 < 0x300000 by omega)
    (fun p => by rw [hdiv, kernelPart_self]; exact frameRef_of_not_user (by decide))
    (fun p _ => by rw [hdiv, hentry, frameRef_kernelEntry]; exact Int.le_refl 0)
  refine ⟨d, p, hstop, hout.imp_left ?_⟩
  rintro ⟨k', l, hrun, hlen, hmaps, hb⟩
  rw [hdiv, hentry, kernelPart_succ h1] at hb
  exact ⟨k', l, hrun, hlen, hmaps, hb.congr fun p _ => by rw [frameRef_kernelEntry]; rfl⟩

/-- How far the copying is: the root alone, or the tables for low
addresses, of the first three free pages. -/
def Copied (L : Layout) (k k' : Kernel) (pt n : Nat) : Prop :=
  n = KERNEL_START_ADDR / PAGESIZE ∧ RootOnly k'.mem pt ∧ freePages L k' = freePages L k ∨
    LowTables k'.mem pt false ∧ freePages L k' = (freePages L k).drop 3

/-- The next kernel page, with enough pages left. -/
theorem Building.copyKernel (h : Building L k₀ k' pt (kernelPart n) fun _ => 0)
    (h1 : KERNEL_START_ADDR / PAGESIZE ≤ n) (h2 : n < KERNEL_STACK_TOP / PAGESIZE)
    (hc : Copied L k k' pt n) (hroom : 3 ≤ (freePages L k).length) :
    ∃ k'', tryMapAt L pt (n * 4096) (n * 4096) (PTE_P ||| PTE_W) k' = .ok (0, k'') ∧
      Building L k₀ k'' pt (kernelPart (n + 1)) (fun _ => 0) ∧ Copied L k k'' pt (n + 1) := by
  have h2' : n < 0x80 := h2
  have hlow : n * 4096 < 0x200000 := by omega
  have hva : n * 4096 < MEMSIZE_VIRTUAL := show n * 4096 < 0x300000 by omega
  obtain ⟨d, p, hstop, ⟨k'', l, hrun, hlen, hmaps, hb⟩ | ⟨k'', l, hrun, hlen, hl, hnil, hb⟩⟩ :=
    h.tryMapKernel h1 h2
  · refine ⟨k'', hrun, hb, .inr ?_⟩
    rcases hc with ⟨-, hroot, hfree⟩ | ⟨htables, hfree⟩
    · obtain rfl := hroot.stops h.tree.distinct hstop
      refine ⟨hmaps.lowTables_first hlow hroot h.tree.distinct, ?_⟩
      rw [← hfree, hmaps.drawn.order, List.drop_left' hlen]
    · have hd := htables.stops hva hstop
      rw [lacking_low hlow] at hd
      obtain rfl := List.eq_nil_of_length_eq_zero (hlen.trans hd)
      have hhigh := hmaps.lowTables hva htables
      rw [decide_eq_false (Nat.not_le.mpr hlow), Bool.false_or] at hhigh
      exact ⟨hhigh, by rw [← hfree, hmaps.drawn.order, List.nil_append]⟩
  · -- there are enough pages
    exfalso
    rcases hc with ⟨-, hroot, hfree⟩ | ⟨htables, hfree⟩
    · rw [← hl, hfree] at hlen
      omega
    · have hd := htables.stops hva hstop
      rw [lacking_low hlow] at hd
      omega

/-- A table that the kernel's pages are copied from. -/
structure KernelPages (L : Layout) (k₀ : Kernel) (root : Nat) : Prop where
  tree : Tree k₀.mem root
  plain : ∀ va < MEMSIZE_VIRTUAL, VmIter.Plain k₀.mem root va
  used : ∀ p, IsTable k₀.mem root p → ¬ Free L k₀ p
  entries : ∀ vpn, KERNEL_START_ADDR / PAGESIZE ≤ vpn → vpn < KERNEL_STACK_TOP / PAGESIZE →
    leaf k₀.mem root vpn = kernelEntry vpn

theorem KernelTable.pages (h : KernelTable L k₀.mem) : KernelPages L k₀ L.kernelPagetable where
  tree := h.tree
  plain := fun va hva => .inr (h.covered va hva)
  used := fun _ hp hfree => h.not_page hp hfree.1
  entries := h.entries

theorem KernelPages.sameTables {lf : Nat → Nat} {spare : Nat → Int} (h : KernelPages L k₀ root)
    (hb : Building L k₀ k pt lf spare) : SameTables k₀.mem k.mem root := fun p hp =>
  hb.mem p (h.tree.table_aligned hp) fun hfree => absurd hfree (h.used p hp)

/-- What the loop sees of one of the pages. -/
theorem KernelPages.sees {lf : Nat → Nat} {spare : Nat → Int} (h : KernelPages L k₀ root)
    (hb : Building L k₀ k pt lf spare) (hva : va % 4096 = 0) (h1 : KERNEL_START_ADDR ≤ va)
    (h2 : va < KERNEL_STACK_TOP) (hsees : VmIter.Sees k.mem root va it) :
    it.present k.mem = true ∧ it.pa k.mem = va ∧ copiedPerm k.mem it = PTE_P ||| PTE_W := by
  refine sees_kernel hva h1 h2 hsees ?_
  rw [(h.sameTables hb).leaf]
  have h1 : 0x40000 ≤ va := h1
  have h2 : va < 0x80000 := h2
  exact h.entries _ (show 0x40 ≤ va / 4096 by omega) (show va / 4096 < 0x80 by omega)

/-- **The kernel's pages**, copied with enough pages left, by a loop that
maps each at its place. -/
theorem KernelPages.copy {α : Type} {body : VmIter → Kernel → Except Fault (Option α × Kernel)}
    (h : KernelPages L k₀ root)
    (hbody : ∀ va it k k', it.va_ = va → it.present k.mem = true → it.pa k.mem = va →
      copiedPerm k.mem it = PTE_P ||| PTE_W →
      tryMapAt L pt va va (PTE_P ||| PTE_W) k = .ok (0, k') → body it k = .ok (none, k'))
    (hb : Building L k₀ k pt (fun _ => 0) fun _ => 0) (hroot : RootOnly k.mem pt)
    (hroom : 3 ≤ (freePages L k).length) :
    ∃ k', forPages root KERNEL_START_ADDR KERNEL_STACK_TOP body k = .ok (none, k') ∧
      Building L k₀ k' pt (kernelPart (KERNEL_STACK_TOP / PAGESIZE)) (fun _ => 0) ∧
      LowTables k'.mem pt false ∧ freePages L k' = (freePages L k).drop 3 := by
  let I : Nat → Kernel → Prop := fun va k' =>
    Building L k₀ k' pt (kernelPart (va / 4096)) (fun _ => 0) ∧ Copied L k k' pt (va / 4096)
  have hloop : LoopEnds (forPages root KERNEL_START_ADDR KERNEL_STACK_TOP body k)
      (I KERNEL_STACK_TOP) (fun _ _ => False) := by
    refine forPages_rule h.tree (fun va _ hva => h.plain va (Nat.lt_trans hva (by decide)))
      (fun va k' hI => h.sameTables hI.1)
      (fun va k' it hstart hlimit hva hI _ hsees => .inl ?_) rfl rfl (by decide) (by decide)
      ⟨by rw [show KERNEL_START_ADDR / 4096 = KERNEL_START_ADDR / PAGESIZE from rfl,
        kernelPart_start]; exact hb, .inl ⟨rfl, hroot, rfl⟩⟩
    have h1 : 0x40 ≤ va / 4096 := by
      have hstart : 0x40000 ≤ va := hstart
      omega
    have h2 : va / 4096 < 0x80 := by
      have hlimit : va < 0x80000 := hlimit
      omega
    obtain ⟨hpresent, hpa, hperm⟩ := h.sees hI.1 hva hstart hlimit hsees
    obtain ⟨k'', hrun, hb', hc'⟩ := hI.1.copyKernel h1 h2 hI.2 hroom
    rw [show va / 4096 * 4096 = va by omega] at hrun
    have hnext : (va + 4096) / 4096 = va / 4096 + 1 := Nat.add_div_right va (by decide)
    exact ⟨k'', hbody va it k' k'' hsees.va_eq hpresent hpa hperm hrun, by rw [hnext]; exact hb',
      by rw [hnext]; exact hc'⟩
  rcases hloop with ⟨k', hrun, hb', hc⟩ | ⟨_, _, -, hfalse⟩
  · rcases hc with ⟨heq, -, -⟩ | hc
    · exact absurd heq (by decide)
    · exact ⟨k', hrun, hb', hc⟩
  · exact hfalse.elim

/-- The kernel's pages of a new process. -/
theorem setupKernelPages_spec (hk : KernelTable L k₀.mem)
    (hb : Building L k₀ k pt (fun _ => 0) fun _ => 0) (hroot : RootOnly k.mem pt)
    (hroom : 3 ≤ (freePages L k).length) :
    ∃ k', forPages L.kernelPagetable KERNEL_START_ADDR KERNEL_STACK_TOP (setupKernelPage L pt) k =
        .ok (none, k') ∧
      Building L k₀ k' pt (kernelPart (KERNEL_STACK_TOP / PAGESIZE)) (fun _ => 0) ∧
      LowTables k'.mem pt false ∧ freePages L k' = (freePages L k).drop 3 := by
  refine hk.pages.copy (fun va it k k' hva hpresent hpa hperm hrun => ?_) hb hroot hroom
  rw [setupKernelPage, if_neg (not_not_intro hpresent), hva, hpa, hperm, mapAt_of_tryMapAt hrun,
    if_pos rfl]
  rfl

/-- The console, mapped under the low tables. -/
theorem Building.tryMapConsole {high : Bool}
    (h : Building L k₀ k pt (kernelPart (KERNEL_STACK_TOP / PAGESIZE)) fun _ => 0)
    (hl : LowTables k.mem pt high) :
    ∃ k', tryMapAt L pt CONSOLE_ADDR CONSOLE_ADDR (PTE_P ||| PTE_W ||| PTE_U) k = .ok (0, k') ∧
      Building L k₀ k' pt kernelEntry (fun _ => 0) ∧ LowTables k'.mem pt high ∧
      freePages L k' = freePages L k := by
  have hm : VmIter.Mappable CONSOLE_ADDR CONSOLE_ADDR (PTE_P ||| PTE_W ||| PTE_U) := by
    constructor <;> decide
  obtain ⟨d, p, hstop, hout⟩ := h.tryMapAt_cases hm (by decide) (by decide)
    (fun p => frameRef_console) (fun p _ => by
      rw [show CONSOLE_ADDR / 4096 = CONSOLE_ADDR / PAGESIZE from rfl, frameRef_console]
      exact Int.le_refl 0)
  have hd := hl.stops (by decide) hstop
  rw [lacking_low (by decide)] at hd
  rcases hout with ⟨k', l, hrun, hlen, hmaps, hb⟩ | ⟨k', l, -, hlen, -⟩
  · obtain rfl := List.eq_nil_of_length_eq_zero (hlen.trans hd)
    have hl' := hmaps.lowTables (by decide) hl
    rw [decide_eq_false (by decide), Bool.or_false] at hl'
    rw [show CONSOLE_ADDR / 4096 = CONSOLE_ADDR / PAGESIZE from rfl, kernelPart_console] at hb
    exact ⟨k', hrun, hb.congr fun p _ => by rw [frameRef_console]; rfl, hl', by
      rw [hmaps.drawn.order, List.nil_append]⟩
  · omega

/-! ## Pages of the process -/

/-- `map` of a page for the process, under construction: `try_map` gives
the page's only reference to the table. -/
theorem Building.tryMapFrame {high : Bool} {q : Nat} {spare : Nat → Int} {lf : Nat → Nat}
    (h : Building L k₀ k pt lf fun p => spare p + if p = q then 1 else 0)
    (hl : LowTables k.mem pt high) (hva : va % 4096 = 0) (hrange : InUserRange (va / 4096))
    (hempty : lf (va / 4096) = 0) (hq : IsPage L q) (w : Bool)
    (hspare : ∀ p, Free L k₀ p → 0 ≤ spare p) :
    (∃ k' l, tryMapAt L pt va q (framePerm w) k = .ok (0, k') ∧ l.length = lacking high va ∧
      Maps L k k' pt va l ∧ LowTables k'.mem pt (high || decide (0x200000 ≤ va)) ∧
      Building L k₀ k' pt (Function.update lf (va / 4096) (frameEntry q w)) spare) ∨
    ∃ k', tryMapAt L pt va q (framePerm w) k = .ok (-1, k') ∧ lacking high va = 1 ∧
      freePages L k = [] ∧ freePages L k' = [] ∧
      Building L k₀ k' pt lf fun p => spare p + if p = q then 1 else 0 := by
  have hlow : va < MEMSIZE_VIRTUAL := by
    have hrange : va / 4096 < 0x300 := hrange.2
    show va < 0x300000
    omega
  have href : ∀ p, (frameRef (va / 4096) (q ||| framePerm w) p : Int) = if p = q then 1 else 0 := by
    intro p
    rw [show q ||| framePerm w = frameEntry q w from rfl, frameRef_frameEntry hrange hq]
    split <;> rfl
  obtain ⟨d, p, hstop, hout⟩ := h.tryMapAt_cases
    (mappable_of_page hq hva (Nat.le_of_lt hlow) (framePerm_lt w)) (framePerm_ne_zero w) hlow
    (fun p => by rw [hempty]; exact frameRef_of_not_user (by decide))
    (fun p hp => by rw [href p]; have := hspare p hp; omega)
  have hd := hl.stops hlow hstop
  rcases hout with ⟨k', l, hrun, hlen, hmaps, hb⟩ | ⟨k', l, hrun, hlen, hfree, hnil, hb⟩
  · exact .inl ⟨k', l, hrun, hlen.trans hd, hmaps, hmaps.lowTables hlow hl,
      hb.congr fun p _ => by rw [href p]; omega⟩
  · have hle : lacking high va ≤ 1 := by
      unfold lacking
      split <;> omega
    obtain rfl := List.eq_nil_of_length_eq_zero (show l.length = 0 by omega)
    exact .inr ⟨k', hrun, by omega, hfree, hnil, hb⟩

/-- The table at `pt` has grown by pages that were free; the other pages in
use keep their bytes. -/
structure Extends (L : Layout) (k k' : Kernel) (pt : Nat) : Prop where
  isTable : ∀ p, IsTable k'.mem pt p → IsTable k.mem pt p ∨ Free L k p
  grows : ∀ d ≤ 3, ∀ x p, nodeAt (child k.mem) 512 pt d x = some p →
    nodeAt (child k'.mem) 512 pt d x = some p
  free : ∀ p, Free L k' p → Free L k p
  mem : ∀ p, p % 4096 = 0 → ¬ Free L k p → ¬ IsTable k.mem pt p → SamePage k.mem k'.mem p

theorem Extends.refl (L : Layout) (k : Kernel) (pt : Nat) : Extends L k k pt :=
  ⟨fun _ => .inl, fun _ _ _ _ h => h, fun _ h => h, fun _ _ _ _ => .refl _ _⟩

theorem Extends.trans {k'' : Kernel} (h : Extends L k k' pt) (h' : Extends L k' k'' pt) :
    Extends L k k'' pt where
  isTable := by
    intro p hp
    rcases h'.isTable p hp with hp | hp
    · exact h.isTable p hp
    · exact .inr (h.free p hp)
  grows := fun d hd x p hp => h'.grows d hd x p (h.grows d hd x p hp)
  free := fun p hp => h.free p (h'.free p hp)
  mem := by
    intro p hp hused hnot
    refine (h.mem p hp hused hnot).trans (h'.mem p hp (mt (h.free p) hused) fun ht => ?_)
    exact (h.isTable p ht).elim hnot hused

/-- **A new page mapped**, with enough pages left. -/
theorem Building.newPage {high : Bool} {q : Nat} {rest : List Nat} {lf : Nat → Nat}
    {spare : Nat → Int} (h : Building L k₀ k pt lf spare) (hl : LowTables k.mem pt high)
    (hva : va % 4096 = 0) (hrange : InUserRange (va / 4096)) (hempty : lf (va / 4096) = 0)
    (hfree : freePages L k = q :: rest) (hroom : lacking high va ≤ rest.length) (w : Bool) :
    ∃ k', mapNewPage L pt va (framePerm w) k = .ok k' ∧
      Building L k₀ k' pt (Function.update lf (va / 4096) (frameEntry q w)) spare ∧
      LowTables k'.mem pt (high || decide (0x200000 ≤ va)) ∧
      freePages L k' = rest.drop (lacking high va) ∧ (∀ i < 4096, k'.mem (q + i) = 0xCC) ∧
      Extends L k k' pt := by
  have hq : Free L k q := mem_freePages.mp (hfree ▸ List.mem_cons_self)
  have hqal := hq.1.aligned
  have htake := h.take hq
  have hrest := freePages_take hfree
  have hsame : SameTables k.mem (k.take q).mem pt := by
    intro p hp
    refine samePage_fill (h.tree.table_aligned hp) hqal ?_
    rintro rfl
    exact h.free_not_table hq hp
  rcases htake.tryMapFrame
    (hsame.lowTables hl) hva hrange hempty hq.1 w (fun p hp => (h.isFresh p hp).2)
    with ⟨k', l, hrun, hlen, hmaps, hhigh, hb⟩ | ⟨k', -, hone, hnil, -⟩
  · have htable : ∀ p, IsTable k'.mem pt p → IsTable k.mem pt p ∨ Free L k p ∧ p ≠ q := by
      intro p ht
      rcases (hmaps.tables p).mp ht with ht | ht
      · exact .inl ((hsame.isTable p).mp ht)
      · exact .inr ((free_take hq).mp (hmaps.drawn.free ht))
    refine ⟨k', ?_, hb, hhigh, ?_, fun i hi => ?_, fun p ht => (htable p ht).imp_right And.left,
      fun d hd x p hp => ?_, fun p hp => ?_, fun p hp hused hpt => ?_⟩
    · rw [mapNewPage, kalloc_cons hfree]
      exact (mapAt_of_tryMapAt hrun).trans (if_pos rfl)
    · rw [← hrest, hmaps.drawn.order, List.drop_left' hlen]
    · have hnot : ¬ IsTable k'.mem pt q := fun ht =>
        (htable q ht).elim (h.free_not_table hq) fun h' => h'.2 rfl
      rw [hmaps.mem q hqal hnot i hi]
      show k.mem.fill q 4096 0xCC (q + i) = 0xCC
      rw [ByteMem.fill, ByteMem.update_offset hi]
    · exact hmaps.grows d hd x p ((hsame.tableAt hd x).trans hp)
    · rw [← mem_freePages, hfree]
      refine List.mem_cons_of_mem _ ?_
      rw [← hrest, hmaps.drawn.order]
      exact List.mem_append_right _ (mem_freePages.mpr hp)
    · have hpq : p ≠ q := by
        rintro rfl
        exact hused hq
      refine (samePage_fill hp hqal hpq).trans (hmaps.mem p hp fun ht => ?_)
      exact (htable p ht).elim hpt fun h' => hused h'.1
  · rw [hrest] at hnil
    rw [hone, hnil] at hroom
    exact absurd hroom (by decide)

end

/-! ## The pages of the segments -/

/-- The pages of a program's segments, in the order they are mapped. -/
def requests (segs : List Segment) : List (Nat × Bool) :=
  segs.flatMap fun seg => seg.pages.map fun a => (a, seg.writable)

/-- The free pages that mapping the pages at `as` takes. -/
def needed : Bool → List Nat → Nat
  | _, [] => 0
  | high, a :: as => 1 + lacking high a + needed (high || decide (0x200000 ≤ a)) as

/-- The frame that the page at `a` gets, where the pages at `as` are
mapped in turn, out of the pages `free`. -/
def frameOf (a : Nat) : Bool → List Nat → List Nat → Option Nat
  | high, b :: as, q :: free =>
    if b = a then some q
    else frameOf a (high || decide (0x200000 ≤ b)) as (free.drop (lacking high b))
  | _, _, _ => none

/-- A frame each for the pages `reqs`. -/
structure Assigned (L : Layout) (k k' : Kernel) (pt : Nat) (high : Bool) (reqs : List (Nat × Bool))
    (lf lf' : Nat → Nat) : Prop where
  tables : LowTables k'.mem pt (high || reqs.any fun r => decide (0x200000 ≤ r.1))
  free : freePages L k' = (freePages L k).drop (needed high (reqs.map Prod.fst))
  frames : ∀ r ∈ reqs, ∃ q, frameOf r.1 high (reqs.map Prod.fst) (freePages L k) = some q ∧
    Free L k q ∧ lf' (r.1 / 4096) = frameEntry q r.2 ∧ ∀ i < 4096, k'.mem (q + i) = 0xCC
  others : ∀ vpn, (∀ r ∈ reqs, r.1 / 4096 ≠ vpn) → lf' vpn = lf vpn
  kept : Extends L k k' pt

section

variable {L : Layout} {k₀ k k' : Kernel} {pt : Nat} {high : Bool} {reqs : List (Nat × Bool)}
  {lf : Nat → Nat}

/-- The loops over the segments and their pages are one loop. -/
theorem mapSegments_eq (segs : List Segment) (k : Kernel) :
    segs.foldlM (mapSegment L pt) k =
      (requests segs).foldlM (fun k r => mapNewPage L pt r.1 (framePerm r.2) k) k := by
  induction segs generalizing k with
  | nil => rfl
  | cons seg segs ih =>
    have hperm : segmentPerm seg = framePerm seg.writable := by
      rw [segmentPerm, framePerm]
      cases seg.writable <;> rfl
    rw [requests, List.flatMap_cons, List.foldlM_append, List.foldlM_cons, List.foldlM_map,
      mapSegment, hperm]
    exact congrArg _ (funext ih)

theorem needed_le (high : Bool) (as : List Nat) : needed high as ≤ as.length + 1 := by
  have hle : ∀ high, needed high as ≤ as.length + if high = true then 0 else 1 := by
    induction as with
    | nil => intro high; exact Nat.zero_le _
    | cons a as ih =>
      intro high
      have := ih (high || decide (0x200000 ≤ a))
      rw [needed, List.length_cons]
      cases high with
      | true =>
        simp only [Bool.true_or, if_true, lacking, Bool.true_eq_false, false_and,
          if_false] at this ⊢
        omega
      | false =>
        by_cases ha : 0x200000 ≤ a
        · rw [lacking, if_pos ⟨rfl, ha⟩]
          simp only [ha, decide_true, Bool.or_true, if_true, Bool.false_eq_true, if_false] at this ⊢
          omega
        · rw [lacking_low (Nat.not_le.mp ha)]
          simp only [ha, decide_false, Bool.or_false, Bool.false_eq_true, if_false] at this ⊢
          omega
  refine (hle high).trans (Nat.add_le_add_left ?_ _)
  split <;> omega

theorem needed_append (high : Bool) (as bs : List Nat) :
    needed high (as ++ bs) =
      needed high as + needed (high || as.any fun a => decide (0x200000 ≤ a)) bs := by
  induction as generalizing high with
  | nil => rw [List.nil_append, needed, List.any_nil, Bool.or_false, Nat.zero_add]
  | cons a as ih =>
    rw [List.cons_append, needed, needed, ih, List.any_cons, Bool.or_assoc]
    omega

/-- **The pages of the segments**, mapped with enough pages left. -/
theorem mapRequests_spec (hb : Building L k₀ k pt lf fun _ => 0) (hl : LowTables k.mem pt high)
    (hvalid : ∀ r ∈ reqs, r.1 % 4096 = 0 ∧ InUserRange (r.1 / 4096))
    (hnodup : (reqs.map fun r => r.1 / 4096).Nodup) (hempty : ∀ r ∈ reqs, lf (r.1 / 4096) = 0)
    (hroom : needed high (reqs.map Prod.fst) ≤ (freePages L k).length) :
    ∃ k' lf', reqs.foldlM (fun k r => mapNewPage L pt r.1 (framePerm r.2) k) k = .ok k' ∧
      Building L k₀ k' pt lf' (fun _ => 0) ∧ Assigned L k k' pt high reqs lf lf' := by
  induction reqs generalizing k lf high with
  | nil =>
    refine ⟨k, lf, rfl, hb, ?_, rfl, fun r hr => ?_, fun _ _ => rfl, .refl L k pt⟩
    · rw [List.any_nil, Bool.or_false]
      exact hl
    · cases hr
  | cons r reqs ih =>
    obtain ⟨a, w⟩ := r
    obtain ⟨hva, hrange⟩ := hvalid (a, w) List.mem_cons_self
    rw [List.map_cons, List.nodup_cons] at hnodup
    rw [List.map_cons, needed] at hroom
    cases hfree : freePages L k with
    | nil =>
      rw [hfree] at hroom
      have hroom : 1 + _ + _ ≤ 0 := hroom
      omega
    | cons q rest =>
      rw [hfree, List.length_cons] at hroom
      have hq : Free L k q := mem_freePages.mp (hfree ▸ List.mem_cons_self)
      have hroom : 1 + lacking high a + needed (high || decide (0x200000 ≤ a)) (reqs.map Prod.fst) ≤
        rest.length + 1 := hroom
      obtain ⟨k₁, hrun, hb₁, hl₁, hfree₁, hfill, hkept₁⟩ :=
        hb.newPage hl hva hrange (hempty _ List.mem_cons_self) hfree (by omega) w
      have hne : ∀ r ∈ reqs, r.1 / 4096 ≠ a / 4096 := fun r hr heq =>
        hnodup.1 (List.mem_map.mpr ⟨r, hr, heq⟩)
      obtain ⟨k', lf', hloop, hb', h'⟩ := ih hb₁ hl₁
        (fun r hr => hvalid r (List.mem_cons_of_mem _ hr)) hnodup.2
        (fun r hr => by
          rw [Function.update_of_ne (hne r hr)]
          exact hempty r (List.mem_cons_of_mem _ hr))
        (by rw [hfree₁, List.length_drop]; omega)
      -- the page at `a` is in use now
      have hq₁ : ¬ Free L k₁ q := by
        have hnodup := freePages_nodup L k
        rw [hfree, List.nodup_cons] at hnodup
        rw [← mem_freePages, hfree₁]
        exact fun hmem => hnodup.1 (List.mem_of_mem_drop hmem)
      have hqt : ¬ IsTable k₁.mem pt q :=
        (hb₁.mapped hrange hq.1 (Function.update_self _ _ _)).2
      refine ⟨k', lf', by rw [List.foldlM_cons, hrun]; exact hloop, hb', ?_, ?_, ?_, ?_,
        hkept₁.trans h'.kept⟩
      · rw [List.any_cons, ← Bool.or_assoc]
        exact h'.tables
      · rw [h'.free, hfree₁, List.map_cons, needed, hfree, List.drop_drop, Nat.add_assoc,
          Nat.add_comm 1,
          List.drop_succ_cons]
      · rintro r hr
        rcases List.mem_cons.mp hr with rfl | hr
        · refine ⟨q, ?_, hq, ?_, fun i hi => ?_⟩
          · rw [hfree, List.map_cons, frameOf, if_pos rfl]
          · rw [h'.others _ fun r hr => hne r hr]
            exact Function.update_self _ _ _
          · rw [h'.kept.mem q hq.1.aligned hq₁ hqt i hi]
            exact hfill i hi
        · obtain ⟨q', hframe, hfree', hentry, hfill'⟩ := h'.frames r hr
          have hneq : a ≠ r.1 := fun heq => hne r hr (by rw [heq])
          refine ⟨q', ?_, hkept₁.free q' hfree', hentry, hfill'⟩
          rw [hfree, List.map_cons, frameOf, if_neg hneq, ← hfree₁]
          exact hframe
      · intro vpn hvpn
        rw [h'.others vpn fun r hr => hvpn r (List.mem_cons_of_mem _ hr)]
        exact Function.update_of_ne (fun heq => hvpn _ List.mem_cons_self heq.symm) _ _

end

end SystemsProjects.WeensyOS
