/-
SystemsProjects.WeensyOS.ForkResult — what `fork` leaves behind.

A child is a copy of its parent: the same addresses with the same
permissions and bytes, on frames of its own where it may write
(`ChildOf`). A failed call changes nothing, with one exception: if the
last free page has become the frame for the first copied page from 2 MB
on, the page-table page for it is missing, and nobody gives the frame
back (`LeavesPage`). In both cases every process that was there is left
alone (`Untouched`).
-/
import SystemsProjects.WeensyOS.Alone

namespace SystemsProjects.WeensyOS

open SystemsProjects.Base
open SystemsProjects.Base.RadixTree

/-- Process `i` has the page table and the memory it had. -/
structure SameMemory (k k' : Kernel) (i : Nat) : Prop where
  root : k'.root i = k.root i
  tables : SameTables k.mem k'.mem (k.root i)
  view : ∀ va, look k'.mem (k.root i) va = look k.mem (k.root i) va
  bytes : ∀ va p w, va % PAGESIZE = 0 → va < 2 ^ 64 →
    userPage k.mem (k.root i) va = some (p, w) → ∀ j < PAGESIZE, k'.mem (p + j) = k.mem (p + j)

/-- And it has its entry in `ptable`. -/
structure Untouched (k k' : Kernel) (i : Nat) : Prop extends SameMemory k k' i where
  proc : k'.ptable i = k.ptable i

section

variable {L : Layout} {P : Programs} {command : Option String} {mem : ByteMem}
  {k₀ k k' : Kernel} {pid pt p i va : Nat} {w : Bool} {lf : Nat → Nat} {regs : RegState} {r c : Int}

/-- A process keeps its memory if the pages in use stay. -/
theorem Inv.sameMemory (hinv : Inv L k) (hlive : Live k i) (hroot : k'.root i = k.root i)
    (hmem : ∀ p, p % 4096 = 0 → ¬ Free L k p → SamePage k.mem k'.mem p) : SameMemory k k' i := by
  have hspace := hinv.spaces i hlive
  have hsame : SameTables k.mem k'.mem (k.root i) := fun p hp =>
    hmem p (hspace.tree.table_aligned hp) fun hfree => hinv.free_not_table hlive hfree hp
  refine ⟨hroot, hsame, hspace.look_congr hsame, fun va p w hva hlt hview => ?_⟩
  rcases (hspace.userPage_eq_some hva hlt).mp hview with ⟨-, rfl, -⟩ | ⟨hlow, hhigh, hp, hentry⟩
  · exact hmem CONSOLE_ADDR rfl fun hfree => absurd hfree.1.bounds.2.2.1 (by decide)
  · have hvpn : InUserRange (va / PAGESIZE) := (ValidAddr.mk hva hlow hhigh).inUserRange
    exact hmem p hp.aligned (hinv.not_free hlive (holds_of_entry hvpn hp hentry))

theorem Inv.untouched (hinv : Inv L k) (hlive : Live k i) (hproc : k'.ptable i = k.ptable i)
    (hmem : ∀ p, p % 4096 = 0 → ¬ Free L k p → SamePage k.mem k'.mem p) : Untouched k k' i where
  toSameMemory := hinv.sameMemory hlive (by rw [Kernel.root, hproc, Kernel.root]) hmem
  proc := hproc

/-! ## A child -/

/-- No process may access the page at `q`. -/
def Unmapped (k : Kernel) (q : Nat) : Prop :=
  ∀ i, Live k i → ∀ va w, va % PAGESIZE = 0 → va < 2 ^ 64 →
  userPage k.mem (k.root i) va ≠ some (q, w)

/-- In `k'`, slot `pid` has a child of the process that runs in `k`. -/
structure ChildOf (k k' : Kernel) (pid : Nat) : Prop where
  slot : pid < PID_MAX ∧ (k.ptable pid).state = .free
  regs : (k'.ptable pid).regs = { k.cur.regs with rax := 0 }
  absent : ∀ va < MEMSIZE_VIRTUAL, va % PAGESIZE = 0 → userPage k.mem k.cur.pagetable va = none →
    userPage k'.mem (k'.root pid) va = none
  copied : ∀ va < MEMSIZE_VIRTUAL, va % PAGESIZE = 0 → va ≠ CONSOLE_ADDR → ∀ p,
    userPage k.mem k.cur.pagetable va = some (p, true) →
      ∃ q, userPage k'.mem (k'.root pid) va = some (q, true) ∧ Unmapped k q ∧
        ∀ j < PAGESIZE, k'.mem (q + j) = k.mem (p + j)
  shared : ∀ va < MEMSIZE_VIRTUAL, va % PAGESIZE = 0 → ∀ p,
    userPage k.mem k.cur.pagetable va = some (p, false) →
      userPage k'.mem (k'.root pid) va = some (p, false) ∧
        ∀ j < PAGESIZE, k'.mem (p + j) = k.mem (p + j)
  kernel : ∀ va, KERNEL_START_ADDR ≤ va → va < KERNEL_STACK_TOP →
    look k'.mem (k'.root pid) va = look k.mem k.cur.pagetable va
  console : userPage k.mem k.cur.pagetable CONSOLE_ADDR = some (CONSOLE_ADDR, true) ∧
    userPage k'.mem (k'.root pid) CONSOLE_ADDR = some (CONSOLE_ADDR, true)
  slots : ∀ i ≠ pid, k'.ptable i = k.ptable i
  others : ∀ i, Live k i → i ≠ pid ∧ Untouched k k' i

/-- A free page is mapped by nobody. -/
theorem Inv.unmapped (hinv : Inv L k) (hq : Free L k p) : Unmapped k p := by
  intro i hlive va w hva hlt hview
  have hspace := hinv.spaces i hlive
  rcases (hspace.userPage_eq_some hva hlt).mp hview with ⟨-, rfl, -⟩ | ⟨hlow, hhigh, hp, hentry⟩
  · exact absurd hq.1.bounds.2.2.1 (by decide)
  · have hvpn : InUserRange (va / PAGESIZE) := (ValidAddr.mk hva hlow hhigh).inUserRange
    exact hinv.not_free hlive (holds_of_entry hvpn hp hentry) hq

/-- Two spaces show alike what they have the same present entries for. -/
theorem look_eq_of_leaf {mem mem' : ByteMem} {root root' : Nat} (h : Space L mem root)
    (h' : Space L mem' root') (hlow : va < MEMSIZE_VIRTUAL)
    (hleaf : leaf mem' root' (va / 4096) = leaf mem root (va / 4096))
    (hpresent : leaf mem root (va / 4096) &&& PTE_P ≠ 0) :
    look mem' root' va = look mem root va := by
  have hcanon := VmIter.canonical_of_lt (Nat.le_of_lt hlow)
  obtain ⟨pa, hlook, hpa⟩ := look_space h.tree h.noLarge hcanon
  obtain ⟨pa', hlook', hpa'⟩ := look_space h'.tree h'.noLarge hcanon
  rw [slot_page hlow] at hlook hpa hlook' hpa'
  rw [hlook, hlook', hleaf, hpa hpresent, hpa' (by rw [hleaf]; exact hpresent), hleaf]

/-- A page of the address space by its address. -/
theorem Space.userPage_low {mem : ByteMem} {root : Nat} (h : Space L mem root)
    (hva : va % PAGESIZE = 0) (hlow : va < MEMSIZE_VIRTUAL) :
    userPage mem root va = entryPage (leaf mem root (va / 4096)) := by
  rw [userPage_eq h.tree h.noLarge hva (VmIter.canonical_of_lt (Nat.le_of_lt hlow)), slot_page hlow]

/-- What the child may access at an address: what its parent may, or a
copy. -/
theorem Forking.view (h : Forking L k₀ k pt 0x300 lf) (hs : CanFork L k₀)
    (hchild : Space L k.mem pt)
    (hva : va % PAGESIZE = 0) (hlow : va < MEMSIZE_VIRTUAL) :
    (userPage k.mem pt va = userPage k₀.mem (k₀.root k₀.current) va ∧
      ∀ p, userPage k₀.mem (k₀.root k₀.current) va = some (p, true) → va = CONSOLE_ADDR) ∨
    ∃ p q, userPage k₀.mem (k₀.root k₀.current) va = some (p, true) ∧
      userPage k.mem pt va = some (q, true) ∧ Free L k₀ q ∧
      ∀ j < 4096, k.mem (q + j) = k₀.mem (p + j) := by
  have hleaf : leaf k.mem pt (va / 4096) = lf (va / 4096) := congrFun h.building.leaf _
  have hlow' : va < 0x300000 := hlow
  rw [hchild.userPage_low hva hlow, hs.space.userPage_low hva hlow, hleaf]
  by_cases hvpn : InUserRange (va / 4096)
  · have hcopy := h.below (va / 4096) hvpn.lt hvpn
    generalize leaf k₀.mem (k₀.root k₀.current) (va / 4096) = e at hcopy
    generalize lf (va / 4096) = e' at hcopy
    cases hcopy with
    | absent => exact .inl ⟨rfl, fun p hp => by rw [entryPage_zero] at hp; cases hp⟩
    | shared hp => exact .inl ⟨rfl, fun p hp' => by rw [entryPage_frameEntry hp] at hp'; cases hp'⟩
    | copied hp hq hbytes =>
      exact .inr ⟨_, _, entryPage_frameEntry hp true, entryPage_frameEntry hq.1 true, hq, hbytes⟩
  · have hkernel := (hs.space.entries (va / 4096)).resolve_right fun huser => hvpn huser.1
    rw [hkernel, h.rest _ fun huser => hvpn huser.2]
    refine .inl ⟨rfl, fun p hp => ?_⟩
    have hpage : va / 4096 = 0xB8 := (entryPage_kernelEntry_iff.mp hp).1
    have hva : va % 4096 = 0 := hva
    show va = 0xB8000
    omega

/-- **A successful `fork`** makes a copy. -/
theorem Forking.childOf (h : Forking L k₀ k pt 0x300 lf) (hs : CanFork L k₀) (hstack : Stacked L k₀)
    (hslot : findFree k₀ = some pid) : ChildOf k₀ (k.setProc pid (childProc k₀ pt pid)) pid := by
  obtain ⟨-, hpid, hfree⟩ := findFree_eq_some hslot
  have hchild : Space L k.mem pt := (h.ready hs hstack).space
  have hmem : ∀ p, p % 4096 = 0 → ¬ Free L k₀ p → SamePage k₀.mem k.mem p := fun p hp hused =>
    h.building.mem p hp fun hfree => absurd hfree hused
  have hroot : (k.setProc pid (childProc k₀ pt pid)).root pid = pt := setProc_root
  have hparent : k₀.cur.pagetable = k₀.root k₀.current := rfl
  have hslots : ∀ i ≠ pid, (k.setProc pid (childProc k₀ pt pid)).ptable i = k₀.ptable i :=
    fun i hne => h.slots hne
  refine ⟨⟨hpid, hfree⟩, by rw [setProc_self]; rfl, ?_, ?_, ?_, ?_, ?_, hslots, fun i hlive => ?_⟩
  · intro va hlow hva hnone
    rw [setProc_mem, hroot]
    rw [hparent] at hnone
    rcases h.view hs hchild hva hlow with ⟨hsame, -⟩ | ⟨p, q, hsome, -⟩
    · rw [hsame, hnone]
    · rw [hnone] at hsome
      cases hsome
  · intro va hlow hva hne p hview
    rw [setProc_mem, hroot]
    rw [hparent] at hview
    rcases h.view hs hchild hva hlow with ⟨-, hconsole⟩ | ⟨p', q, hsome, hcopy, hq, hbytes⟩
    · exact absurd (hconsole p hview) hne
    · rw [hview] at hsome
      cases hsome
      exact ⟨q, hcopy, hs.inv.unmapped hq, hbytes⟩
  · intro va hlow hva p hview
    rw [setProc_mem, hroot]
    rw [hparent] at hview
    rcases h.view hs hchild hva hlow with ⟨hsame, -⟩ | ⟨p', q, hsome, -⟩
    · refine ⟨hsame.trans hview, ?_⟩
      have hlow' : va < 2 ^ 64 := Nat.lt_trans hlow (by decide)
      rcases (hs.space.userPage_eq_some hva hlow').mp hview with ⟨-, -, hw⟩ | ⟨hstart, -,
          hp, hentry⟩
      · cases hw
      · exact hmem p hp.aligned (hs.inv.not_free hs.live
          (holds_of_entry (ValidAddr.mk hva hstart hlow).inUserRange hp hentry))
    · rw [hview] at hsome
      cases hsome
  · intro va hstart hlow
    have hstart : 0x40000 ≤ va := hstart
    have hlow : va < 0x80000 := hlow
    have hkernel : leaf k₀.mem (k₀.root k₀.current) (va / 4096) = kernelEntry (va / 4096) :=
      hs.kernelPages.entries _ (show 0x40 ≤ va / 4096 by omega) (show va / 4096 < 0x80 by omega)
    have hrest : leaf k.mem pt (va / 4096) = kernelEntry (va / 4096) := by
      rw [congrFun h.building.leaf]
      refine h.rest _ fun huser => ?_
      have h1 : 0x100 ≤ va / 4096 := huser.2.1
      omega
    rw [setProc_mem, hroot, hparent]
    refine look_eq_of_leaf hs.space hchild (show va < 0x300000 by omega)
      (hrest.trans hkernel.symm) ?_
    rw [hkernel, kernelEntry_kernel (show 0x40 ≤ va / 4096 by omega)
      (show va / 4096 < 0x80 by omega),
      or_and_perm (Nat.mul_mod_left _ _) (by decide)]
    decide
  · rw [setProc_mem, hroot, hparent, hs.space.userPage_eq_some (by decide) (by decide),
      hchild.userPage_eq_some (by decide) (by decide)]
    exact ⟨.inl ⟨rfl, rfl, rfl⟩, .inl ⟨rfl, rfl, rfl⟩⟩
  · have hne : i ≠ pid := by
      rintro rfl
      exact hlive.2 hfree
    exact ⟨hne, hs.inv.untouched hlive (hslots i hne) hmem⟩

/-- The state in which the kernel handles a system call. -/
theorem Steady.saveRegs (h : Steady L k) (regs : RegState) : Steady L (saveRegs regs k) :=
  (saveRegs_alike regs k).steady (((saveRegs_alike regs k).live _).mpr h.live) h.inv h.stack

/-- **A child is a copy of its parent** in every run in which processes
allocate pages where they have none. -/
theorem fork_copies (h : Reaches L P command mem FreshAllocs k)
    (hrun : syscallFork L (saveRegs regs k) = .ok (c, k')) (hc : 0 < c) :
    ∃ pid : Nat, c = pid ∧ ChildOf (saveRegs regs k) k' pid := by
  have hsane := h.sane
  have hs := hsane.steady.saveRegs regs
  have hcan := hsane.canFork regs
  rcases syscallFork_cases hcan with
    ⟨hfail, -⟩ | ⟨k₂, hfail, -⟩ | ⟨pid, pt, k₁, lf, hsuccess, hslot, hforking⟩
  · rw [hfail] at hrun
    cases hrun
    exact absurd hc (by decide)
  · rw [hfail] at hrun
    cases hrun
    exact absurd hc (by decide)
  · rw [hsuccess] at hrun
    cases hrun
    exact ⟨pid, rfl, hforking.childOf hcan hs.stack hslot⟩

theorem fork_copies_booted :
    ∃ k k', kernelStart smallLayout (pageProgram true) none zeroed = .ok k ∧
      syscallFork smallLayout (saveRegs (callRegs SYSCALL_FORK 0) k) = .ok ((2 : Nat), k') ∧
      ∃ pid : Nat, ((2 : Nat) : Int) = pid ∧
      ChildOf (saveRegs (callRegs SYSCALL_FORK 0) k) k' pid := by
  obtain ⟨k, p, hboots, halone, hroom⟩ := boots_pageProgram true
  have hsane := hboots.sane
  have hcount : k.refs p < 255 :=
    Nat.lt_of_le_of_lt (hsane.refs_le halone.page.1.aligned) (by decide)
  obtain ⟨-, pt, k₁, lf, hrun, -⟩ :=
    halone.fork hsane.steady hcount (Nat.le_trans (by decide) hroom) (callRegs SYSCALL_FORK 0)
  exact ⟨k, _, hboots.kernelStart, hrun, fork_copies (.boot hboots) hrun (by decide)⟩

/-! ## A failure -/

/-- Nothing has changed. -/
structure Unchanged (k k' : Kernel) : Prop where
  ptable : k'.ptable = k.ptable
  processes : ∀ i, Live k i → Untouched k k' i
  counts : ∀ n, k'.physpages n = k.physpages n

theorem Undone.unchanged (h : Undone L k₀ k fun _ => 0) (hinv : Inv L k₀) : Unchanged k₀ k where
  ptable := h.ptable
  processes := fun _ hlive => hinv.untouched hlive (by rw [h.ptable]) h.mem
  counts := by
    intro n
    have hrefs := h.refs (n * 4096) (Nat.mul_mod_left n 4096)
    rw [Kernel.refs, Kernel.refs, Nat.mul_div_cancel n (by decide)] at hrefs
    omega

theorem Unchanged.refl (hinv : Inv L k) : Unchanged k k where
  ptable := rfl
  processes := fun _ hlive => hinv.untouched hlive rfl fun p _ _ => .refl k.mem p
  counts := fun _ => rfl

theorem Alike.leavesPage (h : Alike k k') (hcur : k'.current = k.current)
    (hleaves : LeavesPage L k) :
    LeavesPage L k' := by
  have hview := h.pageView hcur
  have hown : ∀ n, ownPages k' n = ownPages k n := by
    intro n
    induction n with
    | zero => rfl
    | succ n ih => rw [ownPages, ownPages, ih, hview]
  rw [LeavesPage, freePages_congr h.physpages, hown]
  simp only [hview]
  exact hleaves

/-- **A page is lost** there. -/
theorem LeavesPage.loses (h : LeavesPage L k) (hs : CanFork L k) (hslot : findFree k ≠ none) :
    ∃ k', syscallFork L k = .ok (-1, k') ∧ ¬ Unchanged k k' := by
  obtain ⟨hlen, vpn, hge, hlt, hany, -⟩ := id h
  have hmany : (freePages L k).length < 5 + ownPages k 0x300 := by
    have hmono := ownPages_mono (k := k) (show vpn + 1 ≤ 0x300 from hlt)
    have hbase := ownPages_mono (k := k) hge
    have hne : vpn ≠ CONSOLE_ADDR / PAGESIZE := by
      rintro rfl
      exact absurd hge (by decide)
    rw [ownPages, if_pos ⟨hne, hany⟩] at hmono
    omega
  rcases syscallFork_cases hs with
    ⟨-, hwhy⟩ | ⟨k₂, hfail, -, hfailed⟩ | ⟨pid, pt, k₁, lf, -, -, hforking⟩
  · rcases hwhy with hnone | hnil
    · exact absurd hnone hslot
    · rw [hnil, List.length_nil] at hlen
      omega
  · refine ⟨k₂, hfail, fun hsame => ?_⟩
    rcases hfailed.undone with ⟨-, hnot⟩ | ⟨q, hq, hundone, -⟩
    · exact hnot h
    · have hrefs := hundone.refs q hq.1.aligned
      have hcount : k₂.refs q = k.refs q := hsame.counts _
      rw [if_pos rfl, hcount] at hrefs
      omega
  · have hroom := hforking.room
    have hhigh : hasHigh k 0x300 = true := by
      rw [hasHigh_iff]
      refine ⟨vpn, hlt, hge, ?_⟩
      cases hview : pageView k vpn with
      | none => rw [hview] at hany; cases hany
      | some v => rfl
    rw [if_pos hhigh] at hroom
    omega

/-- **A failed `fork` changes nothing**, except where it leaves a page
taken; and there it always does. -/
theorem fork_failure_atomic_iff (h : Reaches L P command mem (CountedForks 255) k)
    (hbelow : findFree k = none ∨ SharesBelow k 255)
    (hrun : syscallFork L (saveRegs regs k) = .ok (r, k')) (hneg : r < 0) :
    Unchanged (saveRegs regs k) k' ↔
      ¬ (findFree (saveRegs regs k) ≠ none ∧ LeavesPage L (saveRegs regs k)) := by
  have hs := h.steady.saveRegs regs
  have halike := saveRegs_alike regs k
  rcases hbelow with hnone | hbelow
  · have hnone := halike.findFree_none hnone
    rw [syscallFork, hnone] at hrun
    cases hrun
    exact iff_of_true (.refl hs.inv) fun hboth => hboth.1 hnone
  · have hcan : CanFork L (saveRegs regs k) := ⟨hs.inv, hs.live, halike.sharesBelow rfl hbelow⟩
    rcases syscallFork_cases hcan with
      ⟨hfail, hwhy⟩ | ⟨k₂, hfail, hslot, hfailed⟩ | ⟨pid, pt, k₁, lf, hsuccess, -⟩
    · rw [hfail] at hrun
      cases hrun
      refine iff_of_true (.refl hs.inv) fun hboth => ?_
      rcases hwhy with hnone | hnil
      · exact hboth.1 hnone
      · exact not_leavesPage_of_lt (by rw [hnil, List.length_nil]; omega) hboth.2
    · rw [hfail] at hrun
      cases hrun
      rcases hfailed.undone with ⟨hundone, hnot⟩ | ⟨q, hq, hundone, hleaves⟩
      · exact iff_of_true (hundone.unchanged hs.inv) fun hboth => hnot hboth.2
      · refine iff_of_false (fun hsame => ?_) fun hnot => hnot ⟨hslot, hleaves⟩
        have hrefs := hundone.refs q hq.1.aligned
        have hcount : k'.refs q = (saveRegs regs k).refs q := hsame.counts _
        rw [if_pos rfl, hcount] at hrefs
        omega
    · rw [hsuccess] at hrun
      cases hrun
      exact absurd hneg (by omega)

theorem Sane.leavesPage_loses (hsane : Sane L k) (hslot : findFree k ≠ none)
    (hleaves : LeavesPage L k) (regs : RegState) :
    ∃ k', syscallFork L (saveRegs regs k) = .ok (-1, k') ∧ ¬ Unchanged (saveRegs regs k) k' := by
  have halike := saveRegs_alike regs k
  exact (halike.leavesPage rfl hleaves).loses (hsane.canFork regs)
    fun hnone => hslot (halike.symm.findFree_none hnone)

/-- A process gets there by `PAGE_ALLOC`s alone: 150 below 2 MB, and then
as many above as leave the pages for the copies of those below. -/
theorem exists_leavesPage :
    ∃ k, Reaches smallLayout (pageProgram true) none zeroed FreshAllocs k ∧
      findFree k ≠ none ∧ LeavesPage smallLayout k := by
  obtain ⟨k, p, hboots, halone, hroom⟩ := boots_pageProgram true
  have hs := hboots.sane.steady
  have hmax : (freePages smallLayout k).length ≤ 512 := freePages_length_le _ _
  let b := (freePages smallLayout k).length - 306
  let l := List.range' 0x101 150 ++ List.range' 0x200 b
  have hlen : l.length = 150 + b := by simp [l]
  have hmem : ∀ vpn, vpn ∈ l ↔ (0x101 ≤ vpn ∧ vpn < 0x101 + 150) ∨
      (0x200 ≤ vpn ∧ vpn < 0x200 + b) := by
    intro vpn
    simp [l, List.mem_range'_1]
  have hnodup : l.Nodup := by
    refine List.nodup_append.mpr ⟨List.nodup_range', List.nodup_range', fun v hv v' hv' => ?_⟩
    have h1 := List.mem_range'_1.mp hv
    have h2 := List.mem_range'_1.mp hv'
    omega
  have hnone : ∀ vpn ∈ l, InUserRange vpn ∧ leaf k.mem (k.root k.current) vpn = 0 := by
    intro vpn hvpn
    have hrange : 0x100 ≤ vpn ∧ vpn < 0x300 ∧ vpn ≠ 0x100 ∧ vpn ≠ 0x2FF := by
      rcases (hmem vpn).mp hvpn with h | h <;> omega
    have huser : InUserRange vpn := ⟨hrange.1, hrange.2.1⟩
    refine ⟨huser, ?_⟩
    rw [halone.current, halone.others vpn hrange.2.2.1 hrange.2.2.2, kernelEntry_of_user huser]
  obtain ⟨k', hreach, hstate, hleft, hin, hout⟩ :=
    (Reaches.boot hboots).spend hnodup hnone (by omega)
  have hs' := hreach.sane.steady
  have hview : ∀ vpn < 0x300, pageView k vpn = entryPage (leaf k.mem (k.root k.current) vpn) :=
    fun vpn hlt => (hs.inv.spaces _ hs.live).userPage_mul hlt
  have hview' : ∀ vpn < 0x300, pageView k' vpn = entryPage (leaf k'.mem (k'.root k'.current) vpn) :=
    fun vpn hlt => (hs'.inv.spaces _ hs'.live).userPage_mul hlt
  have hnew : ∀ vpn ∈ l, ∃ q, pageView k' vpn = some (q, true) := by
    intro vpn hvpn
    obtain ⟨q, hq, hentry⟩ := hin vpn hvpn
    exact ⟨q, by rw [hview' vpn (hnone vpn hvpn).1.lt, hentry, entryPage_frameEntry hq]⟩
  have hsame : ∀ vpn < 0x300, vpn ∉ l → pageView k' vpn = pageView k vpn := by
    intro vpn hlt hnot
    rw [hview' vpn hlt, hview vpn hlt, hout vpn hnot]
  have hown : ownPages k' 0x200 = 151 := by
    have hmore : ownPages k' 0x200 = ownPages k 0x200 + (List.range 0x200).countP (· ∈ l) :=
      ownPages_more
      (fun hconsole => by
        have hrange : (0x101 ≤ 0xB8 ∧ 0xB8 < 0x101 + 150) ∨ (0x200 ≤ 0xB8 ∧ 0xB8 < 0x200 + b) :=
          (hmem _).mp hconsole
        omega)
      (fun vpn hvpn _ => by
        obtain ⟨q, hq⟩ := hnew vpn hvpn
        refine ⟨q, hq, ?_⟩
        rw [hview vpn (hnone vpn hvpn).1.lt, (hnone vpn hvpn).2, entryPage_zero])
      (fun vpn hlt => hsame vpn (Nat.lt_trans hlt (by decide)))
    have hcount : (List.range 0x200).countP (· ∈ l) = 150 := by
      rw [List.countP_congr (q := fun vpn => decide (0x101 ≤ vpn ∧ vpn < 0x197)) fun vpn hvpn => ?_]
      · decide +kernel
      · have hlt := List.mem_range.mp hvpn
        rw [decide_eq_true_eq, decide_eq_true_eq, hmem vpn]
        omega
    rw [hmore, (halone.own hs).1, hcount]
    rfl
  refine ⟨k', hreach, ?_, by omega, 0x200, Nat.le_refl _, by decide, ?_, fun n h1 h2 => by omega⟩
  · have hslot := halone.slot
    rw [findFree] at hslot ⊢
    simp only [hstate]
    rw [hslot]
    exact Option.some_ne_none 2
  · obtain ⟨q, hq⟩ := hnew 0x200 ((hmem _).mpr (.inr ⟨Nat.le_refl _, by omega⟩))
    rw [hq]
    rfl

theorem fork_failure_atomic_iff_lost :
    ∃ k k', findFree k ≠ none ∧ LeavesPage smallLayout k ∧
      syscallFork smallLayout (saveRegs (callRegs SYSCALL_FORK 0) k) = .ok (-1, k') ∧
      (Unchanged (saveRegs (callRegs SYSCALL_FORK 0) k) k' ↔
        ¬ (findFree (saveRegs (callRegs SYSCALL_FORK 0) k) ≠ none ∧
          LeavesPage smallLayout (saveRegs (callRegs SYSCALL_FORK 0) k))) := by
  obtain ⟨k, hreach, hslot, hleaves⟩ := exists_leavesPage
  have hsane := hreach.sane
  obtain ⟨k', hrun, -⟩ := hsane.leavesPage_loses hslot hleaves (callRegs SYSCALL_FORK 0)
  exact ⟨k, k', hslot, hleaves, hrun, fork_failure_atomic_iff hreach.counted
    (.inr hsane.sharesBelow) hrun (by decide)⟩

theorem fork_failure_leaks :
    ¬ ∀ (L : Layout) (P : Programs) (command : Option String) (mem : ByteMem) (k k' : Kernel)
      (regs : RegState) (r : Int), Reaches L P command mem (fun _ => AllocValid) k →
        syscallFork L (saveRegs regs k) = .ok (r, k') → r < 0 → Unchanged (saveRegs regs k) k' := by
  intro hall
  obtain ⟨k, hreach, hslot, hleaves⟩ := exists_leavesPage
  obtain ⟨k', hrun, hchanged⟩ :=
    hreach.sane.leavesPage_loses hslot hleaves (callRegs SYSCALL_FORK 0)
  exact hchanged (hall _ _ _ _ k k' _ _ (hreach.mono fun _ _ h => h.1) hrun (by decide))

end

end SystemsProjects.WeensyOS
