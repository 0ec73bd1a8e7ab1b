/-
SystemsProjects.WeensyOS.KernelImage — the kernel's own page table while
processes run.

A step stores to allocatable pages and to the console only, so the
kernel's page table stays the identity mapping that `kernel_start` made;
and every process keeps the page-table pages that `process_setup` and
`fork` gave it. `Confines` says this of one step, `Housed` of a state.
-/
import SystemsProjects.WeensyOS.Runs

namespace SystemsProjects.WeensyOS

open SystemsProjects.Base
open SystemsProjects.Base.RadixTree

/-! ## The kernel's page table -/

/-- The kernel's page table, with the entry of every physical page. -/
structure KernelMap (L : Layout) (mem : ByteMem) : Prop extends KernelTable L mem where
  identity : ∀ vpn < NPAGES,
    leaf mem L.kernelPagetable vpn = vpn * PAGESIZE ||| kernelPagePerm (vpn * PAGESIZE)

/-- Where the kernel and its processes have their page-table pages. -/
structure Housed (L : Layout) (k : Kernel) : Prop where
  kernel : KernelMap L k.mem
  low : ∀ pid, Live k pid → LowTables k.mem (k.root pid) true
  first : ¬ Live k 0

/-- What a step leaves alone: pages that `kalloc` never hands out, but for
the console, and the places of page-table pages. -/
structure Confines (L : Layout) (k k' : Kernel) : Prop where
  image : ∀ p, p % 4096 = 0 → ¬ IsPage L p → p ≠ CONSOLE_ADDR → SamePage k.mem k'.mem p
  low : (∀ pid, Live k pid → LowTables k.mem (k.root pid) true) →
    ∀ pid, Live k' pid → LowTables k'.mem (k'.root pid) true
  first : ¬ Live k 0 → ¬ Live k' 0

section

variable {L : Layout} {P : Programs} {command : Option String} {mem mem' : ByteMem}
  {k k' k'' : Kernel} {e : Event} {pid p va : Nat} {byte : UInt8}

theorem SameTables.kernelMap (h : SameTables mem mem' L.kernelPagetable) (hk : KernelMap L mem) :
    KernelMap L mem' where
  toKernelTable := h.kernelTable hk.toKernelTable
  identity := fun vpn hvpn => by
    rw [h.leaf]
    exact hk.identity vpn hvpn

/-- The kernel's page-table pages are in its image. -/
theorem KernelTable.not_console (h : KernelTable L mem) (hp : IsTable mem L.kernelPagetable p) :
    p ≠ CONSOLE_ADDR := by
  have himage := (h.image p hp).2
  have hend : L.kernelEnd ≤ 0x7F000 := L.end_le
  show p ≠ 0xB8000
  omega

theorem Confines.kernelMap (h : Confines L k k') (hk : KernelMap L k.mem) : KernelMap L k'.mem := by
  refine SameTables.kernelMap (fun p hp => ?_) hk
  exact h.image p (hk.tree.table_aligned hp) (hk.not_page hp) (hk.not_console hp)

theorem Confines.housed (h : Confines L k k') (hk : Housed L k) : Housed L k' :=
  ⟨h.kernelMap hk.kernel, h.low hk.low, h.first hk.first⟩

theorem Confines.trans (h : Confines L k k') (h' : Confines L k' k'') : Confines L k k'' where
  image := fun p hp hnot hne => (h.image p hp hnot hne).trans (h'.image p hp hnot hne)
  low := fun hlow => h'.low (h.low hlow)
  first := fun hfirst => h'.first (h.first hfirst)

/-! ## The effects of a step -/

/-- A step that changes no table. -/
theorem Keeps.confines (h : Keeps k k')
    (himage : ∀ p, p % 4096 = 0 → ¬ IsPage L p → p ≠ CONSOLE_ADDR → SamePage k.mem k'.mem p) :
    Confines L k k' where
  image := himage
  low := by
    intro hlow pid hlive
    have hlive := (h.live pid).mp hlive
    rw [h.root]
    exact (h.tables pid hlive).lowTables (hlow pid hlive)
  first := fun hfirst hlive => hfirst ((h.live 0).mp hlive)

theorem Alike.confines (h : Alike k k') : Confines L k k' := by
  refine h.keeps.confines fun p _ _ _ => ?_
  rw [h.mem]
  exact .refl k.mem p

theorem userStore_confines (hs : Steady L k) (h : userStore va byte k = .ok k') :
    Confines L k k' := by
  refine (userStore_keeps hs h).confines fun p hp hnot hne => ?_
  obtain ⟨q, i, hi, rfl, hq⟩ := userStore_cases hs h
  have hqal : q % 4096 = 0 := by
    rcases hq with rfl | ⟨hq, -⟩
    · rfl
    · exact hq.aligned
  have hpq : p ≠ q := by
    rcases hq with rfl | ⟨hq, -⟩
    · exact hne
    · rintro rfl
      exact hnot hq
  exact fun j hj => ByteMem.fill_outside (by omega)

/-- `syscall_page_alloc` moves no page-table page: it adds none, and those
that were there stay. -/
theorem syscallPageAlloc_nodes {r : Int} (h : Inv L k) (hlive : Live k k.current)
    (hva : ValidAddr va) (hrun : syscallPageAlloc L va k = .ok (r, k')) {d : Nat} (hd : d ≤ 3)
    (x : Nat) :
    nodeAt (child k'.mem) 512 (k.root k.current) d x =
      nodeAt (child k.mem) 512 (k.root k.current) d x := by
  rcases kalloc_cases L k with ⟨hk, -⟩ | ⟨q, hq, -, hk⟩
  · rw [syscallPageAlloc, hk] at hrun
    cases hrun
    rfl
  · let k₁ := (k.take q).memset q 0 PAGESIZE
    have hspace := h.spaces k.current hlive
    have htables : SameTables k.mem k₁.mem (k.root k.current) := by
      intro p hp
      have hne : p ≠ q := by
        rintro rfl
        exact h.free_not_table hlive hq hp
      have hal := hspace.tree.table_aligned hp
      exact (samePage_fill hal hq.1.aligned hne).trans (samePage_fill hal hq.1.aligned hne)
    obtain ⟨k₂, hmap, hup⟩ := (htables.space hspace).tryMapAt (k := k₁) hva hq.1 true
    obtain rfl : k₂ = k' := by
      have hmap : tryMapAt L (k.root k.current) va q (framePerm true) k₁ = .ok (0, k₂) := hmap
      rw [syscallPageAlloc, hk] at hrun
      have hrun : (tryMapAt L (k.root k.current) va q (framePerm true) k₁ >>= _) = _ := hrun
      rw [hmap] at hrun
      cases hrun
      rfl
    rw [← htables.tableAt hd]
    cases hp : nodeAt (child k₁.mem) 512 (k.root k.current) d x with
    | some p => exact hup.grows d hd x p hp
    | none =>
      -- a page-table page of the new table was one of the old, at its old place
      rw [Option.eq_none_iff_forall_ne_some]
      intro p hp'
      obtain ⟨e, he, y, hold⟩ := ((hup.tables p).mp ⟨d, hd, x, hp'⟩).resolve_right List.not_mem_nil
      obtain ⟨rfl, rfl⟩ := hup.tree.distinct e he d hd y x p (hup.grows e he y p hold) hp'
      rw [hp] at hold
      cases hold

theorem Allocated.confines {q : Nat} (h : Allocated L k k' va q) (hs : Steady L k)
    (hnodes : ∀ d ≤ 3, ∀ x, nodeAt (child k'.mem) 512 (k.root k.current) d x =
      nodeAt (child k.mem) 512 (k.root k.current) d x) : Confines L k k' where
  image := by
    intro p hp hnot _
    refine h.mem p hp ?_ fun ht => hnot ((hs.inv.spaces k.current hs.live).tables p ht)
    rintro rfl
    exact hnot h.isPage
  low := by
    intro hlow pid hlive
    have hlive := (h.live pid).mp hlive
    rw [h.root]
    by_cases hne : pid = k.current
    · rw [hne] at hlive ⊢
      exact (hlow k.current hlive).congr hnodes
    · exact ((h.others hs.inv hs.live).tables pid hne hlive).lowTables (hlow pid hlive)
  first := fun hfirst hlive => hfirst ((h.live 0).mp hlive)

theorem Exited.confines (h : Exited L k k') : Confines L k k' where
  image := fun p _ _ _ => by
    rw [h.mem]
    exact .refl k.mem p
  low := by
    intro hlow pid hlive
    have hne : pid ≠ k.current := by
      rintro rfl
      exact h.not_live hlive
    rw [h.mem, Kernel.root, h.others.slot pid hne]
    exact hlow pid ((h.others.live hne).mp hlive)
  first := by
    intro hfirst hlive
    have hne : 0 ≠ k.current := fun heq => h.not_live (heq ▸ hlive)
    exact hfirst ((h.others.live hne).mp hlive)

theorem ForkFailed.image (h : ForkFailed L k k') (hp : p % 4096 = 0) (hnot : ¬ IsPage L p) :
    SamePage k.mem k'.mem p := by
  have hused : ¬ Free L k p := fun hfree => hnot hfree.1
  rcases h.undone with ⟨hundone, -⟩ | ⟨q, -, hundone, -⟩
  · exact hundone.mem p hp hused
  · exact hundone.mem p hp hused

/-- A finished table in a free slot other than the first. -/
theorem Ready.confines {pt : Nat} {lf : Nat → Nat} {proc : Proc} (h : Ready L k k' pt lf)
    (hinv : Inv L k) (hpid : pid ≠ 0) (hproc : proc.pagetable = pt) :
    Confines L k (k'.setProc pid proc) where
  image := fun p hp hnot _ => h.building.mem p hp fun hfree => absurd hfree.1 hnot
  low := by
    intro hlow i hlive
    by_cases hne : i = pid
    · rw [hne, setProc_root, hproc]
      exact h.tables
    · have hothers : Others k (k'.setProc pid proc) pid := h.others hinv
      have hlive := (hothers.live hne).mp hlive
      rw [Kernel.root, hothers.slot i hne]
      exact (hothers.tables i hne hlive).lowTables (hlow i hlive)
  first := fun hfirst hlive => hfirst (((h.others hinv).live hpid.symm).mp hlive)

/-! ## One step -/

theorem fork_confines {regs : RegState} {r : Int} (hs : Steady L k)
    (hcall : regs.rax = SYSCALL_FORK) (hbelow : ForkBelow 255 k (.syscall regs))
    (h : syscallFork L (saveRegs regs k) = .ok (r, k')) : Confines L (saveRegs regs k) k' := by
  have halike := saveRegs_alike regs k
  have hinv := halike.keeps.inv hs.inv
  by_cases hslot : findFree (saveRegs regs k) = none
  · rw [syscallFork, hslot] at h
    cases h
    exact (Alike.refl _).confines
  · have hcan : CanFork L (saveRegs regs k) := by
      refine ⟨hinv, (halike.live _).mpr hs.live, ?_⟩
      rcases hbelow hcall with hnone | hbelow
      · exact absurd (halike.findFree_none hnone) hslot
      · exact halike.sharesBelow rfl hbelow
    rcases syscallFork_cases hcan with
      ⟨hrun, -⟩ | ⟨k₂, hrun, -, hfailed⟩ | ⟨pid, pt, k₁, lf, hrun, hslot', hforking⟩
    · rw [hrun] at h
      cases h
      exact (Alike.refl _).confines
    · rw [hrun] at h
      cases h
      exact (hfailed.keeps hinv).confines fun p hp hnot _ => hfailed.image hp hnot
    · rw [hrun] at h
      cases h
      have hpos : 0 < pid := (findFree_eq_some hslot').1
      exact (hforking.ready hcan (halike.keeps.stacked hs.stack)).confines hinv
        (Nat.ne_of_gt hpos) rfl

/-- **Every step** leaves the kernel's image and the places of page-table
pages alone. -/
theorem step_confines (hs : Steady L k) (hok : CountedForks 255 k e) (h : step L e k = .ok k') :
    Confines L k k' := by
  cases e with
  | store va byte => exact userStore_confines hs h
  | exception regs =>
    have halike := saveRegs_alike regs k
    have h : exception regs k = .ok k' := h
    rw [exception] at h
    simp only [] at h
    split at h
    · exact (halike.trans (schedule_alike h).1).confines
    · split at h
      · have hfault := faulted_alike (k := saveRegs regs k) ((halike.live _).mpr hs.live)
        exact ((halike.trans hfault).trans (schedule_alike h).1).confines
      · cases h
  | syscall regs =>
    have halike := saveRegs_alike regs k
    have hlive : Live (saveRegs regs k) (saveRegs regs k).current := (halike.live _).mpr hs.live
    have hs₁ := halike.steady hlive hs.inv hs.stack
    refine halike.confines.trans ?_
    by_cases hyield : regs.rax = SYSCALL_YIELD
    · rw [step_yield hyield] at h
      exact ((saveRegs_alike _ _).trans (schedule_alike h).1).confines
    by_cases halloc : regs.rax = SYSCALL_PAGE_ALLOC
    · rw [step_pageAlloc halloc] at h
      obtain ⟨⟨r, k₁⟩, hrun, h⟩ := bind_eq_ok h
      cases h
      rcases syscallPageAlloc_spec hs₁.inv hlive (hok.1 halloc) with
        ⟨hrun', -⟩ | ⟨k₂, q, hrun', hallocated⟩
      · rw [hrun] at hrun'
        cases hrun'
        exact (Alike.refl _).confines
      · have hnodes := fun d hd x =>
          syscallPageAlloc_nodes hs₁.inv hlive (hok.1 halloc) hrun (d := d) hd x
        rw [hrun] at hrun'
        cases hrun'
        exact hallocated.confines hs₁ hnodes
    by_cases hfork : regs.rax = SYSCALL_FORK
    · rw [step_fork hfork] at h
      obtain ⟨⟨r, k₁⟩, hrun, h⟩ := bind_eq_ok h
      cases h
      exact fork_confines hs hfork hok.2 hrun
    by_cases hexit : regs.rax = SYSCALL_EXIT
    · rw [step_exit hexit] at h
      obtain ⟨k₁, hrun, h⟩ := bind_eq_ok h
      obtain ⟨k₂, hrun', hexited⟩ := syscallExit_spec hs₁
      rw [hrun'] at hrun
      cases hrun
      exact hexited.confines.trans (schedule_alike h).1.confines
    -- `getpid`, and calls that do not exist
    rw [step, syscall] at h
    simp only [if_neg hyield, if_neg halloc, if_neg hfork, if_neg hexit] at h
    split at h
    · cases h
      exact (Alike.refl _).confines
    · cases h

/-! ## Runs -/

theorem Setups.confines {l : List (Nat × String)} (h : Setups L P k l k')
    (hk : KernelTable L k.mem) (hinv : Inv L k) (hexact : Exact k)
    (hslots : ∀ s ∈ l, s.1 ≠ 0 ∧ s.1 < PID_MAX ∧ (k.ptable s.1).state = .free)
    (hnodup : (l.map Prod.fst).Nodup) : Confines L k k' := by
  induction h with
  | nil k => exact (Alike.refl k).confines
  | @cons k k' k'' pid name rest hload hrun h ih =>
    rw [List.map_cons, List.nodup_cons] at hnodup
    obtain ⟨hne, hpid, hslot⟩ := hslots _ List.mem_cons_self
    obtain ⟨pt, k₁, lf, hrun', hbuilt⟩ :=
      processSetup_builds hk hload.loadable hload.room hload.contiguous pid
    rw [hrun] at hrun'
    obtain rfl := Except.ok.inj hrun'
    have hready := hbuilt.ready
    refine (hready.confines hinv hne rfl).trans (ih
      (SameTables.kernelTable (fun p hp => ?_) hk)
      (hready.inv hinv (hready.counts_of_exact hinv hexact) hpid hslot rfl)
      (hready.exact hinv hexact hpid hslot rfl fun h => nomatch h) (fun s hs => ?_) hnodup.2)
    · refine hbuilt.building.mem p (hk.tree.table_aligned hp) fun hfree => ?_
      exact absurd hfree.1 (hk.not_page hp)
    · obtain ⟨hzero, hlt, hfree⟩ := hslots s (List.mem_cons_of_mem _ hs)
      have hother : s.1 ≠ pid := fun heq => hnodup.1 (List.mem_map.mpr ⟨s, hs, heq⟩)
      refine ⟨hzero, hlt, ?_⟩
      show (Function.update k₁.ptable pid _ s.1).state = .free
      rw [Function.update_of_ne hother, hbuilt.building.ptable]
      exact hfree

theorem bootPrograms_ne_zero {s : Nat × String} (hs : s ∈ bootPrograms P command) : s.1 ≠ 0 := by
  rw [bootPrograms] at hs
  split at hs <;> simp only [List.mem_cons, List.not_mem_nil, or_false] at hs
  · rw [hs]
    exact Nat.one_ne_zero
  · rcases hs with rfl | rfl | rfl | rfl <;> decide

theorem Boots.housed (h : Boots L P command mem k) : Housed L k := by
  obtain ⟨k₀, k₁, hboot, hsetups, hrun⟩ := h
  obtain ⟨k₀', lf, hboot', hup, hset⟩ := bootKernel_maps L mem
  rw [hboot] at hboot'
  cases hboot'
  have hbooted := Booted.of_bootKernel hboot
  have hdead : ∀ pid, ¬ Live k₀ pid := fun pid hlive => hlive.2 (by rw [hbooted.ptable])
  have hstart : Housed L k₀ := by
    refine ⟨⟨hbooted.table, fun vpn hvpn => ?_⟩, fun pid hlive => absurd hlive (hdead pid), hdead 0⟩
    rw [hup.leaf, hset vpn hvpn]
  obtain ⟨hnodup, hlt⟩ := bootPrograms_slots P command
  have hconf := hsetups.confines hbooted.table hbooted.inv hbooted.exact
    (fun s hs => ⟨bootPrograms_ne_zero hs, hlt s hs, by rw [hbooted.ptable]⟩) hnodup
  exact (hconf.trans (run_alike hrun).confines).housed hstart

/-- **A running kernel** has its page table, and its processes have their
page-table pages, where they were put. -/
theorem Reaches.housed (h : Reaches L P command mem (CountedForks 255) k) : Housed L k := by
  induction h with
  | boot h => exact h.housed
  | step h hok hstep ih => exact (step_confines h.steady hok hstep).housed ih

end

end SystemsProjects.WeensyOS
