/-
SystemsProjects.WeensyOS.Startup — the state in which the first process
runs.

`kernel_start` sets up one process or the four allocators, each from the
free pages the ones before have left. If every program loads well on its
turn, all of them have sound page tables.
-/
import SystemsProjects.WeensyOS.Boot
import SystemsProjects.WeensyOS.NewProcess
import SystemsProjects.WeensyOS.ProgramLoading

namespace SystemsProjects.WeensyOS

open SystemsProjects.Base
open SystemsProjects.Base.RadixTree

/-- The processes that `kernel_start` sets up. -/
def bootPrograms (P : Programs) (command : Option String) : List (Nat × String) :=
  if ¬ P.isEmpty (command.getD P.firstProcess) = true then [(1, command.getD P.firstProcess)]
  else [(1, "allocator"), (2, "allocator2"), (3, "allocator3"), (4, "allocator4")]

/-- `process_setup` has the pages it needs for a program, and finds them
where it can load them. -/
structure LoadsWell (L : Layout) (P : Programs) (k : Kernel) (name : String) : Prop where
  loadable : Loadable (P.segments name)
  room : ((P.segments name).flatMap Segment.pages).length + 6 ≤ (freePages L k).length
  contiguous : Contiguous L k (P.segments name)

/-- `process_setup` for each of a list of programs, each of which loads
well. -/
inductive Setups (L : Layout) (P : Programs) : Kernel → List (Nat × String) → Kernel → Prop where
  | nil (k : Kernel) : Setups L P k [] k
  | cons {k k' k'' : Kernel} {pid : Nat} {name : String} {rest : List (Nat × String)}
      (hload : LoadsWell L P k name) (hrun : processSetup L P pid name k = .ok k')
      (h : Setups L P k' rest k'') : Setups L P k ((pid, name) :: rest) k''

/-- The kernel starts, and its programs load well. -/
def Boots (L : Layout) (P : Programs) (command : Option String) (mem : ByteMem)
    (k : Kernel) : Prop :=
  ∃ k₀ k₁, bootKernel L mem = .ok k₀ ∧ Setups L P k₀ (bootPrograms P command) k₁ ∧
    run 1 k₁ = .ok k

/-- **What every state of a running kernel has.** -/
structure Sane (L : Layout) (k : Kernel) : Prop where
  inv : Inv L k
  exact : Exact k
  live : Live k k.current
  stack : Stacked L k

section

variable {L : Layout} {P : Programs} {command : Option String} {mem : ByteMem}
  {k k' k'' : Kernel} {pid pt p : Nat} {name : String} {l : List (Nat × String)} {lf : Nat → Nat}

theorem Setups.foldlM (h : Setups L P k l k') :
    l.foldlM (fun k s => processSetup L P s.1 s.2 k) k = .ok k' := by
  induction h with
  | nil k => rfl
  | cons hload hrun h ih =>
    rw [List.foldlM_cons, hrun]
    exact ih

/-- The state is the one `kernel_start` runs in. -/
theorem Boots.kernelStart (h : Boots L P command mem k) :
    kernelStart L P command mem = .ok k := by
  obtain ⟨k₀, k₁, hboot, hsetups, hrun⟩ := h
  have hfold := hsetups.foldlM
  rw [kernelStart_eq, hboot, ok_bind]
  rw [bootPrograms] at hfold
  by_cases hempty : ¬ P.isEmpty (command.getD P.firstProcess) = true
  · rw [if_pos hempty, List.foldlM_cons] at hfold
    obtain ⟨k₂, hsetup, hlast⟩ := bind_eq_ok hfold
    cases hlast
    simp only [if_pos hempty, hsetup]
    exact hrun
  · rw [if_neg hempty] at hfold
    obtain ⟨k₂, h₁, hfold⟩ := bind_eq_ok hfold
    obtain ⟨k₃, h₂, hfold⟩ := bind_eq_ok hfold
    obtain ⟨k₄, h₃, hfold⟩ := bind_eq_ok hfold
    obtain ⟨k₅, h₄, hlast⟩ := bind_eq_ok hfold
    cases hlast
    simp only [if_neg hempty, h₁, h₂, h₃, h₄, ok_bind]
    exact hrun

/-! ## The invariant at the start -/

theorem Booted.total (h : Booted L k) (p : Nat) : total k p = 0 := by
  refine Finset.sum_eq_zero fun pid _ => if_neg fun hlive => hlive.2 ?_
  rw [h.ptable]

theorem Booted.inv (h : Booted L k) : Inv L k := by
  have hdead : ∀ pid, ¬ Live k pid := fun pid hlive => hlive.2 (by rw [h.ptable])
  refine ⟨refs_lt_all fun p hp => ?_, fun pid hlive => absurd hlive (hdead pid),
    fun pid hlive => absurd hlive (hdead pid), fun p _ => by rw [h.total]; exact Nat.zero_le _,
    fun pid hlive => absurd hlive (hdead pid)⟩
  rw [h.refs p hp]
  decide

theorem Booted.exact (h : Booted L k) : Exact k := by
  intro p hp _
  rw [h.refs p hp, h.total]

/-- The table of a new process is fit for it. -/
theorem Built.ready {segs : List Segment} (h : Built L segs k k' pt lf) : Ready L k k' pt lf where
  building := h.building
  tables := h.tables
  entries := fun vpn => (h.frames vpn).imp_right fun ⟨hvpn, q, w, hq, hentry⟩ =>
    ⟨hvpn, q, w, hq.1, hentry⟩
  writable := by
    intro vpn p hvpn hp hentry
    rcases h.frames vpn with hk | ⟨-, q, w, hq, hentry'⟩
    · rw [kernelEntry_of_user hvpn] at hk
      have huser := userEntry_frameEntry hp.aligned true
      rw [← hentry, hk] at huser
      exact absurd huser (by decide)
    · rw [hentry'] at hentry
      rw [← (frameEntry_inj hq.1.aligned hp.aligned hentry).1]
      exact hq
  shared := by
    intro p hnot hpos
    exfalso
    rcases holds_pos.mp hpos with ht | ⟨vpn, -, hne⟩
    · exact hnot (h.building.tables p ht)
    · rw [h.building.leaf] at hne
      rcases h.frames vpn with hk | ⟨hvpn, q, w, hq, hentry⟩
      · rw [hk] at hne
        exact hne frameRef_kernelEntry
      · rw [hentry, frameRef_frameEntry hvpn hq.1] at hne
        split at hne
        · rename_i heq
          exact hnot (heq ▸ hq)
        · exact hne rfl

theorem Setups.sane (h : Setups L P k l k') (hk : KernelTable L k.mem) (hinv : Inv L k)
    (hexact : Exact k) (hstack : Stacked L k) (hnodup : (l.map Prod.fst).Nodup)
    (hslots : ∀ s ∈ l, s.1 < PID_MAX ∧ (k.ptable s.1).state = .free) :
    Inv L k' ∧ Exact k' ∧ Stacked L k' := by
  induction h with
  | nil k => exact ⟨hinv, hexact, hstack⟩
  | @cons k k' k'' pid name rest hload hrun h ih =>
    rw [List.map_cons, List.nodup_cons] at hnodup
    obtain ⟨hpid, hslot⟩ := hslots _ List.mem_cons_self
    obtain ⟨pt, k₁, lf, hrun', hbuilt⟩ :=
      processSetup_builds hk hload.loadable hload.room hload.contiguous pid
    rw [hrun] at hrun'
    obtain rfl := Except.ok.inj hrun'
    have hready := hbuilt.ready
    obtain ⟨q, hq, hentry⟩ := hbuilt.stack
    refine ih (SameTables.kernelTable (fun p hp => ?_) hk)
      (hready.inv hinv (hready.counts_of_exact hinv hexact) hpid hslot rfl)
      (hready.exact hinv hexact hpid hslot rfl fun h => nomatch h)
      (hready.stacked hinv hstack rfl ⟨q, hq.1, hentry⟩) hnodup.2 fun s hs => ?_
    · refine hbuilt.building.mem p (hk.tree.table_aligned hp) fun hfree => ?_
      exact absurd hfree.1 (hk.not_page hp)
    · obtain ⟨hlt, hfree⟩ := hslots s (List.mem_cons_of_mem _ hs)
      have hne : s.1 ≠ pid := fun heq => hnodup.1 (List.mem_map.mpr ⟨s, hs, heq⟩)
      refine ⟨hlt, ?_⟩
      show (Function.update k₁.ptable pid _ s.1).state = .free
      rw [Function.update_of_ne hne, hbuilt.building.ptable]
      exact hfree

/-- `run` changes `current` alone. -/
theorem run_eq_ok (h : run pid k = .ok k') :
    (k.ptable pid).state = .runnable ∧ k' = { k with current := pid } := by
  rw [run] at h
  obtain ⟨_, h1, h⟩ := bind_eq_ok h
  obtain ⟨_, _, h⟩ := bind_eq_ok h
  obtain ⟨_, _, h⟩ := bind_eq_ok h
  obtain ⟨_, _, h⟩ := bind_eq_ok h
  cases h
  rw [assert] at h1
  split at h1
  · rename_i hstate
    exact ⟨hstate, rfl⟩
  · cases h1

/-! ## Registers and scheduling -/

/-- The same memory, counts, tables and processes; registers, states and
`current` may differ. -/
structure Alike (k k' : Kernel) : Prop where
  mem : k'.mem = k.mem
  physpages : k'.physpages = k.physpages
  root : ∀ pid, k'.root pid = k.root pid
  live : ∀ pid, Live k' pid ↔ Live k pid

theorem Alike.refs (h : Alike k k') (p : Nat) : k'.refs p = k.refs p := by
  rw [Kernel.refs, h.physpages, Kernel.refs]

theorem Alike.keeps (h : Alike k k') : Keeps k k' where
  refs := fun p _ _ => h.refs p
  fresh := fun p _ hzero => by
    rw [h.refs, hzero]
    exact Nat.zero_le 1
  tables := fun pid _ => by
    rw [h.mem]
    exact .refl k.mem (k.root pid)
  root := h.root
  live := h.live

theorem Alike.refl (k : Kernel) : Alike k k := ⟨rfl, rfl, fun _ => rfl, fun _ => Iff.rfl⟩

theorem Alike.symm (h : Alike k k') : Alike k' k where
  mem := h.mem.symm
  physpages := h.physpages.symm
  root := fun pid => (h.root pid).symm
  live := fun pid => (h.live pid).symm

theorem Alike.trans (h : Alike k k') (h' : Alike k' k'') : Alike k k'' where
  mem := h'.mem.trans h.mem
  physpages := h'.physpages.trans h.physpages
  root := fun pid => (h'.root pid).trans (h.root pid)
  live := fun pid => (h'.live pid).trans (h.live pid)

theorem run_alike (h : run pid k = .ok k') : Alike k k' := by
  obtain ⟨-, rfl⟩ := run_eq_ok h
  exact ⟨rfl, rfl, fun _ => rfl, fun _ => Iff.rfl⟩

/-- A new process can run. -/
theorem run_newProcess :
    run pid (newProcess P name pid pt k) =
      .ok { newProcess P name pid pt k with current := pid } := by
  have hle : PROC_START_ADDR ≤ MEMSIZE_VIRTUAL := by decide
  simp [run, assert, newProcess, initProcess, RegState.zero, hle]

theorem Booted.of_bootKernel (h : bootKernel L mem = .ok k) : Booted L k := by
  obtain ⟨k', hrun, hbooted⟩ := bootKernel_spec L mem
  rw [h] at hrun
  cases hrun
  exact hbooted

theorem bootPrograms_slots (P : Programs) (command : Option String) :
    ((bootPrograms P command).map Prod.fst).Nodup ∧
      ∀ s ∈ bootPrograms P command, s.1 < PID_MAX := by
  rw [bootPrograms]
  split <;> constructor <;> simp [PID_MAX]

/-- **The kernel starts sane.** -/
theorem Boots.sane (h : Boots L P command mem k) : Sane L k := by
  obtain ⟨k₀, k₁, hboot, hsetups, hrun⟩ := h
  have hbooted := Booted.of_bootKernel hboot
  obtain ⟨hnodup, hlt⟩ := bootPrograms_slots P command
  have hdead : Stacked L k₀ := fun pid hlive => absurd (by rw [hbooted.ptable]) hlive.2
  obtain ⟨hinv, hexact, hstack⟩ := hsetups.sane hbooted.table hbooted.inv hbooted.exact hdead hnodup
    fun s hs => ⟨hlt s hs, by rw [hbooted.ptable]⟩
  have halike := run_alike hrun
  obtain ⟨hstate, rfl⟩ := run_eq_ok hrun
  refine ⟨halike.keeps.inv hinv, halike.keeps.exact hinv hexact,
    ⟨show 1 < 16 by decide, ?_⟩, hstack⟩
  show (k₁.ptable 1).state ≠ .free
  rw [hstate]
  exact fun h => nomatch h

/-- A kernel with one program boots. -/
theorem boots_single (hboot : bootKernel L mem = .ok k)
    (hname : ¬ P.isEmpty (command.getD P.firstProcess) = true)
    (hload : LoadsWell L P k (command.getD P.firstProcess)) :
    ∃ pt k₁ lf, Built L (P.segments (command.getD P.firstProcess)) k k₁ pt lf ∧
      Boots L P command mem
        { newProcess P (command.getD P.firstProcess) 1 pt k₁ with current := 1 } := by
  obtain ⟨pt, k₁, lf, hrun, hbuilt⟩ := processSetup_builds (Booted.of_bootKernel hboot).table
    hload.loadable hload.room hload.contiguous 1
  refine ⟨pt, k₁, lf, hbuilt, k, newProcess P (command.getD P.firstProcess) 1 pt k₁, hboot, ?_, ?_⟩
  · rw [bootPrograms, if_pos hname]
    exact .cons hload hrun (.nil _)
  · exact run_newProcess

end

/-! ## A kernel with one program -/

/-- A kernel built with one program, of one segment without data. -/
def emptySegment (va size : Nat) : Programs where
  image := fun name =>
    if name = "program" then
      some { phnum := 1, segments := [{ va := va, size := size, data := [], writable := true }],
             entry := va }
    else none
  firstProcess := "program"

/-- The same for one page, which the process may write or only read. -/
def pageProgram (writable : Bool) : Programs where
  image := fun name =>
    if name = "program" then
      some { phnum := 1,
             segments := [{ va := 0x100000, size := 0x1000, data := [], writable := writable }],
             entry := 0x100000 }
    else none
  firstProcess := "program"

/-- Process 1 is alone, with the page at `p` for its program and another
for its stack. -/
structure Alone (L : Layout) (k : Kernel) (w : Bool) (p : Nat) : Prop where
  current : k.current = 1
  pid : (k.ptable 1).pid = 1
  runnable : (k.ptable 1).state = .runnable
  free : ∀ i ≠ 1, (k.ptable i).state = .free
  page : IsPage L p ∧ leaf k.mem (k.root 1) 0x100 = frameEntry p w
  stack : ∃ q, IsPage L q ∧ leaf k.mem (k.root 1) 0x2FF = frameEntry q true
  others : ∀ vpn, vpn ≠ 0x100 → vpn ≠ 0x2FF → leaf k.mem (k.root 1) vpn = kernelEntry vpn

/-- The pages of the program. -/
theorem pageProgram_pages {w : Bool} {s : Segment} (hs : s ∈ (pageProgram w).segments "program")
    {a : Nat}
    (ha : a ∈ s.pages) : a = 0x100000 := by
  obtain rfl := List.mem_singleton.mp hs
  obtain ⟨hal, hle, hlt⟩ := mem_pages.mp ha
  rw [base_eq] at hle
  have hle : 0x100000 / 4096 * 4096 ≤ a := hle
  have hlt : a < 0x100000 + 0x1000 := hlt
  omega

theorem pageProgram_length (w : Bool) :
    (((pageProgram w).segments "program").flatMap Segment.pages).length = 1 := by
  cases w <;> decide

/-- **A kernel that boots**, with most pages free. -/
theorem boots_pageProgram (w : Bool) :
    ∃ k p, Boots smallLayout (pageProgram w) none zeroed k ∧ Alone smallLayout k w p ∧
      401 ≤ (freePages smallLayout k).length := by
  obtain ⟨k₀, hboot, hbooted⟩ := bootKernel_spec smallLayout zeroed
  have hroom : (freePages smallLayout k₀).length = 408 := by
    rw [hbooted.freePages]
    decide +kernel
  have hload : LoadsWell smallLayout (pageProgram w) k₀ "program" := by
    refine ⟨⟨?_, ?_, ?_, List.pairwise_singleton _ _⟩, ?_, fun s hs a ha f p hf hp => ?_⟩
    · exact fun s hs => List.mem_singleton.mp hs ▸ Nat.le_refl _
    · exact fun s hs => List.mem_singleton.mp hs ▸ (show 0x100000 + 0x1000 ≤ 0x2FF000 by decide)
    · exact fun s hs => List.mem_singleton.mp hs ▸ Nat.zero_le _
    · rw [hroom, pageProgram_length]
      decide
    · have hbase : s.base = 0x100000 := by
        obtain rfl := List.mem_singleton.mp hs
        exact (base_eq _).trans (show 0x100000 / 4096 * 4096 = 0x100000 by decide)
      obtain rfl := pageProgram_pages hs ha
      rw [hbase] at hf ⊢
      exact (Option.some.inj (hf.symm.trans hp)).symm
  have hname : ¬ (pageProgram w).isEmpty
    ((none : Option String).getD (pageProgram w).firstProcess) =
      true := by
    cases w <;> decide
  obtain ⟨pt, k₁, lf, hbuilt, hboots⟩ := boots_single hboot hname hload
  obtain ⟨p, hp, hentry, -⟩ := hbuilt.bytes _ (List.mem_singleton.mpr rfl) 0
    (show 0 < 0x1000 by decide)
  have hentry : lf ((0x100000 + 0) / 4096) = frameEntry p w := hentry
  obtain ⟨q, hq, hstack⟩ := hbuilt.stack
  have hleaf : leaf k₁.mem pt = lf := hbuilt.building.leaf
  have hptable : ∀ i, k₁.ptable i =
      { pagetable := 0, pid := i, state := .free, regs := .zero } := by
    intro i
    rw [hbuilt.building.ptable, hbooted.ptable]
  refine ⟨_, p, hboots,
    ⟨rfl, ?_, ?_, fun i hne => ?_, ⟨hp.1, ?_⟩, ⟨q, hq.1, ?_⟩, fun vpn h1 h2 => ?_⟩, ?_⟩
  · simp only [newProcess, Function.update_self, hptable]
  · simp only [newProcess, Function.update_self]
  · simp only [newProcess, Function.update_of_ne hne, hptable]
  · simp only [newProcess, Kernel.root, Function.update_self, hleaf]
    exact hentry
  · simp only [newProcess, Kernel.root, Function.update_self, hleaf]
    exact hstack
  · simp only [newProcess, Kernel.root, Function.update_self, hleaf]
    refine hbuilt.others vpn (fun s hs a ha heq => h1 ?_) h2
    rw [← heq, pageProgram_pages hs ha]
  · have hcount := hbuilt.room
    rw [hroom, show (none : Option String).getD (pageProgram w).firstProcess = "program" from rfl,
      pageProgram_length] at hcount
    show 401 ≤ (freePages smallLayout k₁).length
    omega

/-- A page with an entry is in a last page-table page. -/
theorem exists_last_table {mem : ByteMem} {root vpn : Nat} (h : leaf mem root vpn ≠ 0) :
    ∃ q, nodeAt (child mem) 512 root 3 (vpn / 512) = some q := by
  rw [leaf] at h
  cases hq : nodeAt (child mem) 512 root 3 (vpn / 512) with
  | none =>
    rw [hq] at h
    exact absurd rfl h
  | some q => exact ⟨q, rfl⟩

/-- The table above a table. -/
theorem exists_upper_table {mem : ByteMem} {root d x q : Nat}
    (h : nodeAt (child mem) 512 root (d + 1) x = some q) :
    ∃ p, nodeAt (child mem) 512 root d (x / 512) = some p := by
  rw [nodeAt, Option.bind_eq_some_iff] at h
  obtain ⟨p, hp, -⟩ := h
  exact ⟨p, hp⟩

/-- Process 1 has four page-table pages below its root. -/
theorem Alone.tables {L : Layout} {k : Kernel} {w : Bool} {p : Nat} (h : Alone L k w p)
    (hdist : Distinct (child k.mem) 512 (k.root 1) 3) :
    ∃ l : List Nat, l.Nodup ∧ l.length = 4 ∧ ∀ q ∈ l, IsTable k.mem (k.root 1) q ∧ q ≠ k.root 1 := by
  obtain ⟨s, hstack, hentry⟩ := h.stack
  -- the last ones, for the program and for the stack
  have hpage : leaf k.mem (k.root 1) 0x100 ≠ 0 := by
    intro hzero
    refine (userEntry_frameEntry h.page.1.aligned w).present ?_
    rw [← h.page.2, hzero]
    rfl
  have hlast : leaf k.mem (k.root 1) 0x2FF ≠ 0 := by
    intro hzero
    refine (userEntry_frameEntry hstack.aligned true).present ?_
    rw [← hentry, hzero]
    rfl
  obtain ⟨t₃, ht₃⟩ := exists_last_table hpage
  obtain ⟨u₃, hu₃⟩ := exists_last_table hlast
  obtain ⟨t₂, ht₂⟩ := exists_upper_table ht₃
  obtain ⟨t₁, ht₁⟩ := exists_upper_table ht₂
  have hne : ∀ {d x d' x' p q}, d ≤ 3 → d' ≤ 3 →
      nodeAt (child k.mem) 512 (k.root 1) d x = some p →
      nodeAt (child k.mem) 512 (k.root 1) d' x' = some q → ¬ (d = d' ∧ x = x') → p ≠ q := by
    rintro d x d' x' p _ hd hd' hp hq hother rfl
    exact hother (hdist d hd d' hd' x x' p hp hq)
  have hroot : nodeAt (child k.mem) 512 (k.root 1) 0 0 = some (k.root 1) := nodeAt_root
  refine ⟨[t₁, t₂, t₃, u₃], ?_, rfl, ?_⟩
  · simp only [List.nodup_cons, List.mem_cons, List.not_mem_nil, or_false, not_or,
      List.nodup_nil, not_false_eq_true, and_true]
    exact ⟨⟨hne (by decide) (by decide) ht₁ ht₂ (by decide),
      hne (by decide) (by decide) ht₁ ht₃ (by decide),
      hne (by decide) (by decide) ht₁ hu₃ (by decide)⟩,
      ⟨hne (by decide) (by decide) ht₂ ht₃ (by decide),
      hne (by decide) (by decide) ht₂ hu₃ (by decide)⟩,
      hne (by decide) (by decide) ht₃ hu₃ (by decide)⟩
  · simp only [List.forall_mem_cons]
    exact ⟨⟨⟨1, by decide, _, ht₁⟩, hne (by decide) (by decide) ht₁ hroot (by decide)⟩,
      ⟨⟨2, by decide, _, ht₂⟩, hne (by decide) (by decide) ht₂ hroot (by decide)⟩,
      ⟨⟨3, by decide, _, ht₃⟩, hne (by decide) (by decide) ht₃ hroot (by decide)⟩,
      ⟨⟨3, by decide, _, hu₃⟩, hne (by decide) (by decide) hu₃ hroot (by decide)⟩, by simp⟩

/-- The loop over a process's page table. -/
theorem forTables_process :
    ∃ k p, Boots smallLayout (pageProgram true) none zeroed k ∧ Alone smallLayout k true p ∧
      ∃ pages : List Nat, 4 ≤ pages.length ∧ pages.Nodup ∧
        (∀ p, p ∈ pages ↔ IsTable k.mem (k.root 1) p ∧ p ≠ k.root 1) ∧
        pages.Pairwise (fun p q => ¬ Below (child k.mem) 512 (k.root 1) 3 q p) ∧
        ∀ body, Confined body →
          ∃ mem', forTables body (k.root 1) k.mem = .ok (pages, mem') := by
  obtain ⟨k, p, hboots, halone, -⟩ := boots_pageProgram true
  have hsane := hboots.sane
  have hspace := hsane.inv.spaces _ hsane.live
  rw [halone.current] at hspace
  obtain ⟨pages, hnodup, hmem, horder, hloop⟩ :=
    forTables_spec hspace.tree.distinct hspace.tree.aligned
  refine ⟨k, p, hboots, halone, pages, ?_, hnodup, hmem, horder, hloop⟩
  obtain ⟨l, hl, hlength, htables⟩ := halone.tables hspace.tree.distinct
  rw [← hlength]
  exact (hl.subperm fun q hq => (hmem q).mpr (htables q hq)).length_le

namespace VmIter

/-- Moves over the pages of a process, and over the large pages of the
devices, in the table the kernel starts with. -/
theorem run_agrees_booted :
    (∃ k p, Boots smallLayout (pageProgram true) none zeroed k ∧
      look k.mem (k.root 1) 0x100000 = .ok (p, PTE_P ||| PTE_W ||| PTE_U) ∧
      ∃ it, (new k.mem (k.root 1) 0x100000 >>=
          run k.mem [.add PAGESIZE, .next, .sub PAGESIZE, .nextRange]) = .ok it ∧
        (it.done = true ∨ Agrees k.mem (k.root 1) it)) ∧
    let mem := (bootStores smallLayout (initialKernel zeroed)).mem
    look mem 0x41000 0x40000000 = .ok (0x40000000, PTE_P ||| PTE_W ||| PTE_PS) ∧
      ∃ it, (new mem 0x41000 0x3FFFF000 >>= run mem [.add PAGESIZE, .next, .nextRange]) = .ok it ∧
        (it.done = true ∨ Agrees mem 0x41000 it) := by
  have htree := (bootTable_stores smallLayout (initialKernel zeroed)).tree
  obtain ⟨k, p, hboots, halone, -⟩ := boots_pageProgram true
  have hsane := hboots.sane
  have hspace := hsane.inv.spaces _ hsane.live
  rw [halone.current] at hspace
  have hlook : look k.mem (k.root 1) 0x100000 = .ok (p + 0x100000 % 4096, framePerm true) :=
    look_frame hspace.tree hspace.noLarge (by decide) halone.page.1 halone.page.2
  refine ⟨⟨k, p, hboots, hlook, ?_⟩, by decide +kernel, ?_⟩
  · exact run_agrees hspace.tree.aligned hspace.tree.low 0x100000 _
  · exact run_agrees htree.aligned htree.low 0x3FFFF000 _

end VmIter

/-- Its process has a stack page. -/
theorem boots_emptySegment :
    ∃ k q, Boots smallLayout (emptySegment 0x100000 0x1000) none zeroed k ∧
      ¬ OutOfPages smallLayout k ∧
      look k.mem k.cur.pagetable 0x2FF000 = .ok (q, PTE_P ||| PTE_W ||| PTE_U) := by
  obtain ⟨k, p, hboots, halone, hroom⟩ := boots_pageProgram true
  obtain ⟨q, hq, hentry⟩ := halone.stack
  refine ⟨k, q, hboots, fun hout => ?_, ?_⟩
  · rw [outOfPages_iff.mp hout] at hroom
    cases hroom
  · have hsane := hboots.sane
    have hspace := hsane.inv.spaces _ hsane.live
    have hentry : leaf k.mem (k.root k.current) (0x2FF000 / 4096) = frameEntry q true := by
      rw [halone.current]
      exact hentry
    exact look_frame hspace.tree hspace.noLarge (by decide) hq hentry

end SystemsProjects.WeensyOS
