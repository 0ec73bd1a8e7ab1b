/-
SystemsProjects.WeensyOS.Boot — the state in which `kernel_start` sets up
its first process.

`init_kernel_memory` writes seven entries of the five static page-table
pages by hand (`bootEntry`), which makes them a tree that covers the low
4 MB; its own loop and the one of `kernel_start` then set entries of pages
and nothing else.
-/
import SystemsProjects.WeensyOS.ProcessSetup

namespace SystemsProjects.WeensyOS

open SystemsProjects.Base
open SystemsProjects.Base.RadixTree

/-! ## The five static pages -/

/-- `&kernel_pagetable[n]`. -/
def staticTable (L : Layout) (n : Nat) : Nat := L.kernelPagetable + n * PAGESIZE

/-- Where the entries written by hand lead. -/
def bootChild (L : Layout) (n i : Nat) : Option Nat :=
  if n < 3 ∧ i = 0 then some (staticTable L (n + 1))
  else if n = 2 ∧ i = 1 then some (staticTable L 4)
  else none

/-- The entries written by hand: links, and the large pages of devices. -/
def bootEntry (L : Layout) (n i : Nat) : Nat :=
  if n = 1 ∧ 1 ≤ i ∧ i ≤ 3 then i * 2 ^ 30 ||| (PTE_P ||| PTE_W ||| PTE_PS)
  else match bootChild L n i with
    | some q => q ||| (PTE_P ||| PTE_W ||| PTE_U)
    | none => 0

/-- The five pages after the stores by hand. -/
def BootTable (L : Layout) (mem : ByteMem) : Prop :=
  ∀ n < 5, ∀ i < 512, entry mem (staticTable L n) i = bootEntry L n i

section

variable {L : Layout} {mem : ByteMem} {k k' : Kernel} {root va n i j e p : Nat} {it : VmIter}

theorem staticTable_aligned (L : Layout) (n : Nat) : staticTable L n % 4096 = 0 := by
  have h : L.kernelPagetable % 4096 = 0 := L.aligned
  rw [staticTable, Nat.add_mul_mod_self_right, h]

theorem staticTable_lt (hn : n < 5) : staticTable L n < L.kernelEnd := by
  have h : L.kernelPagetable + 5 * 4096 ≤ L.kernelEnd := L.pagetable_le
  show L.kernelPagetable + n * 4096 < L.kernelEnd
  omega

theorem staticTable_low (hn : n < 5) : staticTable L n < 2 ^ 20 := by
  have h := staticTable_lt (L := L) hn
  have hend : L.kernelEnd ≤ 0x7F000 := L.end_le
  omega

theorem staticTable_inj : staticTable L n = staticTable L j ↔ n = j := by
  show L.kernelPagetable + n * 4096 = L.kernelPagetable + j * 4096 ↔ n = j
  omega

theorem link_static (hn : n < 5) :
    link (staticTable L n ||| (PTE_P ||| PTE_W ||| PTE_U)) = some (staticTable L n) := by
  have hlow := staticTable_low (L := L) hn
  rw [← Nat.or_assoc, ← Nat.or_assoc]
  exact link_table (staticTable_aligned L n) (by omega)

theorem entry_setKernelEntry {m : Nat} (hi : i < 512) (hm : m < 512) (he : e < 2 ^ 64) :
    entry (setKernelEntry L n i e k).mem (staticTable L j) m =
      if j = n ∧ m = i then e else entry k.mem (staticTable L j) m := by
  show entry (k.mem.write (entryAddr (staticTable L n) i) 8 e) (staticTable L j) m = _
  by_cases hj : j = n
  · subst hj
    by_cases hmi : m = i
    · rw [if_pos ⟨rfl, hmi⟩, hmi, entry_write he]
    · rw [if_neg fun h => hmi h.2, entry_write_ne hmi]
  · rw [if_neg fun h => hj h.1]
    refine (samePage_write (staticTable_aligned L j) (staticTable_aligned L n) ?_ hi).entry hm
    rwa [Ne, staticTable_inj]

theorem bootChild_cases {q : Nat} (h : bootChild L n i = some q) :
    (n < 3 ∧ i = 0 ∧ q = staticTable L (n + 1)) ∨ (n = 2 ∧ i = 1 ∧ q = staticTable L 4) := by
  rw [bootChild] at h
  split_ifs at h with h1 h2
  · exact .inl ⟨h1.1, h1.2, (Option.some.inj h).symm⟩
  · exact .inr ⟨h2.1, h2.2, (Option.some.inj h).symm⟩

theorem bootChild_static {q : Nat} (h : bootChild L n i = some q) : ∃ m < 5,
    q = staticTable L m := by
  rcases bootChild_cases h with ⟨hn, -, rfl⟩ | ⟨-, -, rfl⟩
  · exact ⟨n + 1, by omega, rfl⟩
  · exact ⟨4, by decide, rfl⟩

theorem link_bootEntry : link (bootEntry L n i) = bootChild L n i := by
  rw [bootEntry]
  split
  · rename_i h
    have hlarge : ∀ m < 4, link (m * 2 ^ 30 ||| (PTE_P ||| PTE_W ||| PTE_PS)) = none := by decide
    rw [hlarge i (by omega), bootChild, if_neg (by omega), if_neg (by omega)]
  · cases hq : bootChild L n i with
    | none => exact link_zero
    | some q =>
      obtain ⟨m, hm, rfl⟩ := bootChild_static hq
      exact link_static hm

theorem bootEntry_low : bootEntry L n i &&& PTE_PAMASK < 2 ^ 32 := by
  rw [bootEntry]
  split
  · rename_i h
    have hlarge : ∀ m < 4, (m * 2 ^ 30 ||| (PTE_P ||| PTE_W ||| PTE_PS)) &&& PTE_PAMASK <
        2 ^ 32 := by
      decide
    exact hlarge i (by omega)
  · cases hq : bootChild L n i with
    | none => decide
    | some q =>
      obtain ⟨m, hm, rfl⟩ := bootChild_static hq
      have hlow := staticTable_low (L := L) hm
      rw [or_and_pamask (staticTable_aligned L m) (by omega) (by decide)]
      omega

theorem bootEntry_link {q : Nat} (h : bootChild L n i = some q) :
    bootEntry L n i = q ||| (PTE_P ||| PTE_W ||| PTE_U) := by
  have hcases := bootChild_cases h
  rw [bootEntry, if_neg (by omega), h]

/-- A link gives all permissions. -/
theorem bootEntry_perm {q : Nat} (h : bootChild L n i = some q) : bootEntry L n i &&& 7 = 7 := by
  obtain ⟨m, -, rfl⟩ := bootChild_static h
  rw [bootEntry_link h]
  exact or_and_perm (staticTable_aligned L m) (by decide)

/-! ## Their tree -/

theorem BootTable.child (h : BootTable L mem) (hn : n < 5) (hi : i < 512) :
    child mem (staticTable L n) i = bootChild L n i := by
  rw [WeensyOS.child, h n hn i hi, link_bootEntry]

/-- Every page-table page is one of the five. -/
theorem BootTable.node (h : BootTable L mem) {d x : Nat} (hd : d ≤ 3)
    (hp : nodeAt (WeensyOS.child mem) 512 L.kernelPagetable d x = some p) :
    (x = 0 ∧ p = staticTable L d) ∨ (d = 3 ∧ x = 1 ∧ p = staticTable L 4) := by
  induction d generalizing x p with
  | zero =>
    rw [nodeAt] at hp
    split at hp
    · rename_i hx
      refine .inl ⟨hx, ?_⟩
      rw [← Option.some.inj hp, staticTable, Nat.zero_mul, Nat.add_zero]
    · cases hp
  | succ d ih =>
    rw [nodeAt, Option.bind_eq_some_iff] at hp
    obtain ⟨q, hq, hp⟩ := hp
    have hmod : x % 512 < 512 := Nat.mod_lt _ (by decide)
    obtain ⟨hx, rfl⟩ : x / 512 = 0 ∧ q = staticTable L d := by
      rcases ih (by omega) hq with hq | ⟨rfl, -⟩
      · exact hq
      · omega
    rw [h.child (by omega) hmod] at hp
    rcases bootChild_cases hp with ⟨-, hi, rfl⟩ | ⟨rfl, hi, rfl⟩
    · exact .inl ⟨by omega, rfl⟩
    · exact .inr ⟨rfl, by omega, rfl⟩

theorem BootTable.static (h : BootTable L mem) (hp : IsTable mem L.kernelPagetable p) :
    ∃ n < 5, p = staticTable L n := by
  obtain ⟨d, hd, x, hp⟩ := hp
  rcases h.node hd hp with ⟨-, rfl⟩ | ⟨-, -, rfl⟩
  · exact ⟨d, by omega, rfl⟩
  · exact ⟨4, by decide, rfl⟩

theorem BootTable.tree (h : BootTable L mem) : Tree mem L.kernelPagetable where
  distinct := by
    intro d hd d' hd' x x' p hp hp'
    rcases h.node hd hp with ⟨hx, rfl⟩ | ⟨rfl, hx, rfl⟩ <;>
      rcases h.node hd' hp' with ⟨hx', heq⟩ | ⟨rfl, hx', heq⟩ <;>
      have hn := staticTable_inj.mp heq <;> omega
  aligned := L.aligned
  low := by
    intro p hp i hi
    obtain ⟨n, hn, rfl⟩ := h.static hp
    rw [h n hn i hi]
    exact bootEntry_low
  linkPerm := by
    intro d hd x p hp i hi q hq
    obtain ⟨n, hn, rfl⟩ := h.static ⟨d, by omega, x, hp⟩
    rw [h.child hn hi] at hq
    rw [h n hn i hi]
    exact bootEntry_perm hq

/-- The path of the pages below 2 MB. -/
theorem BootTable.node_zero (h : BootTable L mem) {d : Nat} (hd : d ≤ 3) :
    nodeAt (WeensyOS.child mem) 512 L.kernelPagetable d 0 = some (staticTable L d) := by
  induction d with
  | zero => rw [nodeAt_root, staticTable, Nat.zero_mul, Nat.add_zero]
  | succ d ih =>
    rw [nodeAt, Nat.zero_div, ih (by omega), Option.bind_some, Nat.zero_mod,
      h.child (by omega) (by decide), bootChild, if_pos ⟨by omega, rfl⟩]

/-- The table covers the addresses of processes. -/
theorem BootTable.covered (h : BootTable L mem) (hva : va < MEMSIZE_VIRTUAL) :
    VmIter.Covered mem L.kernelPagetable va := by
  have hva : va < 0x300000 := hva
  have hslot : slot 3 va = va / 2 ^ 21 := by
    show va % 2 ^ 48 / 2 ^ 21 = va / 2 ^ 21
    rw [Nat.mod_eq_of_lt (by omega)]
  by_cases hlow : va / 2 ^ 21 = 0
  · exact ⟨_, by rw [hslot, hlow]; exact h.node_zero (Nat.le_refl 3)⟩
  · refine ⟨staticTable L 4, ?_⟩
    rw [hslot, show va / 2 ^ 21 = 512 * 0 + 1 by omega, nodeAt_succ_digits (by decide),
      h.node_zero (by decide), Option.bind_some, h.child (by decide) (by decide), bootChild,
      if_neg (by omega), if_pos ⟨rfl, rfl⟩]

/-- The table as `init_kernel_memory` starts its loop. -/
def bootStores (L : Layout) (k : Kernel) : Kernel :=
  let link := PTE_P ||| PTE_W ||| PTE_U
  let large := PTE_P ||| PTE_W ||| PTE_PS
  let k := k.memset L.kernelPagetable 0 (5 * PAGESIZE)
  let k := setKernelEntry L 0 0 ((L.kernelPagetable + 1 * PAGESIZE) ||| link) k
  let k := setKernelEntry L 1 0 ((L.kernelPagetable + 2 * PAGESIZE) ||| link) k
  let k := setKernelEntry L 2 0 ((L.kernelPagetable + 3 * PAGESIZE) ||| link) k
  let k := setKernelEntry L 2 1 ((L.kernelPagetable + 4 * PAGESIZE) ||| link) k
  let k := setKernelEntry L 1 1 ((1 * 2 ^ 30) ||| large) k
  let k := setKernelEntry L 1 2 ((2 * 2 ^ 30) ||| large) k
  setKernelEntry L 1 3 ((3 * 2 ^ 30) ||| large) k

@[simp] theorem bootStores_physpages : (bootStores L k).physpages = k.physpages := rfl

@[simp] theorem bootStores_ptable : (bootStores L k).ptable = k.ptable := rfl

@[simp] theorem bootStores_current : (bootStores L k).current = k.current := rfl

theorem initKernelMemory_eq (L : Layout) (k : Kernel) :
    initKernelMemory L k = (do
      let it ← VmIter.new (bootStores L k).mem L.kernelPagetable 0
      identityLoop L (MEMSIZE_PHYSICAL / PAGESIZE + 1) it (bootStores L k)) := by
  simp only [initKernelMemory, bootStores]

theorem bootTable_stores (L : Layout) (k : Kernel) : BootTable L (bootStores L k).mem := by
  intro n hn i hi
  have hzero : entry (k.memset L.kernelPagetable 0 (5 * PAGESIZE)).mem (staticTable L n) i = 0 := by
    refine ByteMem.read_fill_zero ?_ ?_ <;> simp only [staticTable, entryAddr, PAGESIZE] <;> omega
  have hlink : ∀ m < 5,
      L.kernelPagetable + m * PAGESIZE ||| (PTE_P ||| PTE_W ||| PTE_U) < 2 ^ 64 := by
    intro m hm
    have hlow := staticTable_low (L := L) hm
    have hadd := or_eq_add (staticTable_aligned L m) (show PTE_P ||| PTE_W ||| PTE_U <
        4096 by decide)
    rw [staticTable] at hadd hlow
    rw [hadd]
    show L.kernelPagetable + m * PAGESIZE + 7 < 2 ^ 64
    omega
  simp only [bootStores]
  rw [entry_setKernelEntry (by decide) hi (by decide),
    entry_setKernelEntry (by decide) hi (by decide),
    entry_setKernelEntry (by decide) hi (by decide),
    entry_setKernelEntry (by decide) hi (hlink 4 (by decide)),
    entry_setKernelEntry (by decide) hi (hlink 3 (by decide)),
    entry_setKernelEntry (by decide) hi (hlink 2 (by decide)),
    entry_setKernelEntry (by decide) hi (hlink 1 (by decide)), hzero]
  split_ifs with h1 h2 h3 h4 h5 h6 h7
  · obtain ⟨rfl, rfl⟩ := h1
    rfl
  · obtain ⟨rfl, rfl⟩ := h2
    rfl
  · obtain ⟨rfl, rfl⟩ := h3
    rfl
  · obtain ⟨rfl, rfl⟩ := h4
    exact (bootEntry_link rfl).symm
  · obtain ⟨rfl, rfl⟩ := h5
    exact (bootEntry_link rfl).symm
  · obtain ⟨rfl, rfl⟩ := h6
    exact (bootEntry_link rfl).symm
  · obtain ⟨rfl, rfl⟩ := h7
    exact (bootEntry_link rfl).symm
  · rw [bootEntry, if_neg (by omega), bootChild, if_neg (by omega), if_neg (by omega)]

/-! ## The loops -/

/-- A page of memory as an argument of `try_map`. -/
theorem mappable_identity {perm : Nat} (hva : va % 4096 = 0) (hlow : va < MEMSIZE_PHYSICAL)
    (hperm : perm < 4096) : VmIter.Mappable va va perm := by
  have hlow : va < 0x200000 := hlow
  exact ⟨VmIter.canonical_of_lt (show va ≤ 0x300000 by omega), hva, hva, by omega, hperm⟩

theorem Updates.covered {lf : Nat → Nat} (h : Updates L k k' root [] lf)
    (hc : VmIter.Covered k.mem root va) : VmIter.Covered k'.mem root va := by
  obtain ⟨p, hp⟩ := hc
  exact ⟨p, h.grows 3 (Nat.le_refl 3) _ p hp⟩

/-- The loop of `init_kernel_memory` sets entries of pages. -/
theorem identityLoop_spec {rounds : Nat} (ht : Tree k.mem root)
    (hc : ∀ va < MEMSIZE_VIRTUAL, VmIter.Covered k.mem root va) (hva : va % 4096 = 0)
    (hle : va ≤ MEMSIZE_PHYSICAL) (hrounds : MEMSIZE_PHYSICAL - va < rounds * 4096)
    (hnew : VmIter.new k.mem root va = .ok it) :
    ∃ k' lf, identityLoop L rounds it k = .ok k' ∧ Updates L k k' root [] lf := by
  have hle' : va ≤ 0x200000 := hle
  have hrounds' : 0x200000 - va < rounds * 4096 := hrounds
  have hlow : va < MEMSIZE_VIRTUAL := show va < 0x300000 by omega
  induction rounds generalizing va it k with
  | zero => omega
  | succ rounds ih =>
    obtain ⟨d, p, hstop, hnew'⟩ := VmIter.new_spec ht (VmIter.canonical_of_lt (Nat.le_of_lt hlow))
    obtain rfl := hstop.depth_eq (hc va hlow)
    obtain rfl := Except.ok.inj (hnew.symm.trans hnew')
    rw [identityLoop, show (VmIter.iterAt root va 3 p).va_ = va from rfl]
    by_cases hlt : va < MEMSIZE_PHYSICAL
    · rw [if_pos hlt]
      have hlt' : va < 0x200000 := hlt
      have hm : VmIter.Mappable va va (PTE_P ||| PTE_W ||| PTE_U) :=
        mappable_identity hva hlt (by decide)
      -- one round, with or without a mapping
      obtain ⟨k₁, lf, hround, hup⟩ : ∃ k₁ lf,
          (∀ f : VmIter × Kernel → Except Fault Kernel,
            (if va ≠ 0 then (VmIter.iterAt root va 3 p).map L va (PTE_P ||| PTE_W ||| PTE_U) k >>= f
              else pure (VmIter.iterAt root va 3 p, k) >>= f) = f (VmIter.iterAt root va 3 p, k₁)) ∧
          Updates L k k₁ root [] lf := by
        by_cases hzero : va ≠ 0
        · have hup := updates_setLeaf (L := L) ht hstop.node (entryIndex_lt va 12) hm.entry_lt
            hm.entry_low
          refine ⟨_, _, fun f => ?_, hup⟩
          rw [if_pos hzero, VmIter.map, VmIter.tryMap_entry hm]
          rfl
        · exact ⟨k, _, fun f => by rw [if_neg hzero]; rfl, .refl ht⟩
      have hcanon : vaIsCanonical (va + 4096) = true :=
        VmIter.canonical_of_lt (show va + 4096 ≤ 0x300000 by omega)
      obtain ⟨d, q, -, hnext⟩ := VmIter.new_spec hup.tree hcanon
      have hold : VmIter.new k₁.mem root va = .ok (VmIter.iterAt root va 3 p) := by
        obtain ⟨d, r, hstop₁, hnew₁⟩ :=
          VmIter.new_spec hup.tree (VmIter.canonical_of_lt (Nat.le_of_lt hlow))
        have hback : VmIter.Stops k₁.mem root va 3 p :=
          ⟨Nat.le_refl 3, hup.grows 3 (Nat.le_refl 3) _ p hstop.node, fun h => absurd h (by decide)⟩
        obtain ⟨rfl, rfl⟩ := hback.unique hstop₁
        exact hnew₁
      have hadvance : (VmIter.iterAt root va 3 p).advance k₁.mem PAGESIZE =
          .ok (VmIter.iterAt root (va + 4096) d q) := by
        rw [VmIter.advance, show (VmIter.iterAt root va 3 p).va_ = va from rfl,
          Nat.mod_eq_of_lt (show va + 4096 < 2 ^ 64 by omega), ← hnext]
        exact VmIter.find_eq_new ht.aligned (by omega) (by omega) hold rfl
      obtain ⟨k₂, lf₂, hloop, hup₂⟩ := ih hup.tree (fun va hva => hup.covered (hc va hva))
        (by omega) (show va + 4096 ≤ 0x200000 by omega)
        (show 0x200000 - (va + 4096) < rounds * 4096 by omega) hnext (by omega) (by omega)
        (show va + 4096 < 0x300000 by omega)
      refine ⟨k₂, lf₂, ?_, hup.trans hup₂⟩
      refine (hround _).trans ?_
      simp only [hadvance, ok_bind]
      exact hloop
    · rw [if_neg hlt]
      exact ⟨k, _, rfl, .refl ht⟩

theorem kernelPagePerm_low (h : va < PROC_START_ADDR) (hne : va ≠ CONSOLE_ADDR) :
    kernelPagePerm va = PTE_P ||| PTE_W :=
  if_pos ⟨h, hne⟩

/-- The loop of `kernel_start` gives each page its entry. -/
theorem kernelPages_spec (ht : Tree k.mem L.kernelPagetable)
    (hc : ∀ va < MEMSIZE_VIRTUAL, VmIter.Covered k.mem L.kernelPagetable va) (hn : n ≤ NPAGES) :
    ∃ k' lf, (List.range n).foldlM (kernelPage L) k = .ok k' ∧
      Updates L k k' L.kernelPagetable [] lf ∧
      ∀ vpn < n, lf vpn = vpn * PAGESIZE ||| kernelPagePerm (vpn * PAGESIZE) := by
  induction n with
  | zero => exact ⟨k, _, rfl, .refl ht, fun vpn hvpn => absurd hvpn (Nat.not_lt_zero vpn)⟩
  | succ n ih =>
    have hn : n + 1 ≤ 512 := hn
    obtain ⟨k₁, lf, hrun, hup, hset⟩ := ih (show n ≤ 512 by omega)
    have hlow : n * 4096 < MEMSIZE_VIRTUAL := show n * 4096 < 0x300000 by omega
    have hperm : kernelPagePerm (n * PAGESIZE) < 4096 := by
      rw [kernelPagePerm]
      split_ifs <;> decide
    have hm : VmIter.Mappable (n * PAGESIZE) (n * PAGESIZE) (kernelPagePerm (n * PAGESIZE)) :=
      mappable_identity (Nat.mul_mod_left n 4096) (show n * 4096 < 0x200000 by omega) hperm
    obtain ⟨k₂, htry, hup₂⟩ := tryMapAt_covered (L := L) hm hup.tree (hup.covered (hc _ hlow))
    rw [slot_page hlow, Nat.mul_div_cancel n (by decide), funext hup.leaf] at hup₂
    refine ⟨k₂, _, ?_, hup.trans hup₂, fun vpn hvpn => ?_⟩
    · rw [List.range_succ, List.foldlM_append, hrun]
      simp only [ok_bind, List.foldlM_cons, List.foldlM_nil, kernelPage, htry]
      rfl
    · rw [Function.update_apply]
      split
      · rename_i heq
        rw [heq]
      · exact hset vpn (by omega)

/-! ## The booted kernel -/

/-- `kernel_start` before its first `process_setup`. -/
def bootKernel (L : Layout) (mem : ByteMem) : Except Fault Kernel := do
  let k ← initKernelMemory L (initialKernel mem)
  (List.range NPAGES).foldlM (kernelPage L) k

/-- A kernel with its page table set up, no page in use and no process. -/
structure Booted (L : Layout) (k : Kernel) : Prop where
  table : KernelTable L k.mem
  refs : ∀ p, p % 4096 = 0 → k.refs p = 0
  ptable : ∀ i, k.ptable i = { pagetable := 0, pid := i, state := .free, regs := RegState.zero }
  current : k.current = 0

/-- The two loops give entries to the five static pages, and the page at
each address of physical memory its own entry. -/
theorem bootKernel_maps (L : Layout) (mem : ByteMem) :
    ∃ k lf, bootKernel L mem = .ok k ∧
      Updates L (bootStores L (initialKernel mem)) k L.kernelPagetable [] lf ∧
      ∀ vpn < NPAGES, lf vpn = vpn * PAGESIZE ||| kernelPagePerm (vpn * PAGESIZE) := by
  have hboot := bootTable_stores L (initialKernel mem)
  obtain ⟨d, p, -, hnew⟩ := VmIter.new_spec hboot.tree (VmIter.canonical_of_lt (Nat.zero_le _))
  obtain ⟨k₁, lf₁, hinit, hup₁⟩ := identityLoop_spec (L := L) hboot.tree
    (fun va hva => hboot.covered hva) rfl (Nat.zero_le _)
    (show MEMSIZE_PHYSICAL - 0 < (MEMSIZE_PHYSICAL / PAGESIZE + 1) * 4096 by decide) hnew
  obtain ⟨k₂, lf₂, hpages, hup₂, hset⟩ := kernelPages_spec hup₁.tree
    (fun va hva => hup₁.covered (hboot.covered hva)) (Nat.le_refl NPAGES)
  refine ⟨k₂, lf₂, ?_, hup₁.trans hup₂, hset⟩
  rw [bootKernel, initKernelMemory_eq, hnew]
  simp only [ok_bind, hinit]
  exact hpages

/-- **The kernel boots**, whatever memory holds. -/
theorem bootKernel_spec (L : Layout) (mem : ByteMem) :
    ∃ k, bootKernel L mem = .ok k ∧ Booted L k := by
  have hboot := bootTable_stores L (initialKernel mem)
  obtain ⟨k, lf, hrun, hup, hset⟩ := bootKernel_maps L mem
  refine ⟨k, hrun, ?_, ?_, ?_, ?_⟩
  · refine ⟨hup.tree, fun va hva => hup.covered (hboot.covered hva), fun p hp => ?_,
      fun vpn h1 h2 => ?_⟩
    · obtain ⟨n, hn, rfl⟩ := hboot.static (((hup.tables p).mp hp).resolve_right (List.not_mem_nil))
      exact ⟨Nat.le_add_right _ _, staticTable_lt hn⟩
    · have h1' : 0x40 ≤ vpn := h1
      have h2' : vpn < 0x80 := h2
      rw [hup.leaf, hset vpn (show vpn < 512 by omega), kernelEntry_kernel h1 h2,
        kernelPagePerm_low (show vpn * 4096 < 0x100000 by omega)
          (show vpn * 4096 ≠ 0xB8000 by omega)]
  · intro p hp
    rw [hup.taken.refs p hp, if_neg List.not_mem_nil, Kernel.refs, bootStores_physpages]
    rfl
  · intro i
    rw [hup.ptable, bootStores_ptable]
    rfl
  · rw [hup.current, bootStores_current]
    rfl

/-- Every page is free. -/
theorem Booted.freePages (h : Booted L k) : freePages L k = freePages L (initialKernel zeroed) := by
  refine List.filter_congr fun p hp => decide_eq_decide.mpr (and_congr_right fun hpage => ?_)
  rw [h.refs p hpage.aligned]
  exact iff_of_true rfl rfl

theorem kernelStart_eq (P : Programs) (command : Option String) (mem : ByteMem) :
    kernelStart L P command mem = (do
      let k ← bootKernel L mem
      let command := command.getD P.firstProcess
      let k ←
        if ¬ P.isEmpty command = true then processSetup L P 1 command k
        else do
          let k ← processSetup L P 1 "allocator" k
          let k ← processSetup L P 2 "allocator2" k
          let k ← processSetup L P 3 "allocator3" k
          processSetup L P 4 "allocator4" k
      run 1 k) := by
  simp only [bootKernel, kernelStart, bind_assoc]

end

end SystemsProjects.WeensyOS
