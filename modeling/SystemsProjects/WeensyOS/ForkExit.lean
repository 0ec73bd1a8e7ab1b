/-
SystemsProjects.WeensyOS.ForkExit — a child that exits gives everything
back.

From the `fork` on, a reference is either one of before, or the child's
table holds it: this is so for the new table, `PAGE_ALLOC` raises both
sides alike, and `free_pagetable` gives back just what the table holds
(`Since`). What the child replaces by `PAGE_ALLOC` is lost to both sides,
and stays counted.
-/
import SystemsProjects.WeensyOS.ForkResult

namespace SystemsProjects.WeensyOS

open SystemsProjects.Base
open SystemsProjects.Base.RadixTree

/-- Since `k₀` only the child in slot `c` has changed tables and counts; of
its pages it has lost the references `lost`. -/
structure Since (L : Layout) (k₀ k : Kernel) (c : Nat) (lost : Nat → Nat) : Prop where
  refs : ∀ p, p % 4096 = 0 → k.refs p = k₀.refs p + holds k.mem (k.root c) p + lost p
  tables : ∀ p, IsTable k.mem (k.root c) p → Free L k₀ p
  mem : ∀ p, p % 4096 = 0 → ¬ Free L k₀ p → SamePage k₀.mem k.mem p
  roots : ∀ i ≠ c, k.root i = k₀.root i
  live : ∀ i ≠ c, (Live k i ↔ Live k₀ i)

/-- A call, interrupt or fault with which a process only leaves the
processor to another. -/
def Idle : Event → Prop
  | .syscall regs => regs.rax = SYSCALL_YIELD
  | .exception _ => True
  | .store _ _ => False

/-- While the child in slot `c` lives it allocates pages, and all processes
are scheduled. -/
inductive ChildRuns (L : Layout) (c : Nat) : Kernel → Kernel → Prop where
  | start {k : Kernel} : ChildRuns L c k k
  | idle {k k' k'' : Kernel} {e : Event} (h : ChildRuns L c k k') (hidle : Idle e)
      (hstep : step L e k' = .ok k'') : ChildRuns L c k k''
  | alloc {k k' k'' : Kernel} {regs : RegState} (h : ChildRuns L c k k') (hcur : k'.current = c)
      (hcall : regs.rax = SYSCALL_PAGE_ALLOC) (hfresh : FreshAllocs k' (.syscall regs))
      (hstep : step L (.syscall regs) k' = .ok k'') : ChildRuns L c k k''

section

variable {L : Layout} {P : Programs} {command : Option String} {mem : ByteMem}
  {k₀ k k' k'' : Kernel} {c pid pt p q va : Nat} {lf lost : Nat → Nat} {regs regs' : RegState}

theorem Forking.since (h : Forking L k₀ k pt 0x300 lf) (hs : CanFork L k₀) (hstack : Stacked L k₀) :
    Since L k₀ (k.setProc pid (childProc k₀ pt pid)) pid fun _ => 0 where
  refs := by
    intro p hp
    rw [setProc_refs, setProc_mem, setProc_root, Nat.add_zero]
    exact (h.ready hs hstack).refs_eq hp
  tables := by
    intro p hp
    rw [setProc_mem, setProc_root] at hp
    exact h.building.tables p hp
  mem := fun p hp hused => h.building.mem p hp fun hfree => absurd hfree hused
  roots := fun i hne => by rw [Kernel.root, h.slots hne, Kernel.root]
  live := fun i hne => by rw [Live, h.slots hne, Live]

theorem Since.free_of (h : Since L k₀ k c lost) (hq : Free L k q) : Free L k₀ q := by
  have hrefs := h.refs q hq.1.aligned
  rw [hq.2] at hrefs
  exact ⟨hq.1, by omega⟩

/-- Registers and scheduling. -/
theorem Since.alike (h : Since L k₀ k c lost) (halike : Alike k k') : Since L k₀ k' c lost where
  refs := by
    intro p hp
    rw [halike.refs, halike.mem, halike.root]
    exact h.refs p hp
  tables := by
    rw [halike.mem, halike.root]
    exact h.tables
  mem := by
    rw [halike.mem]
    exact h.mem
  roots := fun i hne => (halike.root i).trans (h.roots i hne)
  live := fun i hne => (halike.live i).trans (h.live i hne)

/-- A page allocated, and one replaced. -/
theorem Since.alloc (h : Since L k₀ k c lost) (hcur : k.current = c) (hva : ValidAddr va)
    (hall : Allocated L k k' va q) :
    Since L k₀ k' c fun p => lost p + frameRef (va / 4096)
    (leaf k.mem (k.root c) (va / 4096)) p := by
  subst hcur
  have hq := hall.taken.free q (List.mem_singleton_self q)
  refine ⟨fun p hp => ?_, fun p hp => ?_, fun p hp hused => ?_, fun i hne => ?_, fun i hne => ?_⟩
  · have hrefs := h.refs p hp
    have hholds := hall.holds hva p
    rw [hall.refs hp, hall.root]
    omega
  · rw [hall.root] at hp
    exact h.tables p ((hall.tables p).mp hp)
  · refine (h.mem p hp hused).trans (hall.mem p hp ?_ fun ht => hused (h.tables p ht))
    rintro rfl
    exact hused (h.free_of hq)
  · rw [hall.root]
    exact h.roots i hne
  · rw [hall.live]
    exact h.live i hne

/-- After the exit the counts are those of before, and what was lost. -/
theorem Since.exit (h : Since L k₀ k c lost) (hcur : k.current = c) (hexit : Exited L k k') :
    (k'.ptable c).state = .free ∧ (∀ p, p % 4096 = 0 → k'.refs p = k₀.refs p + lost p) ∧
      (∀ i ≠ c, k'.root i = k₀.root i ∧ (Live k' i ↔ Live k₀ i)) ∧
      ∀ p, p % 4096 = 0 → ¬ Free L k₀ p → SamePage k₀.mem k'.mem p := by
  subst hcur
  have hslot : ∀ i ≠ k.current, k'.ptable i = k.ptable i := fun i hne => by
    rw [hexit.ptable, Function.update_of_ne hne]
  refine ⟨by rw [hexit.ptable, Function.update_self], fun p hp => ?_, fun i hne => ⟨?_, ?_⟩,
    fun p hp hused => ?_⟩
  · have hrefs := h.refs p hp
    rw [hexit.refs p hp]
    omega
  · rw [Kernel.root, hslot i hne]
    exact h.roots i hne
  · rw [Live, hslot i hne]
    exact h.live i hne
  · rw [hexit.mem]
    exact h.mem p hp hused

/-! ## The child's run -/

theorem step_idle {e : Event} (hs : Steady L k) (hidle : Idle e) (h : step L e k = .ok k') :
    Alike k k' ∧ Live k' k'.current := by
  cases e with
  | store va byte => exact hidle.elim
  | exception regs =>
    have h : exception regs k = .ok k' := h
    rw [exception] at h
    simp only [] at h
    have halike := saveRegs_alike regs k
    split at h
    · obtain ⟨hsched, hlive⟩ := schedule_alike h
      exact ⟨halike.trans hsched, hlive⟩
    · split at h
      · obtain ⟨hsched, hlive⟩ := schedule_alike h
        exact ⟨(halike.trans (faulted_alike (hs.saveRegs regs).live)).trans hsched, hlive⟩
      · cases h
  | syscall regs =>
    have hidle : regs.rax = SYSCALL_YIELD := hidle
    rw [step_yield hidle] at h
    obtain ⟨hsched, hlive⟩ := schedule_alike h
    exact ⟨((saveRegs_alike regs k).trans (saveRegs_alike _ _)).trans hsched, hlive⟩

/-- One `PAGE_ALLOC` of the running process. -/
theorem step_alloc (hs : Steady L k) (hcall : regs.rax = SYSCALL_PAGE_ALLOC)
    (hva : ValidAddr regs.rdi) (h : step L (.syscall regs) k = .ok k') :
    k' = saveRegs regs k ∨ ∃ q, Allocated L (saveRegs regs k) k' regs.rdi q := by
  have hs₁ := hs.saveRegs regs
  rw [step_pageAlloc hcall] at h
  rcases syscallPageAlloc_spec hs₁.inv hs₁.live hva with ⟨hrun, -⟩ | ⟨k₂, q, hrun, hall⟩
  · rw [hrun] at h
    cases h
    exact .inl rfl
  · rw [hrun] at h
    cases h
    exact .inr ⟨q, hall⟩

/-- Where the process has no page, none is replaced. -/
theorem AllocFresh.frameRef_eq_zero (hfresh : AllocFresh k (.syscall regs)) (hs : Steady L k)
    (hcall : regs.rax = SYSCALL_PAGE_ALLOC) (hva : ValidAddr regs.rdi) :
    frameRef (regs.rdi / 4096) (leaf k.mem (k.root k.current) (regs.rdi / 4096)) p = 0 := by
  have hview : userPage k.mem (k.root k.current) regs.rdi = none := hfresh hcall
  rw [(hs.inv.spaces _ hs.live).userPage_low hva.aligned hva.high, entryPage] at hview
  refine frameRef_of_not_user fun huser => ?_
  rw [if_pos huser] at hview
  cases hview

theorem Steady.allocated (hs : Steady L k) (hva : ValidAddr va) (h : Allocated L k k' va q) :
    Steady L k' where
  inv := h.inv hs.inv hs.live hva
  live := by
    rw [h.current]
    exact (h.live _).mpr hs.live
  stack := h.stacked hs

theorem ChildRuns.since (h : ChildRuns L c k k') (hstart : Since L k₀ k c fun _ => 0)
    (hs : Steady L k) : Since L k₀ k' c (fun _ => 0) ∧ Steady L k' := by
  induction h with
  | start => exact ⟨hstart, hs⟩
  | idle _ hidle hstep ih =>
    obtain ⟨hsince, hs'⟩ := ih
    obtain ⟨halike, hlive⟩ := step_idle hs' hidle hstep
    exact ⟨hsince.alike halike, halike.steady hlive hs'.inv hs'.stack⟩
  | @alloc k' k'' regs _ hcur hcall hfresh hstep ih =>
    obtain ⟨hsince, hs'⟩ := ih
    have hva : ValidAddr regs.rdi := hfresh.1 hcall
    have halike := saveRegs_alike regs k'
    have hsince₁ := hsince.alike halike
    have hs₁ := hs'.saveRegs regs
    have hcur₁ : (saveRegs regs k').current = c := hcur
    rcases step_alloc hs' hcall hva hstep with rfl | ⟨q, hall⟩
    · exact ⟨hsince₁, hs₁⟩
    · have hafter := hsince₁.alloc hcur₁ hva hall
      have hnone := fun p => (hfresh.2.congr halike rfl).frameRef_eq_zero (p := p) hs₁ hcall hva
      rw [hcur₁] at hnone
      simp only [hnone, Nat.add_zero] at hafter
      exact ⟨hafter, hs₁.allocated hva hall⟩

/-- **`fork` and the child's `exit`** restore every count: whatever pages
the child allocates in between, each where it has none. -/
theorem fork_exit_restores (h : Reaches L P command mem FreshAllocs k)
    (hfork : syscallFork L (saveRegs regs k) = .ok ((c : Int), k')) (hc : 0 < c)
    (hruns : ChildRuns L c k' k'') (hcur : k''.current = c) :
    ∃ k₃, syscallExit L (saveRegs regs' k'') = .ok k₃ ∧ (k₃.ptable c).state = .free ∧
      (∀ n, k₃.physpages n = k.physpages n) ∧
      ∀ i ≠ c, (Live k₃ i ↔ Live k i) ∧ (Live k i → SameMemory k k₃ i) := by
  have hsane := h.sane
  have hs := hsane.steady.saveRegs regs
  have halike := saveRegs_alike regs k
  have hcan := hsane.canFork regs
  rcases syscallFork_cases hcan with
    ⟨hfail, -⟩ | ⟨k₂, hfail, -⟩ | ⟨pid, pt, k₁, lf, hsuccess, hslot, hforking⟩
  · rw [hfail] at hfork
    cases hfork
  · rw [hfail] at hfork
    cases hfork
  · rw [hsuccess] at hfork
    obtain ⟨hpid, rfl⟩ : pid = c ∧ _ = k' := by
      have heq := Prod.mk.inj (Except.ok.inj hfork)
      exact ⟨Int.ofNat.inj heq.1, heq.2⟩
    subst hpid
    obtain ⟨hsince, hs'⟩ := hruns.since (hforking.since hcan hs.stack)
      (hforking.steady hcan hs.stack hslot)
    obtain ⟨k₃, hexit, hexited⟩ := syscallExit_spec (hs'.saveRegs regs')
    obtain ⟨hstate, hrefs, hslots, hmem⟩ :=
      (hsince.alike (saveRegs_alike regs' k'')).exit hcur hexited
    refine ⟨k₃, hexit, hstate, fun n => ?_, fun i hne => ⟨?_, fun hlive => ?_⟩⟩
    · have hcount := hrefs (n * 4096) (Nat.mul_mod_left n 4096)
      rw [halike.refs, Kernel.refs, Kernel.refs, Nat.mul_div_cancel n (by decide)] at hcount
      exact hcount
    · exact (hslots i hne).2.trans (halike.live i)
    · have hroot : k₃.root i = k.root i := (hslots i hne).1.trans (halike.root i)
      refine hsane.inv.sameMemory hlive hroot fun p hp hused => hmem p hp fun hfree => hused ?_
      exact ⟨hfree.1, by rw [← halike.refs]; exact hfree.2⟩

theorem fork_exit_restores_booted :
    ∃ k k' k'', kernelStart smallLayout (pageProgram true) none zeroed = .ok k ∧
      syscallFork smallLayout (saveRegs (callRegs SYSCALL_FORK 0) k) = .ok ((2 : Nat), k') ∧
      step smallLayout (.syscall (callRegs SYSCALL_YIELD 0)) k' = .ok k'' ∧
      ∃ k₃, syscallExit smallLayout (saveRegs (callRegs SYSCALL_EXIT 0) k'') = .ok k₃ ∧
        (k₃.ptable 2).state = .free ∧ (∀ n, k₃.physpages n = k.physpages n) ∧
        ∀ i ≠ 2, (Live k₃ i ↔ Live k i) ∧ (Live k i → SameMemory k k₃ i) := by
  obtain ⟨k, p, hboots, halone, hroom⟩ := boots_pageProgram true
  have hsane := hboots.sane
  have hcount : k.refs p < 255 :=
    Nat.lt_of_le_of_lt (hsane.refs_le halone.page.1.aligned) (by decide)
  obtain ⟨-, pt, k₁, lf, hfork, hforking⟩ :=
    halone.fork hsane.steady hcount (Nat.le_trans (by decide) hroom) (callRegs SYSCALL_FORK 0)
  have hcur : k₁.current = 1 := hforking.building.current.trans halone.current
  obtain ⟨k'', hyield, -, hcur''⟩ := (halone.paired hforking).yield (L := smallLayout) hcur
  have hruns : ChildRuns smallLayout 2 _ k'' :=
    .idle .start (e := .syscall (callRegs SYSCALL_YIELD 0)) rfl hyield
  exact ⟨k, _, k'', hboots.kernelStart, hfork, hyield,
    fork_exit_restores (.boot hboots) hfork (by decide) hruns hcur''⟩

end

end SystemsProjects.WeensyOS
