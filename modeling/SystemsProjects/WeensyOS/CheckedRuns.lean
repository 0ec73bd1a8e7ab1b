/-
SystemsProjects.WeensyOS.CheckedRuns — the kernel with its check of page
tables.

Each time it resumes a process, `run` calls `check_pagetable`, which
panics if the process's page table does not map the kernel, or the kernel
does not map the page table. The steps of `Kernel` leave the check out;
`stepWith` takes `run` as a parameter, and with the check in it a step of
a running kernel comes out the same (`checks_pass`). The other checks of
`run`, of the process's registers, are in both and may fail: a process
may yield with any stack pointer.
-/
import SystemsProjects.WeensyOS.Alone
import SystemsProjects.WeensyOS.KernelImage

namespace SystemsProjects.WeensyOS

open SystemsProjects.Base
open SystemsProjects.Base.RadixTree

/-! ## The check -/

/-- An address in the kernel's image, where the linker puts the kernel's
code. -/
def ImageAddr (L : Layout) : Type := { a : Nat // KERNEL_START_ADDR ≤ a ∧ a < L.kernelEnd }

section

variable (L : Layout) (exception_entry : ImageAddr L)

/-- `check_pagetable`. -/
def checkPagetable (pagetable : Nat) (k : Kernel) : Except Fault Unit := do
  assert (pagetable % PAGESIZE = 0)
  let it ← VmIter.new k.mem pagetable exception_entry.val
  assert (it.pa k.mem = exception_entry.val)
  let it ← VmIter.new k.mem L.kernelPagetable pagetable
  assert (it.pa k.mem = pagetable)
  let it ← VmIter.new k.mem pagetable L.kernelPagetable
  assert (it.pa k.mem = L.kernelPagetable)

/-- `run`, with its checks of the registers and of the page table. -/
def runChecked (pid : Nat) (k : Kernel) : Except Fault Kernel := do
  let p := k.ptable pid
  assert (p.state = .runnable)
  assert (p.regs.rsp ≥ PROC_START_ADDR)
  assert (p.regs.rsp ≤ MEMSIZE_VIRTUAL)
  assert (p.regs.cs &&& 3 = 3)
  checkPagetable L exception_entry p.pagetable k
  return { k with current := pid }

end

/-! ## Steps over a given `run` -/

section

variable (L : Layout) (run : Nat → Kernel → Except Fault Kernel)

/-- `schedule`. -/
def scheduleWith (k : Kernel) : Except Fault Kernel :=
  match ((List.range PID_MAX).map fun i => (k.cur.pid + 1 + i) % PID_MAX).find?
      fun pid => (k.ptable pid).state = .runnable with
  | none => .error .diverged
  | some pid => run pid k

/-- `syscall`. -/
def syscallWith (regs : RegState) (k : Kernel) : Except Fault (Option Nat × Kernel) := do
  let k := saveRegs regs k
  if regs.rax = SYSCALL_GETPID then
    return (some k.cur.pid, k)
  else if regs.rax = SYSCALL_YIELD then
    let k ← scheduleWith run (saveRegs { regs with rax := 0 } k)
    return (none, k)
  else if regs.rax = SYSCALL_PAGE_ALLOC then
    let (r, k) ← syscallPageAlloc L k.cur.regs.rdi k
    return (some (toUintptr r), k)
  else if regs.rax = SYSCALL_FORK then
    let (r, k) ← syscallFork L k
    return (some (toUintptr r), k)
  else if regs.rax = SYSCALL_EXIT then
    let k ← syscallExit L k
    let k ← scheduleWith run k
    return (none, k)
  else .error .panic

/-- `exception`. -/
def exceptionWith (regs : RegState) (k : Kernel) : Except Fault Kernel :=
  let k := saveRegs regs k
  if regs.intno = INT_TIMER then scheduleWith run k
  else if regs.intno = INT_PF ∧ regs.errcode &&& PTE_U ≠ 0 then
    scheduleWith run
      { k with ptable := Function.update k.ptable k.current { k.cur with state := .faulted } }
  else .error .panic

/-- One step. -/
def stepWith (e : Event) (k : Kernel) : Except Fault Kernel :=
  match e with
  | .store va byte => userStore va byte k
  | .syscall regs => do
    let (_, k) ← syscallWith L run regs k
    return k
  | .exception regs => exceptionWith run regs k

end

section

variable {L : Layout} {P : Programs} {command : Option String} {mem : ByteMem}
  {exception_entry : ImageAddr L} {k k' : Kernel} {e : Event} {pid root va perm : Nat}
  {it : VmIter}

/-- The steps of the model without the check. -/
theorem stepWith_run (L : Layout) (e : Event) (k : Kernel) :
    stepWith L WeensyOS.run e k = step L e k := by
  cases e <;> rfl

/-! ## What the check sees -/

/-- An iterator over an identity mapping. -/
theorem sees_identity (hsees : VmIter.Sees mem root va it) (hlow : va < MEMSIZE_VIRTUAL)
    (hleaf : leaf mem root (va / 4096) = va / 4096 * PAGESIZE ||| perm) (hperm : perm < 4096)
    (hpresent : perm &&& PTE_P ≠ 0) : it.pa mem = va := by
  have hlow' : va < 0x300000 := hlow
  have hal : va / 4096 * PAGESIZE % 4096 = 0 := Nat.mul_mod_left _ 4096
  have hsmall : va / 4096 * PAGESIZE < 2 ^ 52 := by
    show va / 4096 * 4096 < 2 ^ 52
    omega
  rw [hsees.pa_eq (by rwa [slot_page hlow, hleaf, or_and_perm hal (by decide)]), slot_page hlow,
    hleaf, or_and_pamask hal hsmall hperm]
  show va / 4096 * 4096 + va % 4096 = va
  omega

/-- A process's page table maps the kernel's image. -/
theorem Space.sees_image (h : Space L k.mem root) (h1 : KERNEL_START_ADDR ≤ va)
    (h2 : va < L.kernelEnd) :
    ∃ it, VmIter.new k.mem root va = .ok it ∧ it.pa k.mem = va := by
  have h1 : 0x40000 ≤ va := h1
  have hend : L.kernelEnd ≤ 0x7F000 := L.end_le
  have hlow : va < MEMSIZE_VIRTUAL := show va < 0x300000 by omega
  have hvpn : 0x40 ≤ va / 4096 ∧ va / 4096 < 0x80 := by omega
  have hentry : leaf k.mem root (va / 4096) = kernelEntry (va / 4096) := by
    refine (h.entries (va / 4096)).resolve_right fun huser => ?_
    have h3 : 0x100 ≤ va / 4096 := huser.1.1
    omega
  rw [kernelEntry_kernel hvpn.1 hvpn.2] at hentry
  obtain ⟨it, hnew, hsees⟩ :=
    VmIter.new_sees h.tree (.inl h.noLarge) (VmIter.canonical_of_lt (Nat.le_of_lt hlow))
  exact ⟨it, hnew, sees_identity hsees hlow hentry (by decide) (by decide)⟩

/-- The kernel's page table maps every physical page but the first. -/
theorem KernelMap.sees_page (h : KernelMap L k.mem) (hva : PAGESIZE ≤ va)
    (hlow : va < MEMSIZE_PHYSICAL) :
    ∃ it, VmIter.new k.mem L.kernelPagetable va = .ok it ∧ it.pa k.mem = va := by
  have hva : 4096 ≤ va := hva
  have hlow : va < 0x200000 := hlow
  have hlow' : va < MEMSIZE_VIRTUAL := show va < 0x300000 by omega
  have hne : va / 4096 * PAGESIZE ≠ 0 := show va / 4096 * 4096 ≠ 0 by omega
  have hperm : kernelPagePerm (va / 4096 * PAGESIZE) < 4096 ∧
      kernelPagePerm (va / 4096 * PAGESIZE) &&& PTE_P ≠ 0 := by
    rw [kernelPagePerm, if_neg hne]
    split_ifs <;> decide
  obtain ⟨it, hnew, hsees⟩ := VmIter.new_sees h.tree (.inr (h.covered va hlow'))
    (VmIter.canonical_of_lt (Nat.le_of_lt hlow'))
  have hentry := h.identity (va / 4096) (show va / 4096 < 512 by omega)
  exact ⟨it, hnew, sees_identity hsees hlow' hentry hperm.1 hperm.2⟩

theorem assert_true {c : Prop} [Decidable c] (h : c) : WeensyOS.assert c = .ok () := if_pos h

/-- **`check_pagetable`** passes for every process. -/
theorem Housed.check (h : Housed L k) (hinv : Inv L k) (hlive : Live k pid) :
    checkPagetable L exception_entry (k.root pid) k = .ok () := by
  have hspace := hinv.spaces pid hlive
  have hroot := hspace.tables _ isNode_root
  have hb := hroot.bounds
  have hend : L.kernelPagetable + 5 * 4096 ≤ L.kernelEnd := L.pagetable_le
  obtain ⟨it₁, hnew₁, hpa₁⟩ := hspace.sees_image exception_entry.2.1 exception_entry.2.2
  obtain ⟨it₂, hnew₂, hpa₂⟩ := h.kernel.sees_page hb.1 hb.2.1
  have hin : L.kernelPagetable < L.kernelEnd := by omega
  obtain ⟨it₃, hnew₃, hpa₃⟩ := hspace.sees_image L.start_le hin
  rw [checkPagetable, assert_true (show k.root pid % PAGESIZE = 0 from hroot.aligned)]
  simp only [ok_bind, hnew₁, hnew₂, hnew₃, assert_true hpa₁, assert_true hpa₂, assert_true hpa₃]

/-! ## Steps with the check -/

/-- The check comes after the others. -/
theorem runChecked_eq (exception_entry : ImageAddr L) (pid : Nat) (k : Kernel) :
    runChecked L exception_entry pid k = (do
      let k' ← WeensyOS.run pid k
      checkPagetable L exception_entry (k.root pid) k
      return k') := by
  rw [runChecked, WeensyOS.run]
  simp only [bind_assoc, pure_bind]

/-- Where the next process passes the check, `schedule` goes on as
without. -/
theorem schedule_checked (h : ∀ k', schedule k = .ok k' → Inv L k' ∧ Housed L k') :
    scheduleWith (runChecked L exception_entry) k = schedule k := by
  rw [schedule] at h ⊢
  rw [scheduleWith]
  generalize hpid : List.find? _ _ = next at h ⊢
  cases next with
  | none => rfl
  | some pid =>
    show runChecked L exception_entry pid k = WeensyOS.run pid k
    rw [runChecked_eq]
    cases hrun : WeensyOS.run pid k with
    | error f => rfl
    | ok k' =>
      obtain ⟨hinv, hhoused⟩ := h k' hrun
      obtain ⟨hstate, rfl⟩ := run_eq_ok hrun
      have hlive : Live { k with current := pid } pid := by
        obtain ⟨i, -, hi⟩ := List.mem_map.mp (List.mem_of_find?_eq_some hpid)
        refine ⟨hi ▸ Nat.mod_lt _ (by decide), ?_⟩
        show (k.ptable pid).state ≠ .free
        rw [hstate]
        exact fun h => by cases h
      have hcheck : checkPagetable L exception_entry (k.root pid) k = .ok () :=
        hhoused.check hinv hlive
      rw [ok_bind, hcheck]
      rfl

/-- **`check_pagetable` never fails.** In a running kernel every process
passes it, so a step whose `run` makes the check comes out, result or
fault, as the step without. -/
theorem checks_pass (exception_entry : ImageAddr L)
    (h : Reaches L P command mem (CountedForks 255) k) :
    (∀ pid, Live k pid → checkPagetable L exception_entry (k.root pid) k = .ok ()) ∧
      ∀ e, CountedForks 255 k e →
        stepWith L (runChecked L exception_entry) e k = step L e k := by
  refine ⟨fun pid hlive => h.housed.check h.steady.inv hlive, fun e hok => ?_⟩
  have hnext : ∀ k', step L e k = .ok k' → Inv L k' ∧ Housed L k' := fun k' hstep =>
    have hreach := Reaches.step h hok hstep
    ⟨hreach.steady.inv, hreach.housed⟩
  cases e with
  | store va byte => rfl
  | exception regs =>
    have hnext : ∀ k', exception regs k = .ok k' → Inv L k' ∧ Housed L k' := hnext
    show exceptionWith (runChecked L exception_entry) regs k = exception regs k
    rw [exceptionWith, exception]
    rw [exception] at hnext
    simp only [] at hnext ⊢
    split
    · rename_i htimer
      rw [if_pos htimer] at hnext
      exact schedule_checked hnext
    · rename_i htimer
      rw [if_neg htimer] at hnext
      split
      · rename_i hfault
        rw [if_pos hfault] at hnext
        exact schedule_checked hnext
      · rfl
  | syscall regs =>
    by_cases hyield : regs.rax = SYSCALL_YIELD
    · rw [step_yield hyield] at hnext ⊢
      rw [stepWith, syscallWith]
      simp only [hyield, schedule_checked hnext]
      cases schedule (saveRegs { regs with rax := 0 } (saveRegs regs k)) <;> rfl
    by_cases hexit : regs.rax = SYSCALL_EXIT
    · rw [step_exit hexit] at hnext ⊢
      rw [stepWith, syscallWith]
      simp only [hexit]
      cases hrun : syscallExit L (saveRegs regs k) with
      | error f => rfl
      | ok k₁ =>
        rw [hrun] at hnext
        have hsched : scheduleWith (runChecked L exception_entry) k₁ = schedule k₁ :=
          schedule_checked hnext
        simp only [ok_bind, hsched]
        cases schedule k₁ <;> rfl
    -- the other calls do not schedule
    rw [stepWith, step, syscallWith, syscall]
    simp only [if_neg hyield, if_neg hexit]

/-- A child of the one process is resumed, by a kernel with the checks. -/
theorem checks_pass_child :
    ∃ k k₁ k₂, Boots smallLayout (pageProgram true) none zeroed k ∧
      step smallLayout (.syscall (callRegs SYSCALL_FORK 0)) k = .ok k₁ ∧
      stepWith smallLayout (runChecked smallLayout ⟨0x40000, by decide⟩)
        (.syscall (callRegs SYSCALL_YIELD 0)) k₁ = .ok k₂ ∧
      k₂.current = 2 ∧
      ∀ pid, Live k₂ pid →
        checkPagetable smallLayout ⟨0x40000, by decide⟩ (k₂.root pid) k₂ = .ok () := by
  obtain ⟨k, p, hboots, halone, hroom⟩ := boots_pageProgram true
  have hsane := hboots.sane
  have hcount : k.refs p < 255 :=
    Nat.lt_of_le_of_lt (hsane.refs_le halone.page.1.aligned) (by decide)
  obtain ⟨-, pt, k₁, lf, hfork, hforking⟩ :=
    halone.fork hsane.steady hcount (Nat.le_trans (by decide) hroom) (callRegs SYSCALL_FORK 0)
  have hcur : k₁.current = 1 := hforking.building.current.trans halone.current
  obtain ⟨k₂, hyield, -, hcur₂⟩ := (halone.paired hforking).yield (L := smallLayout) hcur
  have hcounted : CountedForks 255 k (.syscall (callRegs SYSCALL_FORK 0)) :=
    ⟨fun hcall => absurd hcall (by decide), fun _ => .inr hsane.sharesBelow⟩
  have hreach₁ : Reaches smallLayout (pageProgram true) none zeroed (CountedForks 255) _ :=
    (Reaches.boot hboots).step hcounted (by rw [step_fork rfl, hfork]; rfl)
  have hcounted₁ : ∀ k', CountedForks 255 k' (.syscall (callRegs SYSCALL_YIELD 0)) := fun _ =>
    ⟨fun hcall => absurd hcall (by decide), fun hcall => absurd hcall (by decide)⟩
  refine ⟨k, _, k₂, hboots, by rw [step_fork rfl, hfork]; rfl, ?_, hcur₂, ?_⟩
  · rw [(checks_pass ⟨0x40000, by decide⟩ hreach₁).2 _ (hcounted₁ _)]
    exact hyield
  · exact (checks_pass ⟨0x40000, by decide⟩ (hreach₁.step (hcounted₁ _) hyield)).1

end

end SystemsProjects.WeensyOS
