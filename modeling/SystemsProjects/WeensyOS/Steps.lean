/-
SystemsProjects.WeensyOS.Steps — what one step of the kernel does.

A step saves the registers of the running process, has one effect, and
picks the next process. `Effect` lists the effects, `step_effect` finds
the one of each step, and every invariant of runs is shown once for each
of them. Stores of a process, failed calls and changes of registers and
states leave all tables and all counts in use as they are.
-/
import SystemsProjects.WeensyOS.Fork

namespace SystemsProjects.WeensyOS

open SystemsProjects.Base
open SystemsProjects.Base.RadixTree

/-- What every state of a running kernel has, whatever became of the
counts. -/
structure Steady (L : Layout) (k : Kernel) : Prop where
  inv : Inv L k
  live : Live k k.current
  stack : Stacked L k

/-- The running process has exited. -/
structure Exited (L : Layout) (k k' : Kernel) : Prop where
  refs : ∀ p, p % 4096 = 0 → k'.refs p = k.refs p - holds k.mem (k.root k.current) p
  mem : k'.mem = k.mem
  ptable : k'.ptable = Function.update k.ptable k.current
    { k.cur with state := .free, pagetable := 0, regs := RegState.zero }
  current : k'.current = k.current

section

variable {L : Layout} {k k' : Kernel} {pid p va : Nat} {byte : UInt8}

theorem Sane.steady (h : Sane L k) : Steady L k := ⟨h.inv, h.live, h.stack⟩

theorem Keeps.refl (k : Kernel) : Keeps k k where
  refs := fun _ _ _ => rfl
  fresh := fun _ _ hzero => by
    rw [hzero]
    exact Nat.zero_le 1
  tables := fun pid _ => .refl k.mem (k.root pid)
  root := fun _ => rfl
  live := fun _ => Iff.rfl

/-! ## Stores of a process -/

/-- The byte that a process stores to is on the console, or on a page that
it may write. -/
theorem userStore_cases (hs : Steady L k) (h : userStore va byte k = .ok k') :
    ∃ p i, i < 4096 ∧ k' = k.memset (p + i) byte 1 ∧
      (p = CONSOLE_ADDR ∨ IsPage L p ∧ ∃ vpn, InUserRange vpn ∧
        leaf k.mem (k.root k.current) vpn = frameEntry p true) := by
  have hspace := hs.inv.spaces k.current hs.live
  rw [userStore] at h
  obtain ⟨it, hnew, h⟩ := bind_eq_ok h
  split at h
  · rename_i hperm
    cases h
    have hcanon : vaIsCanonical va = true := by
      by_contra hnot
      rw [VmIter.new_of_not_canonical _ _ hnot] at hnew
      cases hnew
      rw [VmIter.hasPerm, decide_eq_true_eq, VmIter.perm, Nat.and_zero, Nat.zero_and,
        Nat.zero_and] at hperm
      cases hperm
    obtain ⟨it', hnew', hsees⟩ := VmIter.new_sees hspace.tree (.inl hspace.noLarge) hcanon
    have hnew' : VmIter.new k.mem k.cur.pagetable va = .ok it' := hnew'
    rw [hnew] at hnew'
    cases hnew'
    rw [VmIter.hasPerm, decide_eq_true_eq, hsees.perm_eq,
      entryPerm_and (by decide) (by decide)] at hperm
    have hpresent : leaf k.mem (k.root k.current) (slot 4 va) &&& PTE_P ≠ 0 := by
      have hbit : leaf k.mem (k.root k.current) (slot 4 va) &&& PTE_P = PTE_P := by
        rw [show PTE_P = (PTE_P ||| PTE_W ||| PTE_U) &&& PTE_P from rfl, ← Nat.and_assoc, hperm]
      rw [hbit]
      decide
    rw [hsees.pa_eq hpresent]
    refine ⟨_, va % 4096, Nat.mod_lt _ (by decide), rfl, ?_⟩
    rcases hspace.entries (slot 4 va) with hk | ⟨hvpn, q, w, hq, hentry⟩
    · rw [hk] at hperm ⊢
      have huser : UserEntry (kernelEntry (slot 4 va)) := by
        rw [UserEntry, show PTE_P ||| PTE_U =
          (PTE_P ||| PTE_W ||| PTE_U) &&& (PTE_P ||| PTE_U) from rfl,
          ← Nat.and_assoc, hperm]
      rw [kernelEntry_user huser]
      exact .inl (by decide)
    · rw [hentry] at hperm
      rw [hentry, hq.frameEntry_and_pamask]
      obtain rfl : w = true := by
        rw [← frameEntry_writable hq.aligned (w := w), show PTE_P ||| PTE_W =
          (PTE_P ||| PTE_W ||| PTE_U) &&& (PTE_P ||| PTE_W) from rfl, ← Nat.and_assoc, hperm]
      exact .inr ⟨hq, _, hvpn, hentry⟩
  · cases h

theorem userStore_keeps (hs : Steady L k) (h : userStore va byte k = .ok k') : Keeps k k' := by
  obtain ⟨p, i, hi, rfl, hp⟩ := userStore_cases hs h
  have hrefl := Keeps.refl k
  refine ⟨hrefl.refs, hrefl.fresh, fun pid hlive t ht => ?_, hrefl.root, hrefl.live⟩
  have hpage := (hs.inv.spaces pid hlive).tables t ht
  have hne : t ≠ p := by
    rintro rfl
    rcases hp with rfl | ⟨-, vpn, hvpn, hentry⟩
    · exact absurd hpage.bounds.2.2.1 (by decide)
    · exact hs.inv.frame_not_table hs.live hlive hvpn hpage hentry ht
  have hal : p % 4096 = 0 := by
    rcases hp with rfl | ⟨hp, -⟩
    · rfl
    · exact hp.aligned
  have htal := hpage.aligned
  exact fun j hj => ByteMem.fill_outside (by omega)

/-! ## `exit` -/

/-- **`syscall_exit`** gives back what the process holds. -/
theorem syscallExit_spec (hs : Steady L k) :
    ∃ k', syscallExit L k = .ok k' ∧ Exited L k k' := by
  have hspace := hs.inv.spaces k.current hs.live
  obtain ⟨k₁, hrun, hrel⟩ := freePagetable_spec (L := L) hspace.tree hspace.noLarge hs.inv.refs_lt
  have hrun : freePagetable L k.cur.pagetable k = .ok k₁ := hrun
  have hcur : k₁.cur = k.cur := by rw [Kernel.cur, hrel.ptable, hrel.current, Kernel.cur]
  let freed : Proc := { k₁.cur with state := .free, pagetable := 0, regs := RegState.zero }
  refine ⟨{ k₁ with ptable := Function.update k₁.ptable k₁.current freed }, ?_, fun p hp => ?_,
    hrel.mem, ?_, hrel.current⟩
  · rw [syscallExit, hrun]
    rfl
  · show k₁.refs p = _
    rw [hrel.refs p hp]
    split
    · rfl
    · rename_i hnot
      have hzero : holds k.mem (k.root k.current) p = 0 :=
        Nat.eq_zero_of_not_pos fun hpos => hnot (hspace.isPage_of_holds hpos)
      rw [hzero, Nat.sub_zero]
  · simp only [freed, hcur, hrel.ptable, hrel.current]

theorem Exited.not_live (h : Exited L k k') : ¬ Live k' k.current := by
  rintro ⟨-, hstate⟩
  rw [h.ptable, Function.update_self] at hstate
  exact hstate rfl

theorem Exited.others (h : Exited L k k') : Others k k' k.current where
  slot := fun pid hne => by rw [h.ptable, Function.update_of_ne hne]
  tables := fun pid _ _ => by
    rw [h.mem]
    exact .refl k.mem (k.root pid)

theorem Exited.inv (h : Exited L k k') (hs : Steady L k) : Inv L k' := by
  refine hs.inv.change hs.live.1 h.others (refs_lt_all fun p hp => ?_) (fun p hp => ?_)
    (fun pid hne hlive p hp => ?_) fun hlive => absurd hlive h.not_live
  · have hlt := hs.inv.refs_lt p
    rw [h.refs p hp]
    omega
  · rw [shares_live hs.live, h.refs p hp, shares, if_neg h.not_live]
    omega
  · have hzero := hs.inv.private_alone hlive hs.live hne hp
    rw [h.refs p ((hs.inv.spaces pid hlive).aligned_of_holds hp.holds), hzero,
      hs.inv.own pid hlive p hp]

theorem Exited.exact (h : Exited L k k') (hs : Steady L k) (hexact : Exact k) : Exact k' := by
  intro p hp hcond
  have htotal := total_change (p := p) hs.live.1 fun pid hne => h.others.shares hne p
  rw [shares_live hs.live, shares, if_neg h.not_live] at htotal
  have hold := hexact p hp
  rw [h.refs p hp] at hcond ⊢
  omega

theorem Exited.stacked (h : Exited L k k') (hs : Steady L k) : Stacked L k' :=
  h.others.stacked hs.stack fun hlive => absurd hlive h.not_live

/-! ## Registers and scheduling -/

theorem saveRegs_alike (regs : RegState) (k : Kernel) : Alike k (saveRegs regs k) := by
  refine ⟨rfl, rfl, fun pid => ?_, fun pid => ?_⟩
  · by_cases hpid : pid = k.current
    · rw [hpid]
      simp only [Kernel.root, saveRegs, Function.update_self, Kernel.cur]
    · simp only [Kernel.root, saveRegs, Function.update_of_ne hpid]
  · by_cases hpid : pid = k.current
    · rw [hpid]
      simp only [Live, saveRegs, Function.update_self, Kernel.cur]
    · simp only [Live, saveRegs, Function.update_of_ne hpid]

@[simp] theorem saveRegs_cur (regs : RegState) (k : Kernel) :
    (saveRegs regs k).cur = { k.cur with regs := regs } := Function.update_self ..

/-- A process that faults stays in its slot. -/
theorem faulted_alike (hlive : Live k k.current) :
    Alike k { k with
      ptable := Function.update k.ptable k.current { k.cur with state := .faulted } } := by
  refine ⟨rfl, rfl, fun pid => ?_, fun pid => ?_⟩
  · by_cases hpid : pid = k.current
    · rw [hpid]
      simp only [Kernel.root, Function.update_self, Kernel.cur]
    · simp only [Kernel.root, Function.update_of_ne hpid]
  · by_cases hpid : pid = k.current
    · rw [hpid]
      refine iff_of_true ⟨hlive.1, ?_⟩ hlive
      simp only [Function.update_self]
      exact fun h => by cases h
    · simp only [Live, Function.update_of_ne hpid]

/-- **`schedule`** runs a live process. -/
theorem schedule_alike (h : schedule k = .ok k') : Alike k k' ∧ Live k' k'.current := by
  rw [schedule] at h
  split at h
  · cases h
  · rename_i pid hpid
    obtain ⟨hstate, hk⟩ := run_eq_ok h
    obtain ⟨i, -, hi⟩ := List.mem_map.mp (List.mem_of_find?_eq_some hpid)
    refine ⟨run_alike h, ?_⟩
    rw [hk]
    refine ⟨hi ▸ Nat.mod_lt _ (by decide), ?_⟩
    show (k.ptable pid).state ≠ .free
    rw [hstate]
    exact fun h => by cases h

theorem Alike.findFree_none (h : Alike k k') (hnone : findFree k = none) : findFree k' = none := by
  rw [findFree, List.find?_eq_none] at hnone ⊢
  intro i hi hfree
  have hlt : i < PID_MAX := show i < 16 by
    have := List.mem_range'_1.mp hi
    have hmax : i < 1 + 15 := this.2
    omega
  have hdead : ¬ Live k i := fun hlive => ((h.live i).mpr hlive).2 (of_decide_eq_true hfree)
  refine hnone i hi (decide_eq_true ?_)
  by_contra hstate
  exact hdead ⟨hlt, hstate⟩

/-- The running process has the same pages. -/
theorem Alike.pageView (h : Alike k k') (hcur : k'.current = k.current) (vpn : Nat) :
    pageView k' vpn = pageView k vpn := by
  have hroot := h.root k.current
  rw [WeensyOS.pageView, WeensyOS.pageView, h.mem]
  simp only [Kernel.cur, hcur]
  rw [show (k'.ptable k.current).pagetable = (k.ptable k.current).pagetable from hroot]

theorem Alike.sharesBelow {m : Nat} (h : Alike k k') (hcur : k'.current = k.current)
    (hbelow : SharesBelow k m) : SharesBelow k' m := by
  intro vpn hvpn p hview
  rw [h.pageView hcur] at hview
  rw [h.refs]
  exact hbelow vpn hvpn p hview

theorem Alike.steady (h : Alike k k') (hlive : Live k' k'.current) (hinv : Inv L k)
    (hstack : Stacked L k) : Steady L k' :=
  ⟨h.keeps.inv hinv, hlive, h.keeps.stacked hstack⟩

/-! ## The calls -/

section

variable {regs : RegState}

theorem step_yield (hcall : regs.rax = SYSCALL_YIELD) :
    step L (.syscall regs) k = schedule (saveRegs { regs with rax := 0 } (saveRegs regs k)) := by
  rw [step, syscall]
  simp only [hcall]
  cases schedule (saveRegs { regs with rax := 0 } (saveRegs regs k)) <;> rfl

theorem step_pageAlloc (hcall : regs.rax = SYSCALL_PAGE_ALLOC) :
    step L (.syscall regs) k =
      syscallPageAlloc L regs.rdi (saveRegs regs k) >>= fun out => .ok out.2 := by
  rw [step, syscall]
  simp only [hcall, saveRegs_cur]
  cases syscallPageAlloc L regs.rdi (saveRegs regs k) <;> rfl

theorem step_fork (hcall : regs.rax = SYSCALL_FORK) :
    step L (.syscall regs) k = syscallFork L (saveRegs regs k) >>= fun out => .ok out.2 := by
  rw [step, syscall]
  simp only [hcall]
  cases syscallFork L (saveRegs regs k) <;> rfl

theorem step_exit (hcall : regs.rax = SYSCALL_EXIT) :
    step L (.syscall regs) k = syscallExit L (saveRegs regs k) >>= schedule := by
  rw [step, syscall]
  simp only [hcall]
  cases syscallExit L (saveRegs regs k) with
  | error f => rfl
  | ok k₁ =>
    simp only [ok_bind]
    cases schedule k₁ <;> rfl

end

/-! ## One step -/

/-- A `PAGE_ALLOC` is at an address as `sys_page_alloc` requires. -/
def AllocValid : Event → Prop
  | .syscall regs => regs.rax = SYSCALL_PAGE_ALLOC → ValidAddr regs.rdi
  | _ => True

/-- A `PAGE_ALLOC` is where the process has no page. -/
def AllocFresh (k : Kernel) : Event → Prop
  | .syscall regs =>
    regs.rax = SYSCALL_PAGE_ALLOC → userPage k.mem k.cur.pagetable regs.rdi = none
  | _ => True

/-- A `FORK` that finds a slot would share pages with fewer than `m`
references. -/
def ForkBelow (m : Nat) (k : Kernel) : Event → Prop
  | .syscall regs => regs.rax = SYSCALL_FORK → findFree k = none ∨ SharesBelow k m
  | _ => True

/-- What a step does to the tables and the counts. -/
inductive Effect (L : Layout) (e : Event) (k : Kernel) : Kernel → Prop where
  | keeps {k' : Kernel} (h : Keeps k k') : Effect L e k k'
  | alloc {k' : Kernel} {regs : RegState} {q : Nat} (he : e = .syscall regs)
      (hcall : regs.rax = SYSCALL_PAGE_ALLOC) (h : Allocated L k k' regs.rdi q) : Effect L e k k'
  | fork {k₁ : Kernel} {regs : RegState} {pid pt : Nat} {lf : Nat → Nat} (he : e = .syscall regs)
      (hcall : regs.rax = SYSCALL_FORK) (hcan : CanFork L k) (hslot : findFree k = some pid)
      (h : Forking L k k₁ pt 0x300 lf) : Effect L e k (k₁.setProc pid (childProc k pt pid))
  | exit {k' : Kernel} (h : Exited L k k') : Effect L e k k'

/-- A step: registers, an effect, and scheduling. -/
def Stepped (L : Layout) (e : Event) (k k' : Kernel) : Prop :=
  ∃ k₁ k₂, (Alike k k₁ ∧ k₁.current = k.current) ∧ Effect L e k₁ k₂ ∧ Alike k₂ k' ∧
    Live k' k'.current

/-- A call of `fork` by the running process. -/
theorem fork_stepped {regs : RegState} {r : Int} (hs : Steady L k)
    (hcall : regs.rax = SYSCALL_FORK) (hbelow : ForkBelow 255 k (.syscall regs))
    (h : syscallFork L (saveRegs regs k) = .ok (r, k')) : Stepped L (.syscall regs) k k' := by
  have halike := saveRegs_alike regs k
  have hcur : (saveRegs regs k).current = k.current := rfl
  have hlive : Live (saveRegs regs k) (saveRegs regs k).current := (halike.live _).mpr hs.live
  have hinv := halike.keeps.inv hs.inv
  cases hslot : findFree (saveRegs regs k) with
  | none =>
    rw [syscallFork, hslot] at h
    cases h
    exact ⟨_, _, ⟨halike, hcur⟩, .keeps (.refl _), .refl _, hlive⟩
  | some pid =>
    have hcan : CanFork L (saveRegs regs k) := by
      refine ⟨hinv, hlive, ?_⟩
      rcases hbelow hcall with hnone | hbelow
      · rw [halike.findFree_none hnone] at hslot
        cases hslot
      · exact halike.sharesBelow hcur hbelow
    rcases syscallFork_cases hcan with
      ⟨hrun, -⟩ | ⟨k₂, hrun, -, hfailed⟩ | ⟨pid', pt, k₁, lf, hrun, hslot', hforking⟩
    · rw [hrun] at h
      cases h
      exact ⟨_, _, ⟨halike, hcur⟩, .keeps (.refl _), .refl _, hlive⟩
    · rw [hrun] at h
      cases h
      have hkeeps := hfailed.keeps hinv
      refine ⟨_, _, ⟨halike, hcur⟩, .keeps hkeeps, .refl _, ?_⟩
      rw [hfailed.current]
      exact (hkeeps.live _).mpr hlive
    · rw [hrun] at h
      cases h
      refine ⟨_, _, ⟨halike, hcur⟩, .fork rfl hcall hcan hslot' hforking, .refl _, ?_⟩
      have hcurrent : (k₁.setProc pid' (childProc (saveRegs regs k) pt pid')).current =
          (saveRegs regs k).current := hforking.building.current
      rw [hcurrent]
      refine ⟨hlive.1, ?_⟩
      simp only [Kernel.setProc, hforking.building.ptable, Function.update_apply]
      split
      · exact fun hstate => by cases hstate
      · exact hlive.2

/-- **Every step** saves registers, has one effect, and schedules. -/
theorem step_stepped {e : Event} (hs : Steady L k) (hvalid : AllocValid e)
    (hbelow : ForkBelow 255 k e) (h : step L e k = .ok k') : Stepped L e k k' := by
  cases e with
  | store va byte =>
    have hkeeps := userStore_keeps hs h
    obtain ⟨p, i, -, rfl, -⟩ := userStore_cases hs h
    exact ⟨_, _, ⟨.refl k, rfl⟩, .keeps hkeeps, .refl _, hs.live⟩
  | exception regs =>
    have halike := saveRegs_alike regs k
    have hlive : Live (saveRegs regs k) (saveRegs regs k).current := (halike.live _).mpr hs.live
    have h : exception regs k = .ok k' := h
    rw [exception] at h
    simp only [] at h
    split at h
    · obtain ⟨hsched, hlive'⟩ := schedule_alike h
      exact ⟨_, _, ⟨halike, rfl⟩, .keeps (.refl _), hsched, hlive'⟩
    · split at h
      · obtain ⟨hsched, hlive'⟩ := schedule_alike h
        exact ⟨_, _, ⟨halike, rfl⟩, .keeps (.refl _), (faulted_alike hlive).trans hsched, hlive'⟩
      · cases h
  | syscall regs =>
    have halike := saveRegs_alike regs k
    have hlive : Live (saveRegs regs k) (saveRegs regs k).current := (halike.live _).mpr hs.live
    have hs₁ := halike.steady hlive hs.inv hs.stack
    obtain ⟨⟨r, k''⟩, hcall, hlast⟩ := bind_eq_ok h
    cases hlast
    rw [syscall] at hcall
    simp only [] at hcall
    split at hcall
    · cases hcall
      exact ⟨_, _, ⟨halike, rfl⟩, .keeps (.refl _), .refl _, hlive⟩
    · split at hcall
      · obtain ⟨k₂, hsched, hlast⟩ := bind_eq_ok hcall
        cases hlast
        obtain ⟨hsched, hlive'⟩ := schedule_alike hsched
        exact ⟨_, _, ⟨halike, rfl⟩, .keeps (.refl _), (saveRegs_alike _ _).trans hsched, hlive'⟩
      · split at hcall
        · rename_i hrax
          obtain ⟨⟨r', k₂⟩, halloc, hlast⟩ := bind_eq_ok hcall
          cases hlast
          rw [saveRegs_cur] at halloc
          rcases syscallPageAlloc_spec hs₁.inv hlive (hvalid hrax) with
            ⟨hrun, -⟩ | ⟨k₃, q, hrun, hallocated⟩
          · rw [hrun] at halloc
            cases halloc
            exact ⟨_, _, ⟨halike, rfl⟩, .keeps (.refl _), .refl _, hlive⟩
          · rw [hrun] at halloc
            cases halloc
            refine ⟨_, _, ⟨halike, rfl⟩, .alloc rfl hrax hallocated, .refl _, ?_⟩
            rw [hallocated.current]
            exact (hallocated.live _).mpr hlive
        · split at hcall
          · rename_i hrax
            obtain ⟨⟨r', k₂⟩, hfork, hlast⟩ := bind_eq_ok hcall
            cases hlast
            exact fork_stepped hs hrax hbelow hfork
          · split at hcall
            · obtain ⟨k₂, hexit, hcall⟩ := bind_eq_ok hcall
              obtain ⟨k₃, hsched, hlast⟩ := bind_eq_ok hcall
              cases hlast
              obtain ⟨k₄, hrun, hexited⟩ := syscallExit_spec hs₁
              rw [hrun] at hexit
              cases hexit
              obtain ⟨hsched, hlive'⟩ := schedule_alike hsched
              exact ⟨_, _, ⟨halike, rfl⟩, .exit hexited, hsched, hlive'⟩
            · cases hcall

/-! ## What the effects keep -/

/-- The parent goes on after a successful `fork`. -/
theorem Forking.steady {k₀ : Kernel} {pt : Nat} {lf : Nat → Nat} (h : Forking L k₀ k pt 0x300 lf)
    (hs : CanFork L k₀) (hstack : Stacked L k₀) (hslot : findFree k₀ = some pid) :
    Steady L (k.setProc pid (childProc k₀ pt pid)) where
  inv := h.inv hs hstack hslot
  live := by
    have hne : k₀.current ≠ pid := by
      rintro rfl
      exact hs.live.2 (findFree_eq_some hslot).2.2
    rw [show (k.setProc pid (childProc k₀ pt pid)).current = k₀.current from
      h.building.current, Live,
      h.slots hne]
    exact hs.live
  stack := h.stacked hs hstack

theorem Allocated.stacked {q : Nat} (h : Allocated L k k' va q) (hs : Steady L k) :
    Stacked L k' := by
  refine (h.others hs.inv hs.live).stacked hs.stack fun _ => ?_
  rw [h.root, h.leaf, Function.update_apply]
  split
  · exact ⟨q, h.isPage, rfl⟩
  · exact hs.stack k.current hs.live

theorem Effect.inv {e : Event} (h : Effect L e k k') (hs : Steady L k) (hvalid : AllocValid e) :
    Inv L k' := by
  cases h with
  | keeps h => exact h.inv hs.inv
  | alloc he hcall h =>
    subst he
    exact h.inv hs.inv hs.live (hvalid hcall)
  | fork _ _ hcan hslot h => exact h.inv hcan hs.stack hslot
  | exit h => exact h.inv hs

theorem Effect.stacked {e : Event} (h : Effect L e k k') (hs : Steady L k) : Stacked L k' := by
  cases h with
  | keeps h => exact h.stacked hs.stack
  | alloc _ _ h => exact h.stacked hs
  | fork _ _ hcan _ h => exact h.stacked hcan hs.stack
  | exit h => exact h.stacked hs

/-- A page is not lost where the process had none. -/
theorem Effect.exact {e : Event} (h : Effect L e k k') (hs : Steady L k) (hvalid : AllocValid e)
    (hfresh : AllocFresh k e) (hexact : Exact k) : Exact k' := by
  cases h with
  | keeps h => exact h.exact hs.inv hexact
  | @alloc _ regs q he hcall h =>
    subst he
    have hva := hvalid hcall
    have hspace := hs.inv.spaces k.current hs.live
    refine h.exact hs.inv hs.live hva hexact fun p hp hentry => ?_
    have hnone : userPage k.mem (k.root k.current) regs.rdi = none := hfresh hcall
    have hal : regs.rdi % 4096 = 0 := hva.aligned
    rw [show regs.rdi = regs.rdi / 4096 * PAGESIZE from by show _ = regs.rdi / 4096 * 4096; omega,
      hspace.userPage_mul hva.inUserRange.lt, hentry, entryPage_frameEntry hp] at hnone
    cases hnone
  | fork _ _ hcan hslot h => exact h.exact hcan hs.stack hexact hslot
  | exit h => exact h.exact hs hexact

/-- The counts are bounded by `m`, if no `fork` would raise one above. -/
theorem Effect.counts {e : Event} {m : Nat} (h : Effect L e k k') (hs : Steady L k) (hm : 0 < m)
    (hbelow : ForkBelow m k e) (hcounts : ∀ p, p % 4096 = 0 → k.refs p ≤ m) :
    ∀ p, p % 4096 = 0 → k'.refs p ≤ m := by
  intro p hp
  have hle := hcounts p hp
  cases h with
  | keeps h =>
    rcases Nat.eq_zero_or_pos (k.refs p) with hzero | hpos
    · exact (h.fresh p hp hzero).trans hm
    · rw [h.refs p hp hpos]
      exact hle
  | @alloc _ regs q he hcall h =>
    rw [h.refs hp]
    split
    · rename_i hpq
      rw [hpq, (h.taken.free q (List.mem_singleton_self q)).2]
      exact hm
    · exact hle
  | @fork k₁ regs pid pt lf he hcall hcan hslot h =>
    subst he
    have hready := h.ready hcan hs.stack
    rw [setProc_refs]
    by_cases hfree : Free L k p
    · exact (hready.building.isFresh p hfree).1.trans hm
    · rw [hready.refs_eq hp]
      rcases Nat.eq_zero_or_pos (holds k₁.mem pt p) with hzero | hpos
      · omega
      · obtain ⟨vpn, -, hvpn, hpage, hentry⟩ := h.readOnly hfree hpos
        have hone := (h.shared hcan hfree hpos).1
        rcases hbelow hcall with hnone | hbelow
        · rw [hnone] at hslot
          cases hslot
        · have hlt := hbelow vpn hvpn.lt p (by
            rw [hcan.pageView_eq hvpn.lt, hentry, entryPage_frameEntry hpage])
          omega
  | exit h =>
    rw [h.refs p hp]
    omega

end

end SystemsProjects.WeensyOS
