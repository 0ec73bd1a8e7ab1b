/-
SystemsProjects.WeensyOS.Alone — a process that runs alone.

After a boot with one program its process is alone (`Alone`), with one
page for the program and one for the stack. What `fork` and `PAGE_ALLOC`
need can be counted there: a child goes to slot 2, and a run of
`PAGE_ALLOC`s uses up one page with each call.
-/
import SystemsProjects.WeensyOS.Runs

namespace SystemsProjects.WeensyOS

open SystemsProjects.Base
open SystemsProjects.Base.RadixTree

/-- The registers of a system call. -/
def callRegs (rax rdi : Nat) : RegState :=
  { initProcess with rsp := MEMSIZE_VIRTUAL, rax := rax, rdi := rdi }

/-- Process 1 has a child in slot 2, and both can run. -/
structure Paired (k : Kernel) : Prop where
  pids : (k.ptable 1).pid = 1 ∧ (k.ptable 2).pid = 2
  runnable : ∀ i, i = 1 ∨ i = 2 → (k.ptable i).state = .runnable
  regs : ∀ i, i = 1 ∨ i = 2 → ∃ a b, (k.ptable i).regs = callRegs a b
  free : ∀ i, i ≠ 1 → i ≠ 2 → (k.ptable i).state = .free

section

variable {L : Layout} {k k' : Kernel} {w : Bool} {p m n i : Nat} {regs : RegState}

theorem Alone.save (h : Alone L k w p) (regs : RegState) : Alone L (saveRegs regs k) w p := by
  have hroot : (saveRegs regs k).root 1 = k.root 1 := (saveRegs_alike regs k).root 1
  refine ⟨h.current, ?_, ?_, fun i hne => ?_, ⟨h.page.1, ?_⟩, ?_, ?_⟩
  · simp only [saveRegs, h.current, Function.update_self, Kernel.cur, h.pid]
  · simp only [saveRegs, h.current, Function.update_self, Kernel.cur, h.runnable]
  · simp only [saveRegs, h.current, Function.update_of_ne hne, h.free i hne]
  · rw [hroot]
    exact h.page.2
  · rw [hroot]
    exact h.stack
  · rw [hroot]
    exact h.others

theorem Alone.slot (h : Alone L k w p) : findFree k = some 2 := by
  have h1 : ¬ (k.ptable 1).state = .free := by rw [h.runnable]; exact fun heq => by cases heq
  rw [findFree, show List.range' 1 (PID_MAX - 1) = 1 :: 2 :: List.range' 3 13 from rfl,
    List.find?_cons_of_neg (by simpa using h1),
    List.find?_cons_of_pos (by simpa using h.free 2 (by decide))]

/-- What the process may access. -/
theorem Alone.view (h : Alone L k w p) (hs : Steady L k) :
    ∃ q, ∀ vpn < 0x300, pageView k vpn =
      if vpn = 0x100 then some (p, w) else if vpn = 0x2FF then some (q, true)
      else if vpn = 0xB8 then some (CONSOLE_ADDR, true) else none := by
  obtain ⟨q, hq, hentry⟩ := h.stack
  refine ⟨q, fun vpn hvpn => ?_⟩
  have hview : pageView k vpn = entryPage (leaf k.mem (k.root k.current) vpn) :=
    (hs.inv.spaces _ hs.live).userPage_mul hvpn
  rw [hview, h.current]
  split
  · rename_i heq
    rw [heq, h.page.2, entryPage_frameEntry h.page.1]
  · split
    · rename_i heq
      rw [heq, hentry, entryPage_frameEntry hq]
    · rename_i h1 h2
      rw [h.others vpn h1 h2, entryPage_kernelEntry]
      rfl

/-- Pages that the process may not write do not count. -/
theorem ownPages_skip (hle : m ≤ n)
    (hnone : ∀ vpn, m ≤ vpn → vpn < n → vpn = CONSOLE_ADDR / PAGESIZE ∨
    (pageView k vpn).any Prod.snd = false) : ownPages k n = ownPages k m := by
  induction hle with
  | refl => rfl
  | @step n hle ih =>
    rw [ownPages, ih fun vpn h1 h2 => hnone vpn h1 (Nat.lt_succ_of_lt h2), if_neg, Nat.add_zero]
    rintro ⟨hne, hany⟩
    rcases hnone n hle (Nat.lt_succ_self n) with heq | hfalse
    · exact hne heq
    · rw [hfalse] at hany
      cases hany

theorem Alone.own (h : Alone L k w p) (hs : Steady L k) :
    ownPages k 0x200 = w.toNat ∧ ownPages k 0x300 = w.toNat + 1 := by
  obtain ⟨q, hview⟩ := h.view hs
  have hnone : ∀ vpn, vpn < 0x300 → vpn ≠ 0x100 → vpn ≠ 0x2FF →
      vpn = CONSOLE_ADDR / PAGESIZE ∨ (pageView k vpn).any Prod.snd = false := by
    intro vpn hlt h1 h2
    rw [hview vpn hlt, if_neg h1, if_neg h2]
    by_cases h3 : vpn = 0xB8
    · exact .inl h3
    · exact .inr (by rw [if_neg h3]; rfl)
  have hstart : ownPages k 0x100 = 0 :=
    ownPages_skip (Nat.zero_le _) fun vpn _ hlt => hnone vpn (by omega) (by omega) (by omega)
  have hpage : ownPages k 0x101 = w.toNat := by
    rw [ownPages, hstart, hview 0x100 (by decide), if_pos rfl]
    cases w <;> rfl
  have hlow : ownPages k 0x200 = ownPages k 0x101 :=
    ownPages_skip (by decide) fun vpn hge hlt => hnone vpn (by omega) (by omega) (by omega)
  have hhigh : ownPages k 0x2FF = ownPages k 0x101 :=
    ownPages_skip (by decide) fun vpn hge hlt => hnone vpn (by omega) (by omega) (by omega)
  refine ⟨hlow.trans hpage, ?_⟩
  rw [ownPages, hhigh, hpage, hview 0x2FF (by decide), if_pos ⟨by decide, rfl⟩]

theorem Alone.sharesBelow (h : Alone L k w p) (hs : Steady L k) (hcount : k.refs p < m) :
    SharesBelow k m := by
  obtain ⟨q, hview⟩ := h.view hs
  intro vpn hvpn p' hp'
  rw [hview vpn hvpn] at hp'
  split at hp'
  · cases hp'
    exact hcount
  · split at hp'
    · cases hp'
    · split at hp' <;> cases hp'

/-- **A child** of the process gets slot 2. -/
theorem Alone.fork (h : Alone L k w p) (hs : Steady L k) (hcount : k.refs p < 255)
    (hroom : 7 ≤ (freePages L k).length) (regs : RegState) :
    CanFork L (saveRegs regs k) ∧ ∃ pt k₁ lf,
      syscallFork L (saveRegs regs k) =
        .ok ((2 : Nat), k₁.setProc 2 (childProc (saveRegs regs k) pt 2)) ∧
      Forking L (saveRegs regs k) k₁ pt 0x300 lf := by
  have halike := saveRegs_alike regs k
  have halone := h.save regs
  have hs₁ : Steady L (saveRegs regs k) :=
    halike.steady ((halike.live _).mpr hs.live) hs.inv hs.stack
  have hcan : CanFork L (saveRegs regs k) :=
    ⟨hs₁.inv, hs₁.live, halone.sharesBelow hs₁ (by rw [halike.refs]; exact hcount)⟩
  refine ⟨hcan, syscallFork_succeeds hcan halone.slot ?_⟩
  rw [(halone.own hs₁).2, freePages_congr halike.physpages]
  cases w
  · exact Nat.le_trans (by decide) hroom
  · exact hroom

end

/-! ## With a child -/

section

variable {L : Layout} {k k₁ : Kernel} {w : Bool} {p pid pt a b : Nat} {lf : Nat → Nat}

theorem run_callRegs (hstate : (k.ptable pid).state = .runnable)
    (hregs : (k.ptable pid).regs = callRegs a b) : run pid k = .ok { k with current := pid } := by
  have hle : PROC_START_ADDR ≤ MEMSIZE_VIRTUAL := by decide
  simp [run, assert, hstate, hregs, callRegs, initProcess, RegState.zero, hle]

theorem Paired.saveRegs (h : Paired k) (a b : Nat) : Paired (saveRegs (callRegs a b) k) := by
  have hslot : ∀ i, ((WeensyOS.saveRegs (callRegs a b) k).ptable i).pid = (k.ptable i).pid ∧
      ((WeensyOS.saveRegs (callRegs a b) k).ptable i).state = (k.ptable i).state := by
    intro i
    by_cases hi : i = k.current
    · simp only [WeensyOS.saveRegs, hi, Function.update_self, Kernel.cur, and_self]
    · simp only [WeensyOS.saveRegs, Function.update_of_ne hi, and_self]
  refine ⟨⟨(hslot 1).1.trans h.pids.1, (hslot 2).1.trans h.pids.2⟩,
    fun i hi => (hslot i).2.trans (h.runnable i hi), fun i hi => ?_,
    fun i h1 h2 => (hslot i).2.trans (h.free i h1 h2)⟩
  by_cases hcur : i = k.current
  · exact ⟨a, b, by rw [hcur, WeensyOS.saveRegs]; simp only [Function.update_self]⟩
  · simp only [WeensyOS.saveRegs, Function.update_of_ne hcur]
    exact h.regs i hi

/-- From process 1 it is its child's turn. -/
theorem Paired.schedule (h : Paired k) (hcur : k.current = 1) :
    schedule k = .ok { k with current := 2 } := by
  obtain ⟨a, b, hregs⟩ := h.regs 2 (.inr rfl)
  have h2 := h.runnable 2 (.inr rfl)
  have hpid : k.cur.pid = 1 := by rw [Kernel.cur, hcur, h.pids.1]
  rw [WeensyOS.schedule, hpid]
  have hfind : ((List.range PID_MAX).map fun i => (1 + 1 + i) % PID_MAX).find?
      (fun pid => (k.ptable pid).state = .runnable) = some 2 :=
    List.find?_cons_of_pos (show decide ((k.ptable 2).state = .runnable) = true from
    decide_eq_true h2)
  rw [hfind]
  exact run_callRegs h2 hregs

theorem Paired.yield (h : Paired k) (hcur : k.current = 1) :
    ∃ k', step L (.syscall (callRegs SYSCALL_YIELD 0)) k = .ok k' ∧ Paired k' ∧ k'.current = 2 := by
  have hpaired := (h.saveRegs SYSCALL_YIELD 0).saveRegs 0 0
  refine ⟨{ WeensyOS.saveRegs (callRegs 0 0) (WeensyOS.saveRegs (callRegs SYSCALL_YIELD 0) k) with
      current := 2 }, ?_, ⟨hpaired.pids, hpaired.runnable, hpaired.regs, hpaired.free⟩, rfl⟩
  rw [step_yield rfl]
  exact hpaired.schedule hcur

/-- After the child's exit process 1 runs again. -/
theorem Paired.exit {k₂ : Kernel} (h : Paired k) (hcur : k.current = 2) (hexit : Exited L k k₂)
    (hcur₂ : k₂.current = 2) :
    WeensyOS.schedule k₂ = .ok { k₂ with current := 1 } ∧ (k₂.ptable 1).pid = 1 ∧
      (k₂.ptable 1).state = .runnable ∧ (∀ i ≠ 1, (k₂.ptable i).state = .free) := by
  have hptable := hexit.ptable
  rw [hcur] at hptable
  have h1 : k₂.ptable 1 = k.ptable 1 := by rw [hptable, Function.update_of_ne (by decide)]
  have h2 : (k₂.ptable 2).state = .free ∧ (k₂.ptable 2).pid = 2 := by
    rw [hptable, Function.update_self]
    exact ⟨rfl, by rw [Kernel.cur, hcur, h.pids.2]⟩
  have hfree : ∀ i ≠ 1, (k₂.ptable i).state = .free := by
    intro i hi
    by_cases hi2 : i = 2
    · rw [hi2, h2.1]
    · rw [hptable, Function.update_of_ne hi2, h.free i hi hi2]
  have hrun1 : (k₂.ptable 1).state = .runnable := by rw [h1, h.runnable 1 (.inl rfl)]
  refine ⟨?_, by rw [h1, h.pids.1], hrun1, hfree⟩
  obtain ⟨a, b, hregs⟩ := h.regs 1 (.inl rfl)
  have hfind : ((List.range PID_MAX).map fun i => (2 + 1 + i) % PID_MAX).find?
      (fun pid => (k₂.ptable pid).state = .runnable) = some 1 := by
    rw [show ((List.range PID_MAX).map fun i => (2 + 1 + i) % PID_MAX) =
      [3, 4, 5, 6, 7, 8, 9, 10, 11, 12, 13, 14, 15, 0] ++ [1, 2] from rfl, List.find?_append,
      List.find?_eq_none.mpr, Option.none_or]
    · exact List.find?_cons_of_pos (decide_eq_true hrun1)
    · intro i hi
      have hne : i ≠ 1 := by
        rintro rfl
        exact absurd hi (by decide)
      rw [hfree i hne]
      decide
  have hpid : k₂.cur.pid = 2 := by rw [Kernel.cur, hcur₂, h2.2]
  rw [WeensyOS.schedule, hpid, hfind]
  exact run_callRegs hrun1 (by rw [h1, hregs])

/-- A child is ready to run. -/
theorem Alone.paired (h : Alone L k w p)
    (hforking : Forking L (saveRegs (callRegs a b) k) k₁ pt 0x300 lf) :
    Paired (k₁.setProc 2 (childProc (saveRegs (callRegs a b) k) pt 2)) := by
  have halone := h.save (callRegs a b)
  have hslot : ∀ i ≠ 2, (k₁.setProc 2 (childProc (saveRegs (callRegs a b) k) pt 2)).ptable i =
      (saveRegs (callRegs a b) k).ptable i := fun i hne => hforking.slots hne
  have hregs : ((saveRegs (callRegs a b) k).ptable 1).regs = callRegs a b := by
    rw [← halone.current]
    exact congrArg Proc.regs (saveRegs_cur (callRegs a b) k)
  refine ⟨⟨?_, ?_⟩, fun i hi => ?_, fun i hi => ?_, fun i h1 h2 => ?_⟩
  · rw [hslot 1 (by decide), halone.pid]
  · rw [setProc_self]
    rfl
  · rcases hi with rfl | rfl
    · rw [hslot 1 (by decide), halone.runnable]
    · rw [setProc_self]
      rfl
  · rcases hi with rfl | rfl
    · exact ⟨a, b, by rw [hslot 1 (by decide), hregs]⟩
    · refine ⟨0, b, ?_⟩
      rw [setProc_self, childProc, saveRegs_cur]
      rfl
  · rw [hslot i h2, halone.free i h1]

end

/-! ## Using up pages -/

section

variable {L : Layout} {P : Programs} {command : Option String} {mem : ByteMem} {k k' : Kernel}
  {l : List Nat} {n q vpn : Nat}

/-- A page taken is one free page less. -/
theorem Taken.length (h : Taken L k k' [q]) :
    (freePages L k').length + 1 = (freePages L k).length := by
  have hq : Free L k q := h.free q (List.mem_singleton_self q)
  have hperm : (freePages L k).Perm (q :: freePages L k') := by
    refine (List.perm_ext_iff_of_nodup (freePages_nodup L k) ?_).mpr fun p => ?_
    · refine List.nodup_cons.mpr ⟨fun hmem => ?_, freePages_nodup L k'⟩
      have hrefs := h.refs q hq.1.aligned
      rw [(mem_freePages.mp hmem).2, if_pos (List.mem_singleton_self q)] at hrefs
      cases hrefs
    · rw [List.mem_cons, mem_freePages, mem_freePages]
      by_cases hpq : p = q
      · exact iff_of_true (hpq ▸ hq) (.inl hpq)
      · rw [or_iff_right hpq]
        refine and_congr_right fun hp => ?_
        rw [h.refs p hp.aligned, if_neg fun hmem => hpq (List.mem_singleton.mp hmem)]
  exact hperm.length_eq.symm

/-- One `PAGE_ALLOC` where the process has no page. -/
theorem Reaches.pageAlloc (h : Reaches L P command mem FreshAllocs k) (hvpn : InUserRange vpn)
    (hnone : leaf k.mem (k.root k.current) vpn = 0) (hfree : freePages L k ≠ []) :
    ∃ regs k' q, Reaches L P command mem FreshAllocs k' ∧
      Allocated L (saveRegs regs k) k' (vpn * 4096) q := by
  have hs := h.sane.steady
  have hlow : 0x100 ≤ vpn := hvpn.1
  have hhigh : vpn < 0x300 := hvpn.2
  have hva : ValidAddr (vpn * 4096) := ⟨Nat.mul_mod_left _ _, show 0x100000 ≤ vpn * 4096 by omega,
    show vpn * 4096 < 0x300000 by omega⟩
  have hview : userPage k.mem k.cur.pagetable (vpn * 4096) = none := by
    refine ((hs.inv.spaces _ hs.live).userPage_mul hhigh).trans ?_
    rw [hnone, entryPage_zero]
  let regs := callRegs SYSCALL_PAGE_ALLOC (vpn * 4096)
  have halike := saveRegs_alike regs k
  have hs₁ : Steady L (saveRegs regs k) :=
    halike.steady ((halike.live _).mpr hs.live) hs.inv hs.stack
  rcases syscallPageAlloc_spec hs₁.inv hs₁.live hva with ⟨-, hout⟩ | ⟨k', q, hrun, hall⟩
  · exact absurd (outOfPages_iff.mp hout) hfree
  · have hstep : WeensyOS.step L (.syscall regs) k = .ok k' := by
      have hrun : syscallPageAlloc L regs.rdi (saveRegs regs k) = .ok (0, k') := hrun
      rw [step_pageAlloc rfl, hrun]
      rfl
    have hok : FreshAllocs k (.syscall regs) := ⟨fun _ => hva, fun _ => hview⟩
    exact ⟨regs, k', q, h.step hok hstep, hall⟩

/-- **A run of `PAGE_ALLOC`s** uses up a page with each call. -/
theorem Reaches.spend (h : Reaches L P command mem FreshAllocs k) (hnodup : l.Nodup)
    (hl : ∀ vpn ∈ l, InUserRange vpn ∧ leaf k.mem (k.root k.current) vpn = 0)
    (hroom : l.length ≤ (freePages L k).length) :
    ∃ k', Reaches L P command mem FreshAllocs k' ∧ (∀ i, (k'.ptable i).state = (k.ptable i).state) ∧
      (freePages L k').length + l.length = (freePages L k).length ∧
      (∀ vpn ∈ l, ∃ q, IsPage L q ∧ leaf k'.mem (k'.root k'.current) vpn = frameEntry q true) ∧
      ∀ vpn, vpn ∉ l → leaf k'.mem (k'.root k'.current) vpn =
      leaf k.mem (k.root k.current) vpn := by
  induction l generalizing k with
  | nil => exact ⟨k, h, fun _ => rfl, Nat.add_zero _, fun _ hmem => absurd hmem List.not_mem_nil,
    fun _ _ => rfl⟩
  | cons v l ih =>
    obtain ⟨hv, hnodup⟩ := List.nodup_cons.mp hnodup
    obtain ⟨hvpn, hnone⟩ := hl v List.mem_cons_self
    rw [List.length_cons] at hroom
    have hfree : freePages L k ≠ [] := fun hnil => by
      rw [hnil] at hroom
      cases hroom
    obtain ⟨regs, k₁, q, hreach, hall⟩ := h.pageAlloc hvpn hnone hfree
    have hlen := hall.taken.length
    rw [freePages_congr (saveRegs_alike regs k).physpages] at hlen
    have hq : IsPage L q := hall.isPage
    have hcur : k₁.current = k.current := hall.current
    have hroot : k₁.root k.current = k.root k.current := by
      rw [hall.root]
      exact (saveRegs_alike regs k).root _
    have hleaf : leaf k₁.mem (k₁.root k₁.current) =
        Function.update (leaf k.mem (k.root k.current)) v (frameEntry q true) := by
      have hleaf := hall.leaf
      rw [Nat.mul_div_cancel v (by decide), (saveRegs_alike regs k).root] at hleaf
      rw [hcur, hroot]
      exact hleaf
    obtain ⟨k', hreach', hstate, hlen', hin, hout⟩ := ih hreach hnodup (fun vpn hmem => by
      obtain ⟨hrange, hzero⟩ := hl vpn (List.mem_cons_of_mem _ hmem)
      refine ⟨hrange, ?_⟩
      have hne : vpn ≠ v := by
        rintro rfl
        exact hv hmem
      rw [hleaf, Function.update_of_ne hne]
      exact hzero) (by omega)
    refine ⟨k', hreach', fun i => ?_, by rw [List.length_cons]; omega, fun vpn hmem => ?_,
      fun vpn hnot => ?_⟩
    · rw [hstate i, hall.ptable]
      by_cases hi : i = k.current
      · simp only [saveRegs, hi, Function.update_self, Kernel.cur]
      · simp only [saveRegs, Function.update_of_ne hi]
    · rcases List.mem_cons.mp hmem with rfl | hmem
      · refine ⟨q, hq, ?_⟩
        rw [hout vpn hv, hleaf, Function.update_self]
      · exact hin vpn hmem
    · rw [List.mem_cons, not_or] at hnot
      rw [hout vpn hnot.2, hleaf, Function.update_of_ne hnot.1]

/-- What has come to be mapped counts. -/
theorem ownPages_more (hconsole : CONSOLE_ADDR / PAGESIZE ∉ l)
    (hin : ∀ vpn ∈ l, vpn < n → ∃ q, pageView k' vpn = some (q, true) ∧ pageView k vpn = none)
    (hout : ∀ vpn < n, vpn ∉ l → pageView k' vpn = pageView k vpn) :
    ownPages k' n = ownPages k n + (List.range n).countP (· ∈ l) := by
  induction n with
  | zero => rfl
  | succ n ih =>
    rw [ownPages, ownPages, ih (fun vpn hmem hlt => hin vpn hmem (Nat.lt_succ_of_lt hlt))
      (fun vpn hlt => hout vpn (Nat.lt_succ_of_lt hlt)), List.range_succ, List.countP_append,
      List.countP_singleton]
    by_cases hmem : n ∈ l
    · obtain ⟨q, hnew, hold⟩ := hin n hmem (Nat.lt_succ_self n)
      have hne : n ≠ CONSOLE_ADDR / PAGESIZE := fun heq => hconsole (heq ▸ hmem)
      rw [hnew, hold, if_pos ⟨hne, rfl⟩, if_neg fun h => Bool.false_ne_true h.2,
        if_pos (decide_eq_true hmem)]
      omega
    · rw [hout n (Nat.lt_succ_self n) hmem, if_neg (c := decide (n ∈ l) = true)
        fun h => hmem (of_decide_eq_true h)]
      omega

/-- There are no more pages than physical memory has. -/
theorem freePages_length_le (L : Layout) (k : Kernel) : (freePages L k).length ≤ NPAGES := by
  refine (List.length_filter_le _ _).trans ?_
  rw [List.length_map, List.length_range]

end

end SystemsProjects.WeensyOS
