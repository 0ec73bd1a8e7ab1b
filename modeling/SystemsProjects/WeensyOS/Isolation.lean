/-
SystemsProjects.WeensyOS.Isolation — processes are isolated, as long as no
page has more references than there are processes.

What a process may write is its own alone, and nothing that a process uses
is handed out again. This follows from the invariant of runs
(`Steady.isolated`), whose one condition is that `fork` counts no page
beyond `PID_MAX`. Processes alone do not get there; lost references do: a
child that allocates a page over a shared one leaves its reference behind,
and one that forks and exits often enough meets the bound.
-/
import SystemsProjects.WeensyOS.ForkExit

namespace SystemsProjects.WeensyOS

open SystemsProjects.Base
open SystemsProjects.Base.RadixTree

/-- Process `pid` may access the page at `p`, at address `va`. -/
def Accesses (k : Kernel) (pid va p : Nat) (w : Bool) : Prop :=
  va % PAGESIZE = 0 ∧ va < 2 ^ 64 ∧ userPage k.mem (k.root pid) va = some (p, w)

/-- **Isolation.** -/
structure Isolated (L : Layout) (k : Kernel) : Prop where
  own : ∀ pid pid' va va' p w, Live k pid → Live k pid' → p ≠ CONSOLE_ADDR →
    Accesses k pid va p true → Accesses k pid' va' p w → pid = pid' ∧ va = va'
  counted : ∀ pid p, Live k pid →
    p ≠ CONSOLE_ADDR ∧ (∃ va w, Accesses k pid va p w) ∨ IsTable k.mem (k.root pid) p → 0 < k.refs p
  kept : ∀ pid p, Live k pid → (∃ va w, Accesses k pid va p w) ∨ IsTable k.mem (k.root pid) p →
    ∀ k', kalloc L PAGESIZE k ≠ (some p, k')
  pages : ∀ pid va p w, Live k pid → p ≠ CONSOLE_ADDR → Accesses k pid va p w →
    IsPage L p ∧ ∀ pid', Live k pid' → ¬ IsTable k.mem (k.root pid') p
  bounded : ∀ n, k.physpages n ≤ PID_MAX

section

variable {L : Layout} {P : Programs} {command : Option String} {mem : ByteMem} {k k' : Kernel}
  {pid va p : Nat} {w : Bool}

/-- What a process may access, the console apart, is a frame of it. -/
theorem Accesses.entry (h : Accesses k pid va p w) (hinv : Inv L k) (hlive : Live k pid)
    (hne : p ≠ CONSOLE_ADDR) : InUserRange (va / 4096) ∧ IsPage L p ∧
      leaf k.mem (k.root pid) (va / 4096) = frameEntry p w := by
  obtain ⟨hva, hlt, hview⟩ := h
  rcases ((hinv.spaces pid hlive).userPage_eq_some hva hlt).mp hview with
    ⟨-, hconsole, -⟩ | ⟨hlow, hhigh, hp, hentry⟩
  · exact absurd hconsole hne
  · exact ⟨(ValidAddr.mk hva hlow hhigh).inUserRange, hp, hentry⟩

/-- **A steady kernel** with bounded counts isolates its processes. -/
theorem Steady.isolated (h : Steady L k) (hcounts : ∀ p, p % 4096 = 0 → k.refs p ≤ PID_MAX) :
    Isolated L k where
  own := by
    intro pid pid' va va' p w hlive hlive' hne hmaps hmaps'
    obtain ⟨hvpn, hp, hentry⟩ := hmaps.entry h.inv hlive hne
    obtain ⟨hvpn', -, hentry'⟩ := hmaps'.entry h.inv hlive' hne
    by_cases hpid : pid = pid'
    · subst hpid
      have heq := h.inv.mapped_once hlive hvpn hvpn' hp hentry hentry'
      have hva : va % 4096 = 0 := hmaps.1
      have hva' : va' % 4096 = 0 := hmaps'.1
      exact ⟨rfl, by omega⟩
    · have hzero := h.inv.private_alone hlive hlive' hpid (.inr ⟨hp, _, hvpn, hentry⟩)
      exact absurd hzero (Nat.ne_of_gt (holds_of_entry hvpn' hp hentry'))
  counted := by
    rintro pid p hlive (⟨hne, va, w, hmaps⟩ | ht)
    · obtain ⟨hvpn, hp, hentry⟩ := hmaps.entry h.inv hlive hne
      exact h.inv.refs_pos hlive (holds_of_entry hvpn hp hentry)
    · exact h.inv.refs_pos hlive (holds_pos.mpr (.inl ht))
  kept := by
    intro pid p hlive hused k' halloc
    rcases kalloc_cases L k with ⟨hnone, -⟩ | ⟨q, hq, -, hsome⟩
    · rw [hnone] at halloc
      cases halloc
    · rw [hsome] at halloc
      obtain rfl : q = p := Option.some.inj (congrArg Prod.fst halloc)
      rcases hused with ⟨va, w, hmaps⟩ | ht
      · have hne : q ≠ CONSOLE_ADDR := by
          rintro rfl
          exact absurd hq.1.bounds.2.2.1 (by decide)
        obtain ⟨hvpn, hp, hentry⟩ := hmaps.entry h.inv hlive hne
        exact h.inv.not_free hlive (holds_of_entry hvpn hp hentry) hq
      · exact h.inv.free_not_table hlive hq ht
  pages := by
    intro pid va p w hlive hne hmaps
    obtain ⟨hvpn, hp, hentry⟩ := hmaps.entry h.inv hlive hne
    exact ⟨hp, fun pid' hlive' => h.inv.frame_not_table hlive hlive' hvpn hp hentry⟩
  bounded := by
    intro n
    have hcount := hcounts (n * 4096) (Nat.mul_mod_left n 4096)
    rwa [Kernel.refs, Nat.mul_div_cancel n (by decide)] at hcount

theorem Reaches.bounded (h : Reaches L P command mem (CountedForks PID_MAX) k) :
    Steady L k ∧ ∀ p, p % 4096 = 0 → k.refs p ≤ PID_MAX := by
  induction h with
  | boot h => exact ⟨h.sane.steady, fun p hp => h.sane.refs_le hp⟩
  | step _ hok hstep ih =>
    obtain ⟨hs, hcounts⟩ := ih
    exact ⟨step_steady hs ⟨hok.1, hok.2.mono (by decide)⟩ hstep,
      step_counts hs (by decide) (by decide) hok hcounts hstep⟩

/-- **Processes are isolated** in every run in which no `fork` shares a
page that has `PID_MAX` references. -/
theorem processes_isolated (h : Reaches L P command mem (CountedForks PID_MAX) k) : Isolated L k :=
  h.bounded.1.isolated h.bounded.2

/-! ## A child that allocates a page and exits -/

theorem allocValid_other {rax rdi : Nat} (hne : rax ≠ SYSCALL_PAGE_ALLOC) :
    AllocValid (.syscall (callRegs rax rdi)) := fun hcall => absurd hcall hne

theorem validAddr_page : ValidAddr 0x100000 := ⟨by decide, by decide, by decide⟩

/-- A child of its own for process 1, on its turn: its table shares the page
at `p`, and nothing else has changed. -/
structure Turn (L : Layout) (k₀ k : Kernel) (p : Nat) : Prop where
  steady : Steady L k
  paired : Paired k
  current : k.current = 2
  since : Since L k₀ k 2 fun _ => 0
  shared : leaf k.mem (k.root 2) 0x100 = frameEntry p false
  room : freePages L k ≠ []

/-- The child comes to its turn. -/
theorem Alone.turn (hs : Steady L k) (halone : Alone L k false p) (hcount : k.refs p < 255)
    (hroom : 7 ≤ (freePages L k).length) :
    ∃ k₁ k', step L (.syscall (callRegs SYSCALL_FORK 0)) k = .ok k₁ ∧
      step L (.syscall (callRegs SYSCALL_YIELD 0)) k₁ = .ok k' ∧
      Turn L (saveRegs (callRegs SYSCALL_FORK 0) k) k' p := by
  obtain ⟨hcan, pt, k₁, lf, hfork, hforking⟩ :=
    halone.fork hs hcount hroom (callRegs SYSCALL_FORK 0)
  have hs₀ := hs.saveRegs (callRegs SYSCALL_FORK 0)
  have halone₀ := halone.save (callRegs SYSCALL_FORK 0)
  have hs₁ := hforking.steady hcan hs₀.stack halone₀.slot
  have hsince : Since L (saveRegs (callRegs SYSCALL_FORK 0) k)
      (k₁.setProc 2 (childProc (saveRegs (callRegs SYSCALL_FORK 0) k) pt 2)) 2 fun _ => 0 :=
    hforking.since hcan hs₀.stack
  have hpaired := halone.paired hforking
  have hcur : k₁.current = 1 := hforking.building.current.trans halone.current
  have hstep : step L (.syscall (callRegs SYSCALL_FORK 0)) k =
      .ok (k₁.setProc 2 (childProc (saveRegs (callRegs SYSCALL_FORK 0) k) pt 2)) := by
    rw [step_fork rfl, hfork]
    rfl
  -- the page is shared
  have hentry : lf 0x100 = frameEntry p false := by
    have hcopy := hforking.below 0x100 (by decide) ⟨by decide, by decide⟩
    rw [halone₀.current, halone₀.page.2] at hcopy
    exact hcopy.eq_readOnly halone.page.1
  have hfree : freePages L k₁ ≠ [] := by
    intro hnil
    have hlen := congrArg List.length hforking.free
    have hhigh : hasHigh (saveRegs (callRegs SYSCALL_FORK 0) k) 0x300 = true :=
      hs₀.stack.hasHigh hcan
    rw [hnil, (halone₀.own hs₀).2, if_pos hhigh, List.length_drop, List.length_nil,
      freePages_congr (saveRegs_alike _ k).physpages] at hlen
    have hlen : 0 = (freePages L k).length - 6 := hlen
    omega
  obtain ⟨k', hyield, hpaired', hcur'⟩ := hpaired.yield (L := L) hcur
  obtain ⟨halike, hlive'⟩ := step_idle hs₁ (e := .syscall (callRegs SYSCALL_YIELD 0)) rfl hyield
  refine ⟨_, k', hstep, hyield, halike.steady hlive' hs₁.inv hs₁.stack, hpaired', hcur',
    hsince.alike halike, ?_, ?_⟩
  · rw [halike.mem, halike.root, setProc_mem, setProc_root]
    exact (congrFun hforking.building.leaf 0x100).trans hentry
  · rw [freePages_congr halike.physpages]
    exact hfree

/-- **The child allocates a page over the shared one and exits**: its
parent runs on as before, but for one more reference. -/
theorem Turn.exit {k₀ : Kernel} (h : Turn L k₀ k p) (hs₀ : Steady L k₀)
    (halone : Alone L k₀ false p) :
    ∃ k₁ k', step L (.syscall (callRegs SYSCALL_PAGE_ALLOC 0x100000)) k = .ok k₁ ∧
      step L (.syscall (callRegs SYSCALL_EXIT 0)) k₁ = .ok k' ∧ Steady L k' ∧ Alone L k' false p ∧
      k'.refs p = k₀.refs p + 1 ∧ freePages L k' = freePages L k₀ := by
  have hva := validAddr_page
  let regs := callRegs SYSCALL_PAGE_ALLOC 0x100000
  have halike := saveRegs_alike regs k
  have hs₁ := h.steady.saveRegs regs
  have hsince₁ := h.since.alike halike
  -- the page that the child gets
  rcases syscallPageAlloc_spec hs₁.inv hs₁.live hva with ⟨-, hout⟩ | ⟨k₁, q, hrun, hall⟩
  · rw [outOfPages_iff, freePages_congr halike.physpages] at hout
    exact absurd hout h.room
  have hstep₁ : step L (.syscall regs) k = .ok k₁ := by
    have hrun : syscallPageAlloc L regs.rdi (saveRegs regs k) = .ok (0, k₁) := hrun
    rw [step_pageAlloc rfl, hrun]
    rfl
  have hs₂ := (hs₁.allocated hva hall).saveRegs (callRegs SYSCALL_EXIT 0)
  have hcur₁ : k₁.current = 2 := hall.current.trans h.current
  have hsince₂ := (hsince₁.alloc h.current hva hall).alike
    (saveRegs_alike (callRegs SYSCALL_EXIT 0) k₁)
  have hpaired₁ : Paired k₁ := by
    have hpaired := h.paired.saveRegs SYSCALL_PAGE_ALLOC 0x100000
    exact ⟨by rw [hall.ptable]; exact hpaired.pids, by rw [hall.ptable]; exact hpaired.runnable,
      by rw [hall.ptable]; exact hpaired.regs, by rw [hall.ptable]; exact hpaired.free⟩
  -- its exit
  obtain ⟨k₂, hexit, hexited⟩ := syscallExit_spec hs₂
  have hcur₂ : k₂.current = 2 := hexited.current.trans hcur₁
  obtain ⟨hsched, hpid, hrunnable, hfree⟩ :=
    (hpaired₁.saveRegs SYSCALL_EXIT 0).exit hcur₁ hexited hcur₂
  have hstep₂ : step L (.syscall (callRegs SYSCALL_EXIT 0)) k₁ = .ok { k₂ with current := 1 } := by
    rw [step_exit rfl, hexit]
    exact hsched
  obtain ⟨-, hrefs, hslots, hmem⟩ := hsince₂.exit hcur₁ hexited
  have hlive₀ : Live k₀ 1 := by
    rw [← halone.current]
    exact hs₀.live
  have hsame := hs₀.inv.sameMemory hlive₀ (hslots 1 (by decide)).1 hmem
  have hleaf : leaf k₂.mem (k₂.root 1) = leaf k₀.mem (k₀.root 1) := by
    rw [hsame.root]
    funext vpn
    exact hsame.tables.leaf vpn
  have hlost : ∀ p', p' % 4096 = 0 → k₂.refs p' = k₀.refs p' + if p' = p then 1 else 0 := by
    intro p' hp'
    have hlost : frameRef (0x100000 / 4096)
        (leaf (saveRegs regs k).mem ((saveRegs regs k).root 2) (0x100000 / 4096)) p' =
        if p' = p then 1 else 0 := by
      rw [halike.mem, halike.root]
      exact (congrArg (frameRef 0x100 · p') h.shared).trans
        (frameRef_frameEntry ⟨by decide, by decide⟩ halone.page.1 p')
    rw [hrefs p' hp', Nat.zero_add, hlost]
  obtain ⟨hafter, hlive⟩ := schedule_alike hsched
  have hpos : 0 < k₀.refs p := hs₀.inv.refs_pos hlive₀
    (holds_of_entry ⟨by decide, by decide⟩ halone.page.1 halone.page.2)
  refine ⟨k₁, { k₂ with current := 1 }, hstep₁, hstep₂,
    hafter.steady hlive (hexited.inv hs₂) (hexited.stacked hs₂),
    ⟨rfl, hpid, hrunnable, hfree, ?_, ?_, ?_⟩, ?_, ?_⟩
  · exact ⟨halone.page.1, (congrFun hleaf _).trans halone.page.2⟩
  · obtain ⟨q', hq', hentry⟩ := halone.stack
    exact ⟨q', hq', (congrFun hleaf _).trans hentry⟩
  · exact fun vpn h1 h2 => (congrFun hleaf _).trans (halone.others vpn h1 h2)
  · show k₂.refs p = _
    rw [hlost p halone.page.1.aligned, if_pos rfl]
  · refine List.filter_congr fun p' hp' => decide_eq_decide.mpr (and_congr_right fun hpage => ?_)
    show k₂.refs p' = 0 ↔ _
    rw [hlost p' hpage.aligned]
    split
    · rename_i heq
      rw [heq]
      omega
    · rfl

/-- One page has no reference but that of the process. -/
theorem Alone.refs_le {w : Bool} (h : Alone L k w p) (hs : Sane L k) {q : Nat}
    (hq : q % 4096 = 0) : k.refs q ≤ 1 := by
  have hshares : ∀ pid, shares k pid q ≤ if pid = 1 then 1 else 0 := by
    intro pid
    by_cases hpid : pid = 1
    · rw [if_pos hpid, shares]
      split
      · exact hs.inv.once pid (by assumption) q
      · exact Nat.zero_le _
    · rw [if_neg hpid, shares, if_neg fun hlive => hlive.2 (h.free pid hpid)]
  have htotal : total k q ≤ 1 := by
    calc total k q ≤ ∑ pid ∈ Finset.range 16, if pid = 1 then 1 else 0 :=
          Finset.sum_le_sum fun pid _ => hshares pid
      _ = 1 := by decide
  by_contra hle
  rw [hs.exact q hq (.inr (by omega))] at hle
  exact hle htotal

/-- The child of a process that is alone: a `FORK`, a `PAGE_ALLOC` over the
shared page, an `EXIT`. -/
theorem processes_isolated_exited :
    ∃ k k₁ k₂ k₃ k₄ p, kernelStart smallLayout (pageProgram false) none zeroed = .ok k ∧
      step smallLayout (.syscall (callRegs SYSCALL_FORK 0)) k = .ok k₁ ∧
      step smallLayout (.syscall (callRegs SYSCALL_YIELD 0)) k₁ = .ok k₂ ∧
      step smallLayout (.syscall (callRegs SYSCALL_PAGE_ALLOC 0x100000)) k₂ = .ok k₃ ∧
      step smallLayout (.syscall (callRegs SYSCALL_EXIT 0)) k₃ = .ok k₄ ∧
      k₄.refs p = k.refs p + 1 ∧ Isolated smallLayout k₄ := by
  obtain ⟨k, p, hboots, halone, hroom⟩ := boots_pageProgram false
  have hsane := hboots.sane
  have hcount := halone.refs_le hsane halone.page.1.aligned
  have halike := saveRegs_alike (callRegs SYSCALL_FORK 0) k
  obtain ⟨k₁, k₂, hfork, hyield, hturn⟩ :=
    halone.turn hsane.steady (by omega) (Nat.le_trans (by decide) hroom)
  obtain ⟨k₃, k₄, halloc, hexit, -, -, hrefs, -⟩ :=
    hturn.exit (hsane.steady.saveRegs _) (halone.save _)
  rw [halike.refs] at hrefs
  have hshare : SharesBelow k PID_MAX := halone.sharesBelow hsane.steady
    (Nat.lt_of_le_of_lt hcount (by decide))
  have hother : ∀ {rax rdi : Nat} (k : Kernel), rax ≠ SYSCALL_FORK →
      ForkBelow PID_MAX k (.syscall (callRegs rax rdi)) := fun _ hne hcall => absurd hcall hne
  have hreach : Reaches smallLayout (pageProgram false) none zeroed (CountedForks PID_MAX) k₄ :=
    Reaches.boot hboots
      |>.step ⟨allocValid_other (by decide), fun _ => .inr hshare⟩ hfork
      |>.step ⟨allocValid_other (by decide), hother _ (by decide)⟩ hyield
      |>.step ⟨fun _ => validAddr_page, hother _ (by decide)⟩ halloc
      |>.step ⟨allocValid_other (by decide), hother _ (by decide)⟩ hexit
  exact ⟨k, k₁, k₂, k₃, k₄, p, hboots.kernelStart, hfork, hyield, halloc, hexit, hrefs,
    processes_isolated hreach⟩

/-! ## References that are lost -/

/-- **As often as the count has room**, a reference is lost. -/
theorem Alone.loses (h : Reaches L P command mem (fun _ => AllocValid) k) (hs : Steady L k)
    (halone : Alone L k false p) (hroom : 7 ≤ (freePages L k).length) {n : Nat}
    (hn : k.refs p + n ≤ 255) :
    ∃ k', Reaches L P command mem (fun _ => AllocValid) k' ∧ k'.refs p = k.refs p + n := by
  induction n generalizing k with
  | zero => exact ⟨k, h, rfl⟩
  | succ n ih =>
    obtain ⟨k₁, k₂, hfork, hyield, hturn⟩ := halone.turn hs (by omega) hroom
    have halike := saveRegs_alike (callRegs SYSCALL_FORK 0) k
    obtain ⟨k₃, k₄, halloc, hexit, hs₂, halone₂, hrefs, hfree⟩ :=
      hturn.exit (hs.saveRegs _) (halone.save _)
    have hyielded := (h.step (allocValid_other (by decide)) hfork).step
      (allocValid_other (by decide)) hyield
    have halloced := hyielded.step (e := .syscall (callRegs SYSCALL_PAGE_ALLOC 0x100000))
      (fun _ => validAddr_page) halloc
    have hreach := halloced.step (allocValid_other (by decide)) hexit
    rw [freePages_congr halike.physpages] at hfree
    rw [halike.refs] at hrefs
    obtain ⟨k', hreach', hcount⟩ := ih hreach hs₂ halone₂ (by rw [hfree]; exact hroom) (by omega)
    exact ⟨k', hreach', by omega⟩

theorem processes_not_isolated :
    ¬ ∀ (L : Layout) (P : Programs) (command : Option String) (mem : ByteMem) (k : Kernel),
      Reaches L P command mem (fun _ => AllocValid) k → Isolated L k := by
  intro hall
  obtain ⟨k, p, hboots, halone, hroom⟩ := boots_pageProgram false
  have hsane := hboots.sane
  have hcount := hsane.refs_le halone.page.1.aligned
  have hlive : Live k 1 := by
    rw [← halone.current]
    exact hsane.live
  have hpos : 0 < k.refs p := hsane.inv.refs_pos hlive
    (holds_of_entry ⟨by decide, by decide⟩ halone.page.1 halone.page.2)
  have hcount : k.refs p ≤ 16 := hcount
  obtain ⟨k', hreach, hrefs⟩ := halone.loses (.boot hboots) hsane.steady
    (Nat.le_trans (by decide) hroom) (n := 16) (by omega)
  have hbounded : k'.refs p ≤ 16 := (hall _ _ _ _ k' hreach).bounded (p / 4096)
  omega

end

end SystemsProjects.WeensyOS
