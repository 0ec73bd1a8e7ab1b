/-
SystemsProjects.WeensyOS.Fork — `syscall_fork` as a whole.

`syscallFork_cases` lists how the call ends: there is no slot or no page
for the root of the table, the pages run out while the table is built
(`ForkFailed`), or there is a child. The child's table is fit for a process,
so the invariant survives every outcome. That the counts of shared pages
can grow by one is all that is asked of them.
-/
import SystemsProjects.WeensyOS.ForkLoop

namespace SystemsProjects.WeensyOS

open SystemsProjects.Base
open SystemsProjects.Base.RadixTree

/-- The entry in `ptable` of a child of the running process. -/
def childProc (k : Kernel) (pt pid : Nat) : Proc :=
  { pagetable := pt, pid := pid, state := .runnable, regs := { k.cur.regs with rax := 0 } }

section

variable {L : Layout} {k₀ k k' : Kernel} {pid pt p : Nat} {lf : Nat → Nat}

theorem findFree_eq_some (h : findFree k = some pid) :
    0 < pid ∧ pid < PID_MAX ∧ (k.ptable pid).state = .free := by
  rw [findFree] at h
  have hmem := List.mem_range'_1.mp (List.mem_of_find?_eq_some h)
  exact ⟨hmem.1, show pid < 16 from hmem.2, by simpa using List.find?_some h⟩

/-! ## How it ends -/

/-- **`syscall_fork`** fails for want of a slot or of pages, or gives the
slot to a child. -/
theorem syscallFork_cases (hs : CanFork L k) :
    (syscallFork L k = .ok (-1, k) ∧ (findFree k = none ∨ freePages L k = [])) ∨
    (∃ k', syscallFork L k = .ok (-1, k') ∧ findFree k ≠ none ∧ ForkFailed L k k') ∨
    ∃ (pid pt : Nat) (k₁ : Kernel) (lf : Nat → Nat),
      syscallFork L k = .ok ((pid : Int), k₁.setProc pid (childProc k pt pid)) ∧
      findFree k = some pid ∧ Forking L k k₁ pt 0x300 lf := by
  cases hslot : findFree k with
  | none => exact .inl ⟨by rw [syscallFork, hslot], .inl rfl⟩
  | some pid =>
    cases hpages : freePages L k with
    | nil => exact .inl ⟨by rw [syscallFork, hslot]; simp only [kallocPagetable_nil hpages],
      .inr rfl⟩
    | cons pt l =>
      obtain ⟨k₁, halloc, hfree, hroot, hb⟩ := kallocPagetable_cons hpages
      rcases forkPagetable_spec hs hpages hb hroot hfree with
        ⟨k₂, hrun, lf, hforking⟩ | ⟨r, k₂, hrun, rfl, hfailed⟩
      · refine .inr (.inr ⟨pid, pt, k₂, lf, ?_, rfl, hforking⟩)
        have hcur : k₂.cur = k.cur := by
          rw [Kernel.cur, hforking.building.ptable, hforking.building.current, Kernel.cur]
        rw [syscallFork, hslot]
        simp only [halloc, hrun, ok_bind, hcur]
        rfl
      · refine .inr (.inl ⟨k₂, ?_, by simp, hfailed⟩)
        rw [syscallFork, hslot]
        simp only [halloc, hrun, ok_bind]
        rfl

/-- With pages enough for all copies the call succeeds. -/
theorem syscallFork_succeeds (hs : CanFork L k) (hslot : findFree k = some pid)
    (hroom : 5 + ownPages k 0x300 ≤ (freePages L k).length) :
    ∃ pt k₁ lf, syscallFork L k = .ok ((pid : Int), k₁.setProc pid (childProc k pt pid)) ∧
      Forking L k k₁ pt 0x300 lf := by
  rcases syscallFork_cases hs with
    ⟨-, hnone | hnil⟩ | ⟨k', -, -, hfailed⟩ | ⟨pid', pt, k₁, lf, hrun, hslot', hforking⟩
  · rw [hnone] at hslot
    cases hslot
  · rw [hnil, List.length_nil] at hroom
    omega
  · have hfew := hfailed.few
    omega
  · rw [hslot'] at hslot
    cases hslot
    exact ⟨pt, k₁, lf, hrun, hforking⟩

/-! ## A failed call -/

/-- A failed call changes no table, and no count of a page in use. -/
theorem Undone.keeps {spare : Nat → Int} (h : Undone L k₀ k spare) (hinv : Inv L k₀)
    (hused : ∀ p, ¬ Free L k₀ p → spare p = 0) (hone : ∀ p, spare p ≤ 1) : Keeps k₀ k where
  refs := by
    intro p hp hpos
    have hrefs := h.refs p hp
    rw [hused p fun hfree => Nat.ne_of_gt hpos hfree.2] at hrefs
    omega
  fresh := by
    intro p hp hzero
    have hrefs := h.refs p hp
    have hle := hone p
    omega
  tables := fun pid hlive p hp => h.mem p
    ((hinv.spaces pid hlive).tree.table_aligned hp) fun hfree =>
    hinv.free_not_table hlive hfree hp
  root := fun pid => by rw [Kernel.root, h.ptable]
  live := fun pid => by rw [Live, Live, h.ptable]

theorem ForkFailed.keeps (h : ForkFailed L k₀ k) (hinv : Inv L k₀) : Keeps k₀ k := by
  rcases h.undone with ⟨hundone, -⟩ | ⟨q, hq, hundone, -⟩
  · exact hundone.keeps hinv (fun _ _ => rfl) fun _ => by decide
  · refine hundone.keeps hinv (fun p hp => if_neg ?_) fun p => ?_
    · rintro rfl
      exact hp hq
    · show (if p = q then 1 else 0 : Int) ≤ 1
      split <;> decide

theorem ForkFailed.current (h : ForkFailed L k₀ k) : k.current = k₀.current := by
  rcases h.undone with ⟨hundone, -⟩ | ⟨q, -, hundone, -⟩
  · exact hundone.current
  · exact hundone.current

/-! ## A child -/

/-- A process with its stack page has pages from 2 MB on. -/
theorem Stacked.hasHigh (h : Stacked L k) (hs : CanFork L k) : hasHigh k 0x300 = true := by
  obtain ⟨q, hq, hentry⟩ := h k.current hs.live
  refine hasHigh_iff.mpr ⟨0x2FF, by decide, by decide, ?_⟩
  rw [hs.pageView_eq (by decide), hentry, entryPage_frameEntry hq]
  rfl

/-- **The child's table** is fit for a process. -/
theorem Forking.ready (h : Forking L k₀ k pt 0x300 lf) (hs : CanFork L k₀) (hstack : Stacked L k₀) :
    Ready L k₀ k pt lf where
  building := h.building
  tables := by
    rw [← hstack.hasHigh hs]
    exact h.tables
  entries := by
    intro vpn
    by_cases hvpn : vpn < 0x300 ∧ InUserRange vpn
    · have hcopy := h.below vpn hvpn.1 hvpn.2
      generalize leaf k₀.mem (k₀.root k₀.current) vpn = e at hcopy
      generalize lf vpn = e' at hcopy
      cases hcopy with
      | absent => exact .inl (kernelEntry_of_user hvpn.2).symm
      | @shared p hp => exact .inr ⟨hvpn.2, p, false, hp, rfl⟩
      | @copied p q _ hq _ => exact .inr ⟨hvpn.2, q, true, hq.1, rfl⟩
    · exact .inl (h.rest vpn hvpn)
  writable := by
    intro vpn p hvpn hp hentry
    have hcopy := h.below vpn hvpn.lt hvpn
    rw [hentry] at hcopy
    generalize leaf k₀.mem (k₀.root k₀.current) vpn = e at hcopy
    generalize heq : frameEntry p true = e' at hcopy
    cases hcopy with
    | absent =>
      have huser := userEntry_frameEntry hp.aligned true
      rw [heq] at huser
      exact absurd huser (by decide)
    | shared hq => exact absurd (frameEntry_inj hp.aligned hq.aligned heq).2 (by decide)
    | copied _ hq _ =>
      rw [(frameEntry_inj hp.aligned hq.1.aligned heq).1]
      exact hq
  shared := fun p hused hpos => (h.shared hs hused hpos).imp_right And.left

theorem Forking.counts (h : Forking L k₀ k pt 0x300 lf) (hs : CanFork L k₀)
    (hstack : Stacked L k₀) :
    (h.ready hs hstack).Counts :=
  fun _ hused hpos => (h.shared hs hused hpos).2.2

/-- The other slots stay. -/
theorem Forking.slots (h : Forking L k₀ k pt 0x300 lf) {i : Nat} (hne : i ≠ pid) :
    (k.setProc pid (childProc k₀ pt pid)).ptable i = k₀.ptable i := by
  rw [Kernel.setProc, h.building.ptable]
  exact Function.update_of_ne hne _ _

/-- **A successful `fork`** keeps the invariant. -/
theorem Forking.inv (h : Forking L k₀ k pt 0x300 lf) (hs : CanFork L k₀) (hstack : Stacked L k₀)
    (hslot : findFree k₀ = some pid) : Inv L (k.setProc pid (childProc k₀ pt pid)) := by
  obtain ⟨-, hpid, hfree⟩ := findFree_eq_some hslot
  exact (h.ready hs hstack).inv hs.inv (h.counts hs hstack) hpid hfree rfl

theorem Forking.exact (h : Forking L k₀ k pt 0x300 lf) (hs : CanFork L k₀) (hstack : Stacked L k₀)
    (hexact : Exact k₀) (hslot : findFree k₀ = some pid) :
    Exact (k.setProc pid (childProc k₀ pt pid)) := by
  obtain ⟨-, hpid, hfree⟩ := findFree_eq_some hslot
  exact (h.ready hs hstack).exact hs.inv hexact hpid hfree rfl fun h => nomatch h

/-- The child has a stack page as its parent has. -/
theorem Forking.stacked (h : Forking L k₀ k pt 0x300 lf) (hs : CanFork L k₀)
    (hstack : Stacked L k₀) : Stacked L (k.setProc pid (childProc k₀ pt pid)) := by
  refine (h.ready hs hstack).stacked hs.inv hstack rfl ?_
  obtain ⟨q, hq, hentry⟩ := hstack k₀.current hs.live
  have hrange : InUserRange 0x2FF := ⟨by decide, by decide⟩
  have hcopy := h.below 0x2FF (by decide) hrange
  rw [hentry] at hcopy
  generalize lf 0x2FF = e' at hcopy ⊢
  generalize heq : frameEntry q true = e at hcopy
  cases hcopy with
  | absent =>
    have huser := userEntry_frameEntry hq.aligned true
    rw [heq] at huser
    exact absurd huser (by decide)
  | shared hr => exact absurd (frameEntry_inj hq.aligned hr.aligned heq).2 (by decide)
  | @copied _ r _ hr _ => exact ⟨r, hr.1, rfl⟩

end

end SystemsProjects.WeensyOS
