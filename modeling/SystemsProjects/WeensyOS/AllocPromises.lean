/-
SystemsProjects.WeensyOS.AllocPromises — what `sys_page_alloc` promises and
the kernel does not keep.

The call takes a page before it looks at the address, checks nothing about
the address, and never gives back a page, neither the new one on failure
nor the one mapped before. A call that has a page to take therefore never
leaves the counts as they were, and never lets one fall. The promises hold
where the kernel is out of pages, and nowhere else.
-/
import SystemsProjects.WeensyOS.Startup

namespace SystemsProjects.WeensyOS

open SystemsProjects.Base
open SystemsProjects.Base.RadixTree

/-! ## The counts -/

section

variable {L : Layout} {k k' : Kernel} {addr p : Nat} {r : Int}

theorem tryMapAt_drawn {root va pa perm : Nat} (h : tryMapAt L root va pa perm k = .ok (r, k')) :
    ∃ l, Drawn L k k' l := by
  rw [tryMapAt] at h
  obtain ⟨it, -, h⟩ := bind_eq_ok h
  obtain ⟨out, htry, h⟩ := bind_eq_ok h
  cases h
  exact tryMap_drawn htry

/-- **`syscall_page_alloc`** returns -1 if no page is free; otherwise it
takes pages, whatever it returns. -/
theorem syscallPageAlloc_drawn (L : Layout) (addr : Nat) (k : Kernel) :
    (OutOfPages L k ∧ syscallPageAlloc L addr k = .ok (-1, k)) ∨
      ¬ OutOfPages L k ∧ ∀ r k', syscallPageAlloc L addr k = .ok (r, k') →
        ∃ q l, Drawn L k k' (q :: l) := by
  cases hfree : freePages L k with
  | nil =>
    refine .inl ⟨outOfPages_iff.mpr hfree, ?_⟩
    rw [syscallPageAlloc, kalloc_nil hfree]
  | cons q rest =>
    refine .inr ⟨fun hout => ?_, fun r k' h => ?_⟩
    · rw [outOfPages_iff, hfree] at hout
      cases hout
    · rw [syscallPageAlloc, kalloc_cons hfree] at h
      obtain ⟨⟨r', k₁⟩, htry, h⟩ := bind_eq_ok h
      obtain ⟨l, hl⟩ := tryMapAt_drawn htry
      have hmemset : Drawn L (k.take q) ((k.take q).memset q 0 PAGESIZE) [] := .of_physpages rfl
      have hall := (Drawn.take hfree).trans (hmemset.trans hl)
      have hk : k' = k₁ := by
        by_cases hneg : r' < 0
        · simp only [if_pos hneg] at h
          cases h
          rfl
        · simp only [if_neg hneg] at h
          cases h
          rfl
      rw [hk]
      exact ⟨q, l, hall⟩

/-- A page that was taken shows in the counts. -/
theorem Drawn.physpages_ne {q : Nat} {l : List Nat} (h : Drawn L k k' (q :: l)) :
    k'.physpages ≠ k.physpages := by
  intro heq
  have hq : Free L k q := h.free List.mem_cons_self
  have hone := h.refs q hq.1.aligned
  rw [if_pos List.mem_cons_self, Kernel.refs, heq] at hone
  exact absurd (hone.symm.trans hq.2) Nat.one_ne_zero

/-! ## Invalid addresses -/

/-- The call returns a negative code, and leaves all as it was. -/
def Refuses (L : Layout) (k : Kernel) (addr : Nat) : Prop :=
  ∃ r k', syscallPageAlloc L addr k = .ok (r, k') ∧ r < 0 ∧
    k'.mem = k.mem ∧ k'.physpages = k.physpages ∧ k'.ptable = k.ptable

theorem Refuses.out (h : Refuses L k addr) : OutOfPages L k := by
  obtain ⟨r, k', hrun, -, -, hphys, -⟩ := h
  rcases syscallPageAlloc_drawn L addr k with ⟨hout, -⟩ | ⟨-, hdrawn⟩
  · exact hout
  · -- the page that was taken stays taken
    obtain ⟨q, l, h⟩ := hdrawn r k' hrun
    exact absurd hphys h.physpages_ne

/-- **An address is refused**, valid or not, exactly if no page is free. -/
theorem pageAlloc_refuses_iff (L : Layout) (k : Kernel) (addr : Nat) :
    Refuses L k addr ↔ OutOfPages L k := by
  refine ⟨Refuses.out, fun hout => ?_⟩
  rcases syscallPageAlloc_drawn L addr k with ⟨-, hrun⟩ | ⟨hsome, -⟩
  · exact ⟨-1, k, hrun, by decide, rfl, rfl, rfl⟩
  · exact absurd hout hsome

theorem tryMapAt_misaligned {root va pa perm : Nat} (ht : Tree k.mem root) (hva : va % 4096 ≠ 0) :
    tryMapAt L root va pa perm k = .error .assertion := by
  obtain ⟨it, hnew⟩ : ∃ it, VmIter.new k.mem root va = .ok it := by
    by_cases hcanon : vaIsCanonical va = true
    · obtain ⟨d, q, -, hnew⟩ := VmIter.new_spec ht hcanon
      exact ⟨_, hnew⟩
    · exact ⟨_, VmIter.new_of_not_canonical k.mem root hcanon⟩
  have hfails : ¬ it.va_ % PAGESIZE = 0 := by
    rw [VmIter.va_of_new hnew]
    exact hva
  rw [tryMapAt, hnew, ok_bind, VmIter.tryMap, assert, if_neg hfails]
  rfl

/-- **An address that is not page-aligned** fails an assertion of
`try_map`, if a page is free. -/
theorem Sane.pageAlloc_asserts (h : Sane L k) (hout : ¬ OutOfPages L k) (haddr : addr % 4096 ≠ 0) :
    syscallPageAlloc L addr k = .error .assertion := by
  cases hfree : freePages L k with
  | nil => exact absurd (outOfPages_iff.mpr hfree) hout
  | cons q rest =>
    have hq : Free L k q := mem_freePages.mp (hfree ▸ List.mem_cons_self)
    have hspace := h.inv.spaces k.current h.live
    have hsame : SameTables k.mem ((k.take q).memset q 0 PAGESIZE).mem (k.root k.current) := by
      intro p hp
      have hal := hspace.tree.table_aligned hp
      have hne : p ≠ q := by
        rintro rfl
        exact h.inv.free_not_table h.live hq hp
      exact (samePage_fill hal hq.1.aligned hne).trans (samePage_fill hal hq.1.aligned hne)
    rw [syscallPageAlloc, kalloc_cons hfree]
    show (tryMapAt L (k.root k.current) addr q _ _ >>= _) = _
    rw [tryMapAt_misaligned (hsame.tree hspace.tree) haddr]
    rfl

/-- A kernel that runs its first process asserts on one address, and does
not refuse the console's. -/
theorem pageAlloc_accepts_booted :
    ∃ k, kernelStart smallLayout (emptySegment 0x100000 0x1000) none zeroed = .ok k ∧
      syscallPageAlloc smallLayout 0x100001 k = .error .assertion ∧
      ¬ Refuses smallLayout k 0x100001 ∧ ¬ Refuses smallLayout k CONSOLE_ADDR := by
  obtain ⟨k, q, hboots, hout, -⟩ := boots_emptySegment
  exact ⟨k, hboots.kernelStart, hboots.sane.pageAlloc_asserts hout (by decide),
    fun h => hout h.out, fun h => hout h.out⟩

end

/-! ## Addresses that are mapped -/

/-- Page-aligned addresses are mapped to page-aligned addresses. -/
theorem look_aligned {mem : ByteMem} {root va pa perm : Nat} (hva : va % 4096 = 0)
    (h : look mem root va = .ok (pa, perm)) (hperm : perm ≠ 0) : pa % 4096 = 0 := by
  rw [look] at h
  obtain ⟨it, hnew, h⟩ := bind_eq_ok h
  have hitva : it.va_ = va := VmIter.va_of_new hnew
  cases h
  have hpresent : it.pe mem &&& PTE_P ≠ 0 := by
    intro hzero
    refine hperm ?_
    have hph : it.pe mem &&& it.perm_ &&& PTE_P = 0 := by
      rw [Nat.and_assoc, Nat.and_comm it.perm_, ← Nat.and_assoc, hzero, Nat.zero_and]
    rw [VmIter.perm, hph]
    exact Nat.and_zero _
  have hand : ∀ a m, a % 4096 = 0 → (a &&& m) % 4096 = 0 := by
    intro a m ha
    rw [show 4096 = 2 ^ 12 from rfl, Nat.and_mod_two_pow, show a % 2 ^ 12 = 0 from ha, Nat.zero_and]
  have hbase : (if it.lbits_ > PAGEOFFBITS then
      (it.pe mem &&& PTE_PAMASK) &&&
      (2 ^ 64 - 1 - 0x1000) else it.pe mem &&& PTE_PAMASK) % 4096 = 0 := by
    split
    · exact hand _ _ (pamask_aligned _)
    · exact pamask_aligned _
  have hoff : (it.va_ &&& lbitsMask it.lbits_) % 4096 = 0 := hand _ _ (by rw [hitva]; exact hva)
  rw [VmIter.pa, if_pos hpresent, Nat.add_mod, hbase, hoff]

/-- The call at `addr`, mapped to the frame `p`, does as promised: if it
succeeds, `addr` is mapped to a zeroed frame that nobody mapped, and one
reference of `p` is given back; if it fails, no mapping and no count has
changed. -/
def Replaces (L : Layout) (k : Kernel) (addr p : Nat) : Prop :=
  ∃ r k', syscallPageAlloc L addr k = .ok (r, k') ∧
    (0 ≤ r →
      (∃ q, look k'.mem k.cur.pagetable addr = .ok (q, PTE_P ||| PTE_W ||| PTE_U) ∧
        (∀ i < PAGESIZE, k'.mem (q + i) = 0) ∧
        ∀ pid, Live k pid → ∀ va perm, look k.mem (k.root pid) va = .ok (q, perm) →
          perm &&& (PTE_P ||| PTE_U) ≠ PTE_P ||| PTE_U) ∧
      k'.refs p + 1 = k.refs p ∧ (k.refs p = 1 → Free L k' p)) ∧
    (r < 0 → (∀ pid va, look k'.mem (k'.root pid) va = look k.mem (k.root pid) va) ∧
      k'.physpages = k.physpages)

section

variable {L : Layout} {k : Kernel} {addr p perm : Nat}

theorem Replaces.out (h : Replaces L k addr p) (hp : p % 4096 = 0) : OutOfPages L k := by
  obtain ⟨r, k', hrun, hsuccess, hfailure⟩ := h
  rcases syscallPageAlloc_drawn L addr k with ⟨hout, -⟩ | ⟨-, hdrawn⟩
  · exact hout
  · exfalso
    obtain ⟨q, l, h⟩ := hdrawn r k' hrun
    by_cases hneg : r < 0
    · exact h.physpages_ne (hfailure hneg).2
    · have hle := h.refs_le hp
      have hfell := (hsuccess (Int.not_lt.mp hneg)).2.1
      omega

/-- **A mapped address is replaced as promised** exactly if no page is
free, where the call fails: otherwise no reference of the old frame is
given back. -/
theorem pageAlloc_replaces_iff (hva : ValidAddr addr)
    (hmapped : look k.mem k.cur.pagetable addr = .ok (p, perm))
    (huser : perm &&& (PTE_P ||| PTE_U) = PTE_P ||| PTE_U) :
    Replaces L k addr p ↔ OutOfPages L k := by
  have hperm : perm ≠ 0 := by
    rintro rfl
    exact absurd huser (by decide)
  refine ⟨fun h => h.out (look_aligned hva.aligned hmapped hperm), fun hout => ?_⟩
  rcases syscallPageAlloc_drawn L addr k with ⟨-, hrun⟩ | ⟨hsome, -⟩
  · exact ⟨-1, k, hrun, fun h => absurd h (by decide), fun _ => ⟨fun _ _ => rfl, rfl⟩⟩
  · exact absurd hout hsome

end

/-- The stack page of the first process. -/
theorem pageAlloc_replaces_iff_booted :
    ∃ k q, kernelStart smallLayout (emptySegment 0x100000 0x1000) none zeroed = .ok k ∧
      (Replaces smallLayout k 0x2FF000 q ↔ OutOfPages smallLayout k) := by
  obtain ⟨k, q, hboots, -, hmapped⟩ := boots_emptySegment
  exact ⟨k, q, hboots.kernelStart,
    pageAlloc_replaces_iff ⟨by decide, by decide, by decide⟩ hmapped (by decide)⟩

/-- The same page, allocated again, is not given back. -/
theorem pageAlloc_keeps_old_booted :
    ∃ k q, kernelStart smallLayout (emptySegment 0x100000 0x1000) none zeroed = .ok k ∧
      ValidAddr 0x2FF000 ∧
      look k.mem k.cur.pagetable 0x2FF000 = .ok (q, PTE_P ||| PTE_W ||| PTE_U) ∧
      ¬ Replaces smallLayout k 0x2FF000 q := by
  obtain ⟨k, q, hboots, hout, hmapped⟩ := boots_emptySegment
  exact ⟨k, q, hboots.kernelStart, ⟨by decide, by decide, by decide⟩, hmapped,
    fun h => hout (h.out (look_aligned (by decide) hmapped (by decide)))⟩

end SystemsProjects.WeensyOS
