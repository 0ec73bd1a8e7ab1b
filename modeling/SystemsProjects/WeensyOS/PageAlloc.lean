/-
SystemsProjects.WeensyOS.PageAlloc — `syscall_page_alloc` at a valid
address.

A process's space has the page-table pages for all addresses it may ask
for, so the call fails only if no page is free, and otherwise gives the
process a zeroed page of its own (`Allocated`). What it had mapped at the
address loses its reference: `Exact` survives only if no other process
shares that page.
-/
import SystemsProjects.WeensyOS.AddressSpace

namespace SystemsProjects.WeensyOS

open SystemsProjects.Base
open SystemsProjects.Base.RadixTree

/-! ## `try_map` at an address -/

section

variable {L : Layout} {k k' : Kernel} {root va pa perm : Nat}

/-- A new iterator, and `try_map`. -/
theorem tryMapAt_spec (hm : VmIter.Mappable va pa perm) (ht : Tree k.mem root)
    (h : VmIter.Covered k.mem root va ∨ perm ≠ 0 ∧ NoLarge k.mem root ∧
      ∀ q, Free L k q → ¬ IsTable k.mem root q) :
    ∃ d p, VmIter.Stops k.mem root va d p ∧
      ((∃ k' fresh, tryMapAt L root va pa perm k = .ok (0, k') ∧
        VmIter.Installed L k k' root va (pa ||| perm) d fresh) ∨
      ∃ k' fresh, tryMapAt L root va pa perm k = .ok (-1, k') ∧
        VmIter.Exhausted L k k' root d fresh) := by
  obtain ⟨d, p, hstop, hnew⟩ := VmIter.new_spec ht hm.canonical
  have hside : d < 3 → perm ≠ 0 ∧ NoLarge k.mem root ∧ ∀ q, Free L k q → ¬ IsTable k.mem root q :=
    fun hlt => h.resolve_left fun hc => Nat.ne_of_lt hlt (hstop.depth_eq hc)
  refine ⟨d, p, hstop, ?_⟩
  rw [tryMapAt, hnew]
  rcases VmIter.tryMap_spec hm (fun hlt => (hside hlt).1) ht (fun hlt => (hside hlt).2.1)
    (fun hlt => (hside hlt).2.2) hstop with ⟨it, k', fresh, hrun, hin⟩ | ⟨it, k', fresh, hrun, hex⟩
  · exact .inl ⟨k', fresh, by simp only [ok_bind, hrun]; rfl, hin⟩
  · exact .inr ⟨k', fresh, by simp only [ok_bind, hrun]; rfl, hex⟩

/-- Where the page-table page exists, `try_map` writes one entry. -/
theorem tryMapAt_covered (hm : VmIter.Mappable va pa perm) (ht : Tree k.mem root)
    (hc : VmIter.Covered k.mem root va) :
    ∃ k', tryMapAt L root va pa perm k = .ok (0, k') ∧
      Updates L k k' root [] (Function.update (leaf k.mem root) (slot 4 va) (pa ||| perm)) := by
  obtain ⟨d, p, hstop, ⟨k', fresh, hrun, hin⟩ | ⟨k', fresh, hrun, hex⟩⟩ :=
    tryMapAt_spec (L := L) hm ht (.inl hc)
  · obtain rfl := hstop.depth_eq hc
    obtain rfl := List.eq_nil_of_length_eq_zero hin.length
    exact ⟨k', hrun, hin.updates⟩
  · obtain rfl := hstop.depth_eq hc
    exact absurd hex.short (by omega)

end

/-! ## The call -/

/-- An address that `sys_page_alloc` allows. -/
structure ValidAddr (va : Nat) : Prop where
  aligned : va % PAGESIZE = 0
  low : PROC_START_ADDR ≤ va
  high : va < MEMSIZE_VIRTUAL

/-- The page at `q`, zeroed, is mapped at `va` for the running process. -/
structure Allocated (L : Layout) (k k' : Kernel) (va q : Nat) : Prop where
  taken : Taken L k k' [q]
  leaf : leaf k'.mem (k.root k.current) =
    Function.update (leaf k.mem (k.root k.current)) (va / 4096) (frameEntry q true)
  tables : ∀ p, IsTable k'.mem (k.root k.current) p ↔ IsTable k.mem (k.root k.current) p
  space : Space L k'.mem (k.root k.current)
  zero : ∀ i < 4096, k'.mem (q + i) = 0
  mem : ∀ p, p % 4096 = 0 → p ≠ q → ¬ IsTable k.mem (k.root k.current) p → SamePage k.mem k'.mem p
  ptable : k'.ptable = k.ptable
  current : k'.current = k.current

section

variable {L : Layout} {k k' : Kernel} {va p q pa : Nat} {w : Bool}

theorem ValidAddr.inUserRange (h : ValidAddr va) : InUserRange (va / 4096) := by
  have h1 : 0x100000 ≤ va := h.low
  have h2 : va < 0x300000 := h.high
  exact ⟨show 0x100 ≤ va / 4096 by omega, show va / 4096 < 0x300 by omega⟩

theorem mappable_of_page (hpa : IsPage L pa) (hva : va % 4096 = 0) (hlow : va ≤ MEMSIZE_VIRTUAL)
    {perm : Nat} (hperm : perm < 4096) : VmIter.Mappable va pa perm :=
  ⟨VmIter.canonical_of_lt hlow, hva, hpa.aligned, Nat.lt_trans hpa.bounds.2.1 (by decide), hperm⟩

/-- A page of the process mapped in its space. -/
theorem Space.tryMapAt {root : Nat} (hs : Space L k.mem root) (hva : ValidAddr va)
    (hq : IsPage L q) (w : Bool) :
    ∃ k', tryMapAt L root va q (framePerm w) k = .ok (0, k') ∧
      Updates L k k' root [] (Function.update (leaf k.mem root) (va / 4096) (frameEntry q w)) := by
  obtain ⟨k', hrun, hup⟩ := tryMapAt_covered (L := L)
    (mappable_of_page hq hva.aligned (Nat.le_of_lt hva.high) (framePerm_lt w)) hs.tree
    (hs.covered va hva.high)
  rw [slot_page hva.high] at hup
  exact ⟨k', hrun, hup⟩

/-- A space with one more page of the process. -/
theorem Space.update {root : Nat} (hs : Space L k.mem root) (hva : InUserRange (va / 4096))
    (hq : IsPage L q)
    (hup : Updates L k k' root []
    (Function.update (leaf k.mem root) (va / 4096) (frameEntry q w))) :
    Space L k'.mem root where
  tree := hup.tree
  noLarge := hup.noLarge hs.noLarge
  tables := by
    intro p hp
    rcases (hup.tables p).mp hp with hp | hp
    · exact hs.tables p hp
    · cases hp
  covered := by
    intro va' hva'
    obtain ⟨p, hp⟩ := hs.covered va' hva'
    exact ⟨p, hup.grows 3 (Nat.le_refl 3) _ p hp⟩
  entries := by
    intro vpn
    rw [hup.leaf]
    by_cases hvpn : vpn = va / 4096
    · rw [hvpn, Function.update_self]
      exact .inr ⟨hva, q, w, hq, rfl⟩
    · rw [Function.update_of_ne hvpn]
      exact hs.entries vpn

/-- **`syscall_page_alloc`** at a valid address fails only if no page is
free. -/
theorem syscallPageAlloc_spec (h : Inv L k) (hlive : Live k k.current) (hva : ValidAddr va) :
    (syscallPageAlloc L va k = .ok (-1, k) ∧ OutOfPages L k) ∨
    ∃ k' q, syscallPageAlloc L va k = .ok (0, k') ∧ Allocated L k k' va q := by
  rcases kalloc_cases L k with ⟨hk, hout⟩ | ⟨q, hq, -, hk⟩
  · exact .inl ⟨by rw [syscallPageAlloc, hk], hout⟩
  · right
    let k₁ := (k.take q).memset q 0 PAGESIZE
    -- the fresh page is no page of the process's table
    have hsame : ∀ p, p % 4096 = 0 → p ≠ q → SamePage k.mem k₁.mem p := fun p hp hne =>
      (samePage_fill hp hq.1.aligned hne).trans (samePage_fill hp hq.1.aligned hne)
    have hspace := h.spaces k.current hlive
    have htables : SameTables k.mem k₁.mem (k.root k.current) := by
      intro p hp
      refine hsame p (hspace.tree.table_aligned hp) ?_
      rintro rfl
      exact h.free_not_table hlive hq hp
    have hspace₁ : Space L k₁.mem (k.root k.current) := htables.space hspace
    obtain ⟨k', hrun, hup⟩ := hspace₁.tryMapAt (k := k₁) hva hq.1 true
    have hspace' := hspace₁.update (k := k₁) hva.inUserRange hq.1 hup
    have hnotq : ¬ IsTable k'.mem (k.root k.current) q := by
      rw [hup.tables, or_iff_left List.not_mem_nil, htables.isTable]
      exact h.free_not_table hlive hq
    refine ⟨k', q, ?_, ⟨⟨List.nodup_singleton q, ?_, fun p hp => ?_⟩, ?_, fun p => ?_, hspace', ?_,
      fun p hp hne hnot => ?_, hup.ptable, hup.current⟩⟩
    · rw [syscallPageAlloc, hk]
      show (tryMapAt L (k.root k.current) va q (framePerm true) k₁ >>= _) = _
      rw [hrun]
      rfl
    · intro r hr
      rw [List.mem_singleton.mp hr]
      exact hq
    · rw [hup.taken.refs p hp]
      simp only [List.mem_singleton, List.not_mem_nil, if_false]
      exact refs_take hp hq.1.aligned
    · rw [funext hup.leaf, funext htables.leaf]
    · rw [hup.tables, or_iff_left List.not_mem_nil, htables.isTable]
    · intro i hi
      rw [hup.mem q hq.1.aligned hnotq i hi]
      show (k.take q).mem.fill q 4096 0 (q + i) = 0
      rw [ByteMem.fill, ByteMem.update_offset hi]
    · refine (hsame p hp hne).trans (hup.mem p hp ?_)
      rw [hup.tables, or_iff_left List.not_mem_nil, htables.isTable]
      exact hnot

/-! ## What it keeps -/

theorem Allocated.refs (h : Allocated L k k' va q) (hp : p % 4096 = 0) :
    k'.refs p = k.refs p + if p = q then 1 else 0 := by
  rw [h.taken.refs_eq hp]
  simp only [List.mem_singleton]

theorem Allocated.isPage (h : Allocated L k k' va q) : IsPage L q :=
  (h.taken.free q (List.mem_singleton_self q)).1

theorem Allocated.refs_lt (h : Allocated L k k' va q) (hlt : ∀ p, k.refs p < 256) (p : Nat) :
    k'.refs p < 256 := by
  refine refs_lt_all (fun r hal => ?_) p
  have := hlt r
  rw [h.taken.refs r hal]
  split <;> omega

/-- The process holds the new page, and no longer the one it had there. -/
theorem Allocated.holds (h : Allocated L k k' va q) (hva : ValidAddr va) (p : Nat) :
    holds k'.mem (k.root k.current) p +
        frameRef (va / 4096) (WeensyOS.leaf k.mem (k.root k.current) (va / 4096)) p =
      holds k.mem (k.root k.current) p + if p = q then 1 else 0 := by
  have hframes : frameCount (Function.update (WeensyOS.leaf k.mem (k.root k.current)) (va / 4096)
        (frameEntry q true)) p +
        frameRef (va / 4096) (WeensyOS.leaf k.mem (k.root k.current) (va / 4096)) p =
      frameCount (WeensyOS.leaf k.mem (k.root k.current)) p +
        frameRef (va / 4096) (frameEntry q true) p := frameCount_update hva.inUserRange.lt
  rw [frameRef_frameEntry hva.inUserRange h.isPage] at hframes
  rw [WeensyOS.holds, WeensyOS.holds, h.leaf, tableRef_congr (h.tables p)]
  omega

/-- The other processes keep their tables. -/
theorem Allocated.others (h : Allocated L k k' va q) (hinv : Inv L k) (hlive : Live k k.current) :
    Others k k' k.current := by
  refine ⟨fun pid _ => by rw [h.ptable], fun pid hne hlive' p hp => ?_⟩
  have hpriv : Private L k.mem (k.root pid) p := .inl hp
  refine h.mem p ((hinv.spaces pid hlive').tree.table_aligned hp) ?_ fun ht => ?_
  · rintro rfl
    exact hinv.free_not_table hlive' (h.taken.free p (List.mem_singleton_self p)) hp
  · -- a page of two tables
    have hzero := hinv.private_alone hlive' hlive hne hpriv
    exact absurd hzero (Nat.ne_of_gt (holds_pos.mpr (.inl ht)))

theorem Allocated.live (h : Allocated L k k' va q) (pid : Nat) : Live k' pid ↔ Live k pid := by
  rw [Live, Live, h.ptable]

theorem Allocated.root (h : Allocated L k k' va q) (pid : Nat) : k'.root pid = k.root pid := by
  rw [Kernel.root, h.ptable]

/-- A private page of the process is the new one, or was private before. -/
theorem Allocated.private (h : Allocated L k k' va q)
    (hp : Private L k'.mem (k.root k.current) p) :
    p = q ∨ Private L k.mem (k.root k.current) p := by
  rcases hp with ht | ⟨hp, vpn, hvpn, hentry⟩
  · exact .inr (.inl ((h.tables p).mp ht))
  · rw [h.leaf, Function.update_apply] at hentry
    split at hentry
    · exact .inl (frameEntry_inj h.isPage.aligned hp.aligned hentry).1.symm
    · exact .inr (.inr ⟨hp, vpn, hvpn, hentry⟩)

/-- A page with a reference is not the new one. -/
theorem Allocated.refs_of_pos (h : Allocated L k k' va q) (hp : p % 4096 = 0)
    (hpos : 0 < k.refs p) :
    k'.refs p = k.refs p := by
  have hne : p ≠ q := by
    rintro rfl
    exact absurd (h.taken.free p (List.mem_singleton_self p)).2 (Nat.ne_of_gt hpos)
  rw [h.refs hp, if_neg hne, Nat.add_zero]

/-- **`syscall_page_alloc`** keeps the invariant. -/
theorem Allocated.inv (h : Allocated L k k' va q) (hinv : Inv L k) (hlive : Live k k.current)
    (hva : ValidAddr va) : Inv L k' := by
  have hlive' : Live k' k.current := (h.live _).mpr hlive
  have hspace := hinv.spaces k.current hlive
  have hkeep : ∀ pid, Live k pid → ∀ p, Private L k.mem (k.root pid) p → k'.refs p = 1 := by
    intro pid hpid p hp
    have hown := hinv.own pid hpid p hp
    rw [h.refs_of_pos ((hinv.spaces pid hpid).aligned_of_holds hp.holds) (by omega), hown]
  have hq := h.taken.free q (List.mem_singleton_self q)
  have hnew : k'.refs q = 1 := by rw [h.refs hq.1.aligned, hq.2, if_pos rfl]
  refine hinv.change hlive.1 (h.others hinv hlive) (h.refs_lt hinv.refs_lt) (fun p hp => ?_)
    (fun pid _ => hkeep pid) fun _ => ⟨by rw [h.root]; exact h.space, fun p => ?_, fun p hp => ?_⟩
  · have hholds := h.holds hva p
    rw [shares_live hlive, shares_live hlive', h.root, h.refs hp]
    omega
  · have hholds := h.holds hva p
    rw [h.root]
    by_cases hpq : p = q
    · have hzero : WeensyOS.holds k.mem (k.root k.current) p = 0 := by
        refine Nat.eq_zero_of_not_pos fun hpos => ?_
        rw [hpq] at hpos
        exact hinv.not_free hlive hpos hq
      rw [if_pos hpq] at hholds
      omega
    · have honce := hinv.once k.current hlive p
      rw [if_neg hpq] at hholds
      omega
  · rw [h.root] at hp
    rcases h.private hp with rfl | hp
    · exact hnew
    · exact hkeep k.current hlive p hp

/-- No reference to a page that others hold is lost. -/
theorem Allocated.exact (h : Allocated L k k' va q) (hinv : Inv L k) (hlive : Live k k.current)
    (hva : ValidAddr va) (hexact : Exact k)
    (hshared : ∀ p, IsPage L p →
      WeensyOS.leaf k.mem (k.root k.current) (va / 4096) = frameEntry p false → k.refs p ≤ 1) :
    Exact k' := by
  intro p hp hcond
  have hlive' : Live k' k.current := (h.live _).mpr hlive
  have hholds := h.holds hva p
  have htotal := total_change (p := p) hlive.1 fun pid hne => (h.others hinv hlive).shares hne p
  rw [shares_live hlive, shares_live hlive', h.root] at htotal
  have hbound := hinv.bound p hp
  have hex := hexact p hp
  have hq := h.taken.free q (List.mem_singleton_self q)
  rw [h.refs hp] at hcond ⊢
  by_cases hpq : p = q
  · have hzero : k.refs p = 0 := by rw [hpq]; exact hq.2
    rw [if_pos hpq] at hholds hcond ⊢
    -- nobody held the new page
    have hle := shares_le_total (p := p) hlive
    rw [shares_live hlive] at hle
    omega
  · rw [if_neg hpq] at hholds hcond ⊢
    by_cases hold : frameRef (va / 4096) (WeensyOS.leaf k.mem (k.root k.current) (va / 4096)) p = 0
    · omega
    · -- the page that was mapped there
      obtain ⟨hvpn, hpage, w, hentry⟩ := (hinv.spaces k.current hlive).frameRef_ne_zero hold
      have hone : k.refs p ≤ 1 := by
        cases w with
        | true => exact Nat.le_of_eq (hinv.own k.current hlive p (.inr ⟨hpage, _, hvpn, hentry⟩))
        | false => exact hshared p hpage hentry
      have hle : frameRef (va / 4096) (WeensyOS.leaf k.mem (k.root k.current) (va / 4096)) p ≤ 1 :=
        frameRef_le_one
      omega

end

end SystemsProjects.WeensyOS
