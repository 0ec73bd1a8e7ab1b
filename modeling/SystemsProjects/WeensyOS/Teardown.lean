/-
SystemsProjects.WeensyOS.Teardown — what `free_pagetable` gives back.

`kfree` gives back one reference of an allocatable page, if it has one.
`free_pagetable` therefore gives back what the table holds, and changes
nothing else: not even the memory of the pages it frees, over which its
walk goes on.
-/
import SystemsProjects.WeensyOS.Holdings
import SystemsProjects.WeensyOS.PageLoop
import SystemsProjects.WeensyOS.TableWalk

namespace SystemsProjects.WeensyOS

open SystemsProjects.Base
open SystemsProjects.Base.RadixTree

/-- `n p` references of each allocatable page `p` are given back, as many
as there are. -/
structure Released (L : Layout) (k k' : Kernel) (n : Nat → Nat) : Prop where
  refs : ∀ p, p % 4096 = 0 → k'.refs p = if IsPage L p then k.refs p - n p else k.refs p
  mem : k'.mem = k.mem
  ptable : k'.ptable = k.ptable
  current : k'.current = k.current

section

variable {L : Layout} {k k' k'' : Kernel}

theorem Released.zero (L : Layout) (k : Kernel) : Released L k k fun _ => 0 :=
  ⟨fun p _ => by rw [Nat.sub_zero, ite_self], rfl, rfl, rfl⟩

theorem Released.trans {m n : Nat → Nat} (h : Released L k k' m) (h' : Released L k' k'' n) :
    Released L k k'' fun p => m p + n p where
  refs := by
    intro p hp
    rw [h'.refs p hp, h.refs p hp]
    split
    · omega
    · rfl
  mem := h'.mem.trans h.mem
  ptable := h'.ptable.trans h.ptable
  current := h'.current.trans h.current

theorem Released.congr {m n : Nat → Nat} (h : Released L k k' m)
    (hmn : ∀ p, p % 4096 = 0 → m p = n p) : Released L k k' n :=
  ⟨fun p hp => by rw [h.refs p hp, hmn p hp], h.mem, h.ptable, h.current⟩

/-- The counts keep to eight bits. -/
theorem Released.refs_lt {n : Nat → Nat} (h : Released L k k' n) (hlt : ∀ p, k.refs p < 256)
    (p : Nat) : k'.refs p < 256 := by
  refine refs_lt_all (fun q hal => ?_) p
  have := hlt q
  rw [h.refs q hal]
  split <;> omega

/-- **`kfree`** gives back a reference of the page it is called with. -/
theorem kfree_released (hlt : ∀ p, k.refs p < 256) (a : Nat) :
    Released L k (kfree L a k) fun p => if p = a then 1 else 0 := by
  by_cases hpage : IsPage L a
  · have hb := hpage.bounds
    have hal := hpage.aligned
    have hrefs : k.physpages (a / 4096) = k.refs a := rfl
    have hfree : kfree L a k = k.release a := by
      simp only [kfree, PAGESIZE, MEMSIZE_PHYSICAL]
      rw [if_neg (by omega), if_neg (by omega), if_neg (by omega),
        if_neg (not_not_intro hpage.2), hrefs]
      have hlt := hlt a
      split
      · -- no reference is left
        have hzero : k.refs a - 1 = k.physpages (a / 4096) := by omega
        rw [Kernel.release, hzero, Function.update_eq_self]
      · simp only [Kernel.setRefcount, Kernel.release,
          Nat.mod_eq_of_lt (show k.refs a - 1 < 256 by omega)]
    rw [hfree]
    refine ⟨fun p hp => ?_, rfl, rfl, rfl⟩
    rw [refs_release hp hal]
    by_cases hpa : p = a
    · subst hpa
      rw [if_pos rfl, if_pos hpage, if_pos rfl]
    · rw [if_neg hpa, if_neg hpa, Nat.sub_zero, ite_self]
  · have hsame : kfree L a k = k := by
      simp only [kfree]
      split_ifs with h0 hal hlt' halloc <;> try rfl
      exact absurd ⟨Decidable.not_not.mp hal, halloc⟩ hpage
    rw [hsame]
    refine ⟨fun p hp => ?_, rfl, rfl, rfl⟩
    split
    · rename_i hp'
      have hpa : p ≠ a := fun h => hpage (h ▸ hp')
      rw [if_neg hpa, Nat.sub_zero]
    · rfl

/-! ## The mapped pages -/

/-- One round of the first loop. -/
theorem freeFrame_spec {root va : Nat} {it : VmIter} (hlt : ∀ p, k.refs p < 256)
    (hva : va % 4096 = 0) (hlow : va < MEMSIZE_VIRTUAL) (hsees : VmIter.Sees k.mem root va it) :
    ∃ k', freeFrame L it k = .ok (none, k') ∧
      Released L k k' (frameRef (va / 4096) (leaf k.mem root (va / 4096))) := by
  have hslot := slot_page hlow
  rw [freeFrame]
  by_cases huser : UserEntry (leaf k.mem root (va / 4096))
  · have hpresent := huser.present
    rw [if_neg (by rw [hsees.present_iff hlow, hsees.user_iff hlow]; tauto), hsees.va_eq]
    by_cases hconsole : va = CONSOLE_ADDR
    · rw [if_pos hconsole]
      refine ⟨k, rfl, (Released.zero L k).congr fun p _ => ?_⟩
      rw [hconsole]
      exact frameRef_console.symm
    · rw [if_neg hconsole]
      refine ⟨_, rfl, (kfree_released hlt _).congr fun p _ => ?_⟩
      have hconsole' : va / 4096 ≠ CONSOLE_ADDR / PAGESIZE := by
        intro h
        have h : va / 4096 = 0xB8 := h
        exact hconsole (show va = 0xB8000 by omega)
      rw [frameRef_user huser hconsole', hsees.pa_eq (by rw [hslot]; exact hpresent), hslot, hva,
        Nat.add_zero]
  · rw [if_pos (.inr (by rw [hsees.user_iff hlow]; exact huser))]
    exact ⟨k, rfl, (Released.zero L k).congr fun p _ => (frameRef_of_not_user huser).symm⟩

/-- The first loop. -/
theorem freeFrames_spec {root : Nat} (ht : Tree k.mem root) (hplain : NoLarge k.mem root)
    (hlt : ∀ p, k.refs p < 256) :
    ∃ k', forPages root 0 MEMSIZE_VIRTUAL (freeFrame L) k = .ok (none, k') ∧
      Released L k k' (frameCount (leaf k.mem root)) := by
  let I : Nat → Kernel → Prop := fun va k' => Released L k k' fun p =>
    ∑ vpn ∈ Finset.range (va / 4096), frameRef vpn (leaf k.mem root vpn) p
  have hloop : LoopEnds (forPages root 0 MEMSIZE_VIRTUAL (freeFrame L) k) (I MEMSIZE_VIRTUAL)
      (fun (_ : Unit) _ => False) := by
    refine forPages_rule (I := I) ht (fun va _ _ => .inl hplain)
      (fun va k' h => by rw [h.mem]; exact .refl _ _)
      (fun va k' it _ hlow hva h _ hsees => .inl ?_) rfl rfl (by decide) (Nat.le_refl _)
      (Released.zero L k)
    obtain ⟨k'', hout, hrel⟩ := freeFrame_spec (L := L) (h.refs_lt hlt) hva hlow hsees
    have hnext : (va + 4096) / 4096 = va / 4096 + 1 := Nat.add_div_right va (by decide)
    refine ⟨k'', hout, (h.trans hrel).congr fun p _ => ?_⟩
    rw [h.mem, hnext, Finset.sum_range_succ]
  rcases hloop with h | ⟨_, _, -, hfalse⟩
  · exact h
  · exact hfalse.elim

/-! ## The page-table pages -/

/-- The second loop gives back a reference for every page it visits. -/
theorem freeTablesLoop_spec {root : Nat} {l : List Nat} {it : PtIter} {rounds : Nat}
    (hlt : ∀ p, k.refs p < 256) (hshows : PtIter.Shows k.mem root it l)
    (hrounds : l.length < rounds) :
    ∃ k', freeTablesLoop L rounds it k = .ok k' ∧ Released L k k' fun p => l.count p := by
  induction l generalizing it k rounds with
  | nil =>
    obtain ⟨rounds, rfl⟩ : ∃ n, rounds = n + 1 := ⟨rounds - 1, by omega⟩
    refine ⟨k, ?_, Released.zero L k⟩
    rw [freeTablesLoop, if_pos (show it.done = true from hshows)]
  | cons r rest ih =>
    rw [List.length_cons] at hrounds
    obtain ⟨rounds, rfl⟩ : ∃ n, rounds = n + 1 := ⟨rounds - 1, by omega⟩
    obtain ⟨hdone, hkptr, hstep⟩ := PtIter.next_spec hshows
    obtain ⟨it', hnext, hrest⟩ := hstep _ (.refl _ _ _)
    have hfree := kfree_released (L := L) hlt r
    rw [← hfree.mem] at hnext hrest
    obtain ⟨k', hloop, hrel⟩ := ih (hfree.refs_lt hlt) hrest (by omega : rest.length < rounds)
    refine ⟨k', ?_, (hfree.trans hrel).congr fun p _ => ?_⟩
    · rw [freeTablesLoop, if_neg hdone, hkptr _ (.refl _ _ _)]
      dsimp only
      rw [hnext]
      exact hloop
    · rw [List.count_cons, Nat.add_comm]
      simp only [beq_iff_eq, eq_comm (a := r)]

/-- The page-table pages but the root. -/
theorem mem_belowRoot_iff {mem : ByteMem} {root p : Nat} (hdist : Distinct (child mem) 512 root 3) :
    p ∈ belowRoot (child mem) 512 root 3 ↔ IsTable mem root p ∧ p ≠ root := by
  rw [mem_belowRoot (by decide) (by decide)]
  constructor
  · rintro ⟨d, hd, hd3, x, hp⟩
    refine ⟨⟨d, hd3, x, hp⟩, ?_⟩
    rintro rfl
    have := (hdist d hd3 0 (by decide) x 0 p hp nodeAt_root).1
    omega
  · rintro ⟨⟨d, hd, x, hp⟩, hne⟩
    refine ⟨d, Nat.one_le_iff_ne_zero.mpr ?_, hd, x, hp⟩
    rintro rfl
    rw [nodeAt] at hp
    split at hp
    · exact hne (Option.some.inj hp).symm
    · cases hp

/-- The pages of a table are its root and those the walk visits. -/
theorem tableRef_eq {mem : ByteMem} {root : Nat} (ht : Tree mem root) (p : Nat) :
    (belowRoot (child mem) 512 root 3).count p + (if p = root then 1 else 0) =
      tableRef mem root p := by
  have hnodup := nodup_belowRoot (by decide : 0 < 512) (by decide : 1 ≤ 3) ht.distinct
  have hmem : p ∈ belowRoot (child mem) 512 root 3 ↔ IsTable mem root p ∧ p ≠ root :=
    mem_belowRoot_iff ht.distinct
  by_cases hroot : p = root
  · subst hroot
    rw [List.count_eq_zero.mpr fun h => (hmem.mp h).2 rfl, if_pos rfl,
      tableRef_of_table isNode_root]
  · rw [if_neg hroot, Nat.add_zero]
    by_cases htable : IsTable mem root p
    · rw [tableRef_of_table htable]
      exact List.count_eq_one_of_mem hnodup (hmem.mpr ⟨htable, hroot⟩)
    · rw [tableRef_of_not_table htable, List.count_eq_zero]
      exact fun hp => htable (hmem.mp hp).1

theorem belowRoot_length (mem : ByteMem) (root : Nat) :
    (belowRoot (child mem) 512 root 3).length < tableRounds := by
  refine Nat.lt_of_le_of_lt length_belowRoot_le ?_
  rw [tableRounds]
  simp only [fullSize]
  omega

/-- **`free_pagetable`** gives back what the table holds. -/
theorem freePagetable_spec {root : Nat} (ht : Tree k.mem root) (hplain : NoLarge k.mem root)
    (hlt : ∀ p, k.refs p < 256) :
    ∃ k', freePagetable L root k = .ok k' ∧ Released L k k' (holds k.mem root) := by
  obtain ⟨k₁, hframes, hrel₁⟩ := freeFrames_spec (L := L) ht hplain hlt
  obtain ⟨it, l, hnew, hl, hshows⟩ := PtIter.new_spec k₁.mem root
  have hlength : l.length < tableRounds := hl ▸ belowRoot_length k₁.mem root
  have hlt₁ := hrel₁.refs_lt hlt
  obtain ⟨k₂, htables, hrel₂⟩ := freeTablesLoop_spec (L := L) hlt₁ hshows hlength
  have hroot := kfree_released (L := L) (hrel₂.refs_lt hlt₁) root
  refine ⟨_, ?_, ((hrel₁.trans hrel₂).trans hroot).congr fun p _ => ?_⟩
  · rw [freePagetable, hframes]
    simp only [ok_bind, hnew, htables]
    rfl
  · rw [holds, ← tableRef_eq ht p, hl, hrel₁.mem, Nat.add_assoc]

end

end SystemsProjects.WeensyOS
