/-
SystemsProjects.WeensyOS.FreePages — the free pages, in the order `kalloc`
takes them.

`kalloc` searches from the lowest page up, so it takes the head of the
list of free pages. `Drawn` says which pages a piece of the kernel's code
took; mapping a page gives none back, whatever the state of the tables.
-/
import SystemsProjects.WeensyOS.Mapping
import SystemsProjects.WeensyOS.Kernel

namespace SystemsProjects.WeensyOS

open SystemsProjects.Base

/-- The pages that `kalloc` may hand out now, in the order it does. -/
def freePages (L : Layout) (k : Kernel) : List Nat :=
  ((List.range NPAGES).map (· * PAGESIZE)).filter fun p => Free L k p

/-- The pages `l` were taken, the first ones that were free. -/
structure Drawn (L : Layout) (k k' : Kernel) (l : List Nat) : Prop where
  order : freePages L k = l ++ freePages L k'
  refs : ∀ p, p % 4096 = 0 → k'.refs p = if p ∈ l then 1 else k.refs p

section

variable {L : Layout} {k k' k'' : Kernel} {p q : Nat} {l l' : List Nat}

theorem mem_freePages : p ∈ freePages L k ↔ Free L k p := by
  rw [freePages, List.mem_filter, List.mem_map, decide_eq_true_eq, and_iff_right_iff_imp]
  intro hp
  have hb := hp.1.bounds
  have hal := hp.1.aligned
  exact ⟨p / 4096, List.mem_range.mpr (show p / 4096 < 512 by omega),
    show p / 4096 * 4096 = p by omega⟩

theorem freePages_sorted (L : Layout) (k : Kernel) : (freePages L k).Pairwise (· < ·) := by
  refine List.Pairwise.filter _ (List.pairwise_map.mpr (List.pairwise_lt_range.imp ?_))
  intro a b hab
  show a * 4096 < b * 4096
  omega

theorem freePages_nodup (L : Layout) (k : Kernel) : (freePages L k).Nodup :=
  (freePages_sorted L k).imp Nat.ne_of_lt

theorem outOfPages_iff : OutOfPages L k ↔ freePages L k = [] := by
  rw [List.eq_nil_iff_forall_not_mem]
  exact forall_congr' fun p => not_congr mem_freePages.symm

/-- The list depends on the reference counts alone. -/
theorem freePages_congr (h : k'.physpages = k.physpages) : freePages L k' = freePages L k := by
  refine List.filter_congr fun p _ => decide_eq_decide.mpr ?_
  rw [Free, Free, Kernel.refs, Kernel.refs, h]

/-! ## `kalloc` -/

theorem free_take (hq : Free L k q) : Free L (k.take q) p ↔ Free L k p ∧ p ≠ q := by
  unfold Free
  rw [and_assoc]
  refine and_congr_right fun hp => ?_
  rw [refs_take hp.aligned hq.1.aligned]
  split
  · rename_i h
    exact iff_of_false Nat.one_ne_zero fun h' => h'.2 h
  · rename_i h
    exact (and_iff_left h).symm

theorem freePages_take (h : freePages L k = q :: l) : freePages L (k.take q) = l := by
  have hq : Free L k q := mem_freePages.mp (h ▸ List.mem_cons_self)
  have hnodup := freePages_nodup L k
  rw [h, List.nodup_cons] at hnodup
  have hfilter : freePages L (k.take q) = (freePages L k).filter (· ≠ q) := by
    rw [freePages, freePages, List.filter_filter]
    refine List.filter_congr fun p _ => ?_
    rw [decide_eq_decide.mpr (free_take hq), Bool.decide_and, Bool.and_comm]
  rw [hfilter, h, List.filter_cons_of_neg (by simp)]
  refine List.filter_eq_self.mpr fun p hp => decide_eq_true ?_
  rintro rfl
  exact hnodup.1 hp

theorem kalloc_nil (h : freePages L k = []) : kalloc L PAGESIZE k = (none, k) := by
  rcases kalloc_cases L k with ⟨hk, -⟩ | ⟨q, hq, -, -⟩
  · exact hk
  · exact absurd (mem_freePages.mpr hq) (by simp [h])

/-- **`kalloc`** takes the first free page. -/
theorem kalloc_cons (h : freePages L k = q :: l) : kalloc L PAGESIZE k = (some q, k.take q) := by
  have hq : Free L k q := mem_freePages.mp (h ▸ List.mem_cons_self)
  rcases kalloc_cases L k with ⟨-, hout⟩ | ⟨r, hr, hfirst, hk⟩
  · exact absurd hq (hout q)
  · have hsorted := freePages_sorted L k
    have hmem := mem_freePages.mpr hr
    rw [h, List.pairwise_cons] at hsorted
    rw [h, List.mem_cons] at hmem
    have hrq : r = q := by
      rcases hmem with hrq | hmem
      · exact hrq
      · exact absurd hq (hfirst q (hsorted.1 r hmem))
    rw [hk, hrq]

/-! ## Pages taken -/

theorem Drawn.refl (L : Layout) (k : Kernel) : Drawn L k k [] :=
  ⟨(List.nil_append _).symm, fun _ _ => (if_neg List.not_mem_nil).symm⟩

/-- Stores take no page. -/
theorem Drawn.of_physpages (h : k'.physpages = k.physpages) : Drawn L k k' [] :=
  ⟨by rw [List.nil_append, freePages_congr h], fun p _ => by
    rw [if_neg List.not_mem_nil, Kernel.refs, h, Kernel.refs]⟩

theorem Drawn.trans (h : Drawn L k k' l) (h' : Drawn L k' k'' l') : Drawn L k k'' (l ++ l') where
  order := by rw [h.order, h'.order, List.append_assoc]
  refs := by
    intro p hp
    rw [h'.refs p hp, h.refs p hp]
    simp only [List.mem_append]
    split_ifs <;> simp_all

theorem Drawn.take (h : freePages L k = q :: l) : Drawn L k (k.take q) [q] where
  order := by rw [freePages_take h, h, List.singleton_append]
  refs := by
    intro p hp
    have hq : Free L k q := mem_freePages.mp (h ▸ List.mem_cons_self)
    simp only [List.mem_singleton]
    exact refs_take hp hq.1.aligned

theorem Drawn.free (h : Drawn L k k' l) (hp : p ∈ l) : Free L k p :=
  mem_freePages.mp (by rw [h.order]; exact List.mem_append_left _ hp)

/-- No count falls. -/
theorem Drawn.refs_le (h : Drawn L k k' l) (hp : p % 4096 = 0) : k.refs p ≤ k'.refs p := by
  rw [h.refs p hp]
  split
  · rename_i hmem
    rw [(h.free hmem).2]
    exact Nat.zero_le 1
  · exact Nat.le_refl _

theorem Drawn.taken (h : Drawn L k k' l) : Taken L k k' l :=
  ⟨(List.nodup_append.mp (h.order ▸ freePages_nodup L k)).1, fun _ => h.free, h.refs⟩

/-- The pages taken are determined. -/
theorem Drawn.perm (h : Drawn L k k' l) (h' : Taken L k k' l') : l'.Perm l := by
  have hmem : ∀ {m : List Nat}, Taken L k k' m → ∀ p, p ∈ m ↔ Free L k p ∧ k'.refs p = 1 := by
    intro m hm p
    constructor
    · intro hp
      have hfree := hm.free p hp
      exact ⟨hfree, by rw [hm.refs p hfree.1.aligned, if_pos hp]⟩
    · rintro ⟨hfree, hone⟩
      by_contra hp
      rw [hm.refs p hfree.1.aligned, if_neg hp, hfree.2] at hone
      cases hone
  refine (List.perm_ext_iff_of_nodup h'.nodup h.taken.nodup).mpr fun p => ?_
  rw [hmem h' p, hmem h.taken p]

end

/-! ## `try_map` -/

section

variable {L : Layout} {k k' : Kernel} {it it' : VmIter} {r : Int} {root va pa perm : Nat}

theorem setPe_physpages {e : Nat} (h : it.setPe e k = .ok k') : k'.physpages = k.physpages := by
  rw [VmIter.setPe] at h
  split at h
  · cases h
  · cases h
    rfl

theorem tryMapLoop_drawn {rounds : Nat}
    (h : VmIter.tryMapLoop L perm rounds it k = .ok (r, it', k')) : ∃ l, Drawn L k k' l := by
  induction rounds generalizing it k with
  | zero => cases h
  | succ rounds ih =>
    rw [VmIter.tryMapLoop] at h
    split at h
    · rw [assert] at h
      split at h
      · cases hfree : freePages L k with
        | nil =>
          rw [kalloc_nil hfree] at h
          cases h
          exact ⟨[], .refl L _⟩
        | cons q l =>
          rw [kalloc_cons hfree] at h
          simp only [ok_bind] at h
          -- the page is cleared and linked, and the walk goes on
          cases hset : it.setPe (q ||| PTE_P ||| PTE_W ||| PTE_U)
            ((k.take q).memset q 0 PAGESIZE) with
          | error f =>
            rw [hset] at h
            cases h
          | ok k₁ =>
            rw [hset, ok_bind] at h
            cases hdown : it.down k₁.mem with
            | error f =>
              rw [hdown] at h
              cases h
            | ok it₁ =>
              rw [hdown, ok_bind] at h
              obtain ⟨l', hl'⟩ := ih h
              have hlink : Drawn L (k.take q) k₁ [] :=
                .of_physpages ((setPe_physpages hset).trans rfl)
              exact ⟨_, ((Drawn.take hfree).trans hlink).trans hl'⟩
      · cases h
    · cases h
      exact ⟨[], .refl L _⟩

/-- **`try_map`** only takes pages. -/
theorem tryMap_drawn (h : VmIter.tryMap L pa perm it k = .ok (r, it', k')) :
    ∃ l, Drawn L k k' l := by
  -- behind the loop an entry is written, at most
  have hend : ∀ {out : Int × VmIter × Kernel} {e : Nat},
      (if out.1 < 0 then .ok (out.1, out.2.1, out.2.2)
        else if out.2.1.lbits_ = PAGEOFFBITS then do
          let k ← out.2.1.setPe e out.2.2
          return (0, out.2.1, k)
        else .ok (0, out.2.1, out.2.2) : Except Fault (Int × VmIter × Kernel)) = .ok (r, it', k') →
      k'.physpages = out.2.2.physpages := by
    intro out e h
    split at h
    · cases h
      rfl
    · split at h
      · obtain ⟨k₁, hset, h⟩ := bind_eq_ok h
        cases h
        exact setPe_physpages hset
      · cases h
        rfl
  have hloop : ∃ out, VmIter.tryMapLoop L perm it.lbits_ it k = .ok out ∧
      k'.physpages = out.2.2.physpages := by
    rw [VmIter.tryMap] at h
    obtain ⟨-, -, h⟩ := bind_eq_ok h
    simp only [] at h
    split at h
    · obtain ⟨-, -, h⟩ := bind_eq_ok h
      obtain ⟨-, -, h⟩ := bind_eq_ok h
      obtain ⟨-, -, h⟩ := bind_eq_ok h
      obtain ⟨out, hrun, h⟩ := bind_eq_ok h
      exact ⟨out, hrun, hend h⟩
    · obtain ⟨-, -, h⟩ := bind_eq_ok h
      obtain ⟨-, -, h⟩ := bind_eq_ok h
      obtain ⟨out, hrun, h⟩ := bind_eq_ok h
      exact ⟨out, hrun, hend h⟩
  obtain ⟨out, hrun, hphys⟩ := hloop
  obtain ⟨l, hl⟩ := tryMapLoop_drawn hrun
  have hlast : Drawn L out.2.2 k' [] := .of_physpages hphys
  exact ⟨_, hl.trans hlast⟩

end

end SystemsProjects.WeensyOS
