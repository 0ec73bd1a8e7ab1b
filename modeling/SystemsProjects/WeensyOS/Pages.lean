/-
SystemsProjects.WeensyOS.Pages — allocatable pages, and stores within one
page.

A page is named by its physical address. `kalloc_cases` says all that
`kalloc` does; the rest is which pages and entries a store leaves alone.
-/
import SystemsProjects.WeensyOS.PageTree

namespace SystemsProjects.WeensyOS

open SystemsProjects.Base

/-! ## Allocatable pages -/

/-- A page that `kalloc` may hand out. -/
def IsPage (L : Layout) (p : Nat) : Prop :=
  p % 4096 = 0 ∧ allocatablePhysicalAddress L p = true

instance (L : Layout) (p : Nat) : Decidable (IsPage L p) := inferInstanceAs (Decidable (_ ∧ _))

/-- The reference count of the page at `p`. -/
def Kernel.refs (k : Kernel) (p : Nat) : Nat := k.physpages (p / 4096)

/-- A page that `kalloc` may hand out now. -/
def Free (L : Layout) (k : Kernel) (p : Nat) : Prop := IsPage L p ∧ k.refs p = 0

instance (L : Layout) (k : Kernel) (p : Nat) : Decidable (Free L k p) :=
  inferInstanceAs (Decidable (_ ∧ _))

/-- `kalloc` would fail. -/
def OutOfPages (L : Layout) (k : Kernel) : Prop := ∀ p, ¬ Free L k p

/-- The page at `q` taken by `kalloc`. -/
def Kernel.take (k : Kernel) (q : Nat) : Kernel :=
  { k with
    physpages := Function.update k.physpages (q / 4096) 1
    mem := k.mem.fill q 4096 0xCC }

section

variable {L : Layout} {k : Kernel}

theorem IsPage.bounds {p : Nat} (h : IsPage L p) :
    4096 ≤ p ∧ p < 0x200000 ∧ (p < 0xA0000 ∨ 0x100000 ≤ p) ∧
      (p < 0x40000 ∨ L.kernelEnd ≤ p) ∧ (p < 0x7F000 ∨ 0x80000 ≤ p) := by
  obtain ⟨-, h⟩ := h
  have hround : L.kernelEnd ≤ roundUp L.kernelEnd PAGESIZE := by
    simp only [roundUp, PAGESIZE]
    omega
  simp only [allocatablePhysicalAddress, reservedPhysicalAddress, Bool.and_eq_true,
    Bool.not_eq_true', Bool.or_eq_false_iff, Bool.and_eq_false_iff, Bool.or_eq_true,
    decide_eq_true_eq, decide_eq_false_iff_not] at h
  simp only [PAGESIZE, IOPHYSMEM, EXTPHYSMEM, KERNEL_START_ADDR, KERNEL_STACK_TOP,
    MEMSIZE_PHYSICAL] at h
  simp only [PAGESIZE] at hround
  omega

theorem IsPage.aligned {p : Nat} (h : IsPage L p) : p % 4096 = 0 := h.1

theorem div_page_inj {p q : Nat} (hp : p % 4096 = 0) (hq : q % 4096 = 0) :
    p / 4096 = q / 4096 ↔ p = q := by
  omega

/-- A bound on the counts of all pages. -/
theorem refs_lt_all {m : Nat} (h : ∀ p, p % 4096 = 0 → k.refs p < m) (p : Nat) : k.refs p < m := by
  have hpage : k.refs p = k.refs (p / 4096 * 4096) := by
    rw [Kernel.refs, Kernel.refs, Nat.mul_div_cancel _ (by decide)]
  rw [hpage]
  exact h _ (Nat.mul_mod_left _ _)

theorem refs_take {p q : Nat} (hp : p % 4096 = 0) (hq : q % 4096 = 0) :
    (k.take q).refs p = if p = q then 1 else k.refs p := by
  simp only [Kernel.take, Kernel.refs, Function.update_apply, div_page_inj hp hq]

/-- The search from `pageno` on. -/
theorem kallocLoop_cases {tries pageno : Nat} (hrange : pageno + tries = 512) :
    (kallocLoop L k tries pageno = (none, k) ∧
      ∀ n, pageno ≤ n → n < 512 → ¬ Free L k (n * 4096)) ∨
    ∃ n, pageno ≤ n ∧ n < 512 ∧ Free L k (n * 4096) ∧
      (∀ m, pageno ≤ m → m < n → ¬ Free L k (m * 4096)) ∧
      kallocLoop L k tries pageno = (some (n * 4096), k.take (n * 4096)) := by
  induction tries generalizing pageno with
  | zero => exact .inl ⟨rfl, fun n h1 h2 => by omega⟩
  | succ tries ih =>
    by_cases hfree : allocatablePhysicalAddress L (pageno * PAGESIZE) = true ∧
    k.physpages pageno = 0
    · right
      have hdiv : pageno * 4096 / 4096 = pageno := Nat.mul_div_cancel _ (by decide)
      refine ⟨pageno, Nat.le_refl _, by omega, ⟨⟨Nat.mul_mod_left _ _, hfree.1⟩, ?_⟩,
        fun m h1 h2 => by omega, ?_⟩
      · rw [Kernel.refs, hdiv]
        exact hfree.2
      · rw [kallocLoop, if_pos hfree, hfree.2]
        simp only [Kernel.take, Kernel.memset, Kernel.setRefcount, hdiv]
    · have hnot : ¬ Free L k (pageno * 4096) := by
        rintro ⟨hpage, hrefs⟩
        rw [Kernel.refs, Nat.mul_div_cancel _ (by decide)] at hrefs
        exact hfree ⟨hpage.2, hrefs⟩
      have hstep : kallocLoop L k (tries + 1) pageno =
          kallocLoop L k tries ((pageno + 1) % 512) := by
        rw [kallocLoop, if_neg hfree]
      rw [hstep]
      cases tries with
      | zero => exact .inl ⟨rfl, fun n h1 h2 => by rw [show n = pageno by omega]; exact hnot⟩
      | succ tries =>
        rw [Nat.mod_eq_of_lt (by omega)]
        obtain ⟨hnone, hall⟩ | ⟨n, hle, hlt, hn, hfirst, hsome⟩ :=
          ih (show pageno + 1 + (tries + 1) = 512 by omega)
        · refine .inl ⟨hnone, fun n h1 h2 => ?_⟩
          obtain rfl | h1 := Nat.eq_or_lt_of_le h1
          · exact hnot
          · exact hall n h1 h2
        · refine .inr ⟨n, by omega, hlt, hn, fun m h1 h2 => ?_, hsome⟩
          obtain rfl | h1 := Nat.eq_or_lt_of_le h1
          · exact hnot
          · exact hfirst m h1 h2

/-- **`kalloc`** fails if no page is free, and otherwise takes the first
free page. -/
theorem kalloc_cases (L : Layout) (k : Kernel) :
    (kalloc L PAGESIZE k = (none, k) ∧ OutOfPages L k) ∨
    ∃ q, Free L k q ∧ (∀ p < q, ¬ Free L k p) ∧ kalloc L PAGESIZE k = (some q, k.take q) := by
  have hpages : ∀ p, Free L k p → ∃ n, n < 512 ∧ p = n * 4096 := by
    intro p hp
    have := hp.1.bounds
    have := hp.1.aligned
    exact ⟨p / 4096, by omega, by omega⟩
  rw [show kalloc L PAGESIZE k = kallocLoop L k 512 0 from if_neg (Nat.lt_irrefl _)]
  obtain ⟨hnone, hall⟩ | ⟨n, -, hlt, hn, hfirst, hsome⟩ :=
    kallocLoop_cases (L := L) (k := k) (show 0 + 512 = 512 from rfl)
  · refine .inl ⟨hnone, fun p hp => ?_⟩
    obtain ⟨n, hn, rfl⟩ := hpages p hp
    exact hall n (Nat.zero_le n) hn hp
  · refine .inr ⟨n * 4096, hn, fun p hp hfree => ?_, hsome⟩
    obtain ⟨m, -, rfl⟩ := hpages p hfree
    exact hfirst m (Nat.zero_le m) (by omega) hfree

/-- One reference of the page at `p` given back. -/
def Kernel.release (k : Kernel) (p : Nat) : Kernel :=
  { k with physpages := Function.update k.physpages (p / 4096) (k.refs p - 1) }

theorem refs_release {p q : Nat} (hp : p % 4096 = 0) (hq : q % 4096 = 0) :
    (k.release q).refs p = if p = q then k.refs p - 1 else k.refs p := by
  simp only [Kernel.release, Kernel.refs, Function.update_apply, div_page_inj hp hq]
  split
  · rename_i h
    rw [h]
  · rfl

end

/-! ## Stores within a page -/

section

variable {mem : ByteMem} {p q i j e : Nat}

theorem samePage_fill {c : UInt8} (hp : p % 4096 = 0) (hq : q % 4096 = 0) (hne : p ≠ q) :
    SamePage mem (mem.fill q 4096 c) p :=
  fun i hi => ByteMem.fill_outside (by omega)

theorem samePage_copy {src : Nat} (hp : p % 4096 = 0) (hq : q % 4096 = 0) (hne : p ≠ q) :
    SamePage mem (mem.copy q src 4096) p :=
  fun i hi => ByteMem.update_outside (by omega)

theorem samePage_write (hp : p % 4096 = 0) (hq : q % 4096 = 0) (hne : p ≠ q) (hi : i < 512) :
    SamePage mem (mem.write (entryAddr q i) 8 e) p := by
  intro j hj
  refine ByteMem.write_outside ?_
  unfold entryAddr
  omega

theorem entry_write (he : e < 2 ^ 64) : entry (mem.write (entryAddr p i) 8 e) p i = e :=
  ByteMem.read_write (show e < 256 ^ 8 by omega)

theorem entry_write_ne (hne : j ≠ i) :
    entry (mem.write (entryAddr p i) 8 e) p j = entry mem p j := by
  refine ByteMem.read_write_of_disjoint ?_
  unfold ByteMem.Disjoint entryAddr
  omega

theorem entry_fill_zero (hi : i < 512) : entry (mem.fill p 4096 0) p i = 0 := by
  refine ByteMem.read_fill_zero ?_ ?_ <;> unfold entryAddr <;> omega

end

end SystemsProjects.WeensyOS
