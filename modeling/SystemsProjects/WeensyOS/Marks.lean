/-
SystemsProjects.WeensyOS.Marks — what `refresh` marks.

The loops of `refresh` store to the page of marks only, so the tables they
walk stay the same. The loop over a `ptiter` marks the pages that the
iterator has before it (`markTablesLoop_spec`), the one over a `vmiter`
every page for which the entry is a user's, since `next_range` passes over
no such page (`markPagesLoop_spec`). Together they mark each page with
those who hold it (`refresh_spec`).
-/
import SystemsProjects.WeensyOS.MemViewer
import SystemsProjects.WeensyOS.KernelImage

namespace SystemsProjects.WeensyOS

open SystemsProjects.Base
open SystemsProjects.Base.RadixTree

/-! ## Stores to one page -/

/-- Only the page at `v` has changed. -/
structure Scratch (v : Nat) (k k' : Kernel) : Prop where
  mem : ∀ p, p % 4096 = 0 → p ≠ v → SamePage k.mem k'.mem p
  physpages : k'.physpages = k.physpages
  ptable : k'.ptable = k.ptable
  current : k'.current = k.current

section

variable {k k' k'' : Kernel} {v pa flags root : Nat} {S : Nat → Nat → Prop}

theorem Scratch.refl (v : Nat) (k : Kernel) : Scratch v k k :=
  ⟨fun p _ _ => .refl k.mem p, rfl, rfl, rfl⟩

theorem Scratch.trans (h : Scratch v k k') (h' : Scratch v k' k'') : Scratch v k k'' where
  mem := fun p hp hne => (h.mem p hp hne).trans (h'.mem p hp hne)
  physpages := h'.physpages.trans h.physpages
  ptable := h'.ptable.trans h.ptable
  current := h'.current.trans h.current

theorem Scratch.sameTables (h : Scratch v k k') (ht : Tree k.mem root)
    (hv : ¬ IsTable k.mem root v) : SameTables k.mem k'.mem root := by
  intro p hp
  refine h.mem p (ht.table_aligned hp) ?_
  rintro rfl
  exact hv hp

theorem mark_scratch (hv : v % 4096 = 0) : Scratch v k (MemUsage.mark v pa flags k) := by
  rw [MemUsage.mark]
  split
  · rename_i hpa
    have hpa : pa < 1024 * 4096 := hpa
    refine ⟨fun p hp hne i hi => ?_, rfl, rfl, rfl⟩
    have hword : pa / 4096 < 1024 := by omega
    refine ByteMem.setFlags_outside ?_
    show p + i < v + 4 * (pa / 4096) ∨ v + 4 * (pa / 4096) + 4 ≤ p + i
    omega
  · exact .refl v k

/-- A marked page. -/
theorem mark_flags (h : k.mem.Flags v 1024 S) (hf : flags < 2 ^ 32) (pa : Nat) :
    (MemUsage.mark v pa flags k).mem.Flags v 1024
      fun pn b => S pn b ∨ pa / 4096 = pn ∧ flags.testBit b = true := by
  rw [MemUsage.mark]
  split
  · refine (h.setFlags hf (pa / 4096)).congr fun pn _ b => ?_
    rw [eq_comm (a := pn)]
  · rename_i hpa
    have hpa : ¬ pa < 1024 * 4096 := hpa
    refine h.congr fun pn hpn b => (or_iff_left ?_).symm
    rintro ⟨rfl, -⟩
    omega

end

/-! ## The loop over page-table pages -/

namespace PtIter

section

variable {mem : ByteMem} {root : Nat} {it it' : PtIter}

/-- An iterator that is done is at the end of the address space. -/
def AtEnd (it : PtIter) : Prop :=
  it.done = true → it.va_ < 2 ^ 64 ∧ 2 ^ 64 - 2 ^ 39 ≤ it.va_

theorem downLoop_atEnd {rounds stop : Nat} {skip : Bool}
    (h : downLoop mem rounds stop skip it = .ok it') (hl : it.lbits_ ≤ 39)
    (hva : it.va_ < 2 ^ 64) : it'.AtEnd := by
  induction rounds generalizing it stop skip with
  | zero => cases h
  | succ rounds ih =>
    have hdone : it.lbits_ < VmIter.done_lbits := Nat.lt_of_le_of_lt hl (by decide)
    rw [downLoop, if_pos hdone] at h
    simp only [] at h
    split at h
    · split at h
      · -- the iterator stops at a link
        rw [← Except.ok.inj h]
        intro hdone
        have hdone : it.lbits_ = 64 := of_decide_eq_true hdone
        omega
      · exact ih h (show it.lbits_ - 9 ≤ 39 by omega) hva
    · rw [or_lbitsMask] at h
      split at h
      · split at h
        · -- the last entry of the root
          rename_i hlast
          rw [← Except.ok.inj h]
          have hzero : (it.va_ / 2 ^ it.lbits_ + 1) * 2 ^ it.lbits_ % 2 ^ 64 = 0 := hlast.1
          have hroot : it.lbits_ = 39 := hlast.2
          rw [hroot] at hzero
          intro _
          show it.va_ < 2 ^ 64 ∧ 2 ^ 64 - 2 ^ 39 ≤ it.va_
          omega
        · exact ih h (Nat.le_refl 39) hva
      · refine ih h hl ?_
        show (if _ then _ else _) < 2 ^ 64
        split
        · exact Nat.mod_lt _ (by decide)
        · decide

theorem next_atEnd {r : Nat} {rest : List Nat} {mem' : ByteMem} (h : Shows mem root it (r :: rest))
    (hnext : next mem' it = .ok it') : it'.AtEnd := by
  obtain ⟨d, p, va, rfl, hpos, -, -⟩ := h
  exact downLoop_atEnd hnext (show 39 - 9 * d ≤ 39 by omega) hpos.va_lt

theorem new_atEnd (hnew : new mem root = .ok it) : it.AtEnd :=
  downLoop_atEnd hnew (Nat.le_refl 39) (show 0 < 2 ^ 64 by decide)

/-- At the end `va()` is out of the lower half. -/
theorem va_of_done (h : it.AtEnd) (hdone : it.done = true) : ¬ it.va < VA_LOWEND := by
  obtain ⟨hlt, hle⟩ := h hdone
  have hlbits : it.lbits_ = 64 := of_decide_eq_true hdone
  rw [va, hlbits, show 64 % 64 = 0 from rfl, and_lbitsUpper hlt (Nat.zero_le 64)]
  show ¬ it.va_ / 2 ^ 0 * 2 ^ 0 < 2 ^ 47
  omega

/-- In a table for low addresses `va()` stays below `VA_LOWEND` until the
end. -/
theorem va_of_low {high : Bool} {r : Nat} {rest : List Nat} (hlow : LowTables mem root high)
    (h : Shows mem root it (r :: rest)) : it.va < VA_LOWEND := by
  obtain ⟨d, p, va, rfl, hpos, hr, -⟩ := h
  have hd := hpos.depth
  have hnode : nodeAt (child mem) 512 root (d + 1) (slot (d + 1) va) = some r := by
    rw [nodeAt_succ_slot (by omega), hpos.node, Option.bind_some, hr]
  have hsmall : va % 2 ^ 48 < 2 ^ 39 := by
    rcases Nat.eq_or_lt_of_le hd with rfl | hlt
    · have hzero := hlow.narrow 2 (by decide) _ p hpos.node
      rw [slot] at hzero
      omega
    · have hzero := hlow.narrow (d + 1) (by omega) _ r hnode
      rw [slot] at hzero
      interval_cases d <;> omega
  have hlt := hpos.va_lt
  have hcanon := (canonical_iff hlt).mp hpos.canonical
  have hle : (atEntry root d p va).va ≤ va := Nat.and_le_left
  show (atEntry root d p va).va < 2 ^ 47
  omega

end

end PtIter

namespace MemUsage

section

variable {k k' : Kernel} {mem : ByteMem} {root v flags : Nat} {S : Nat → Nat → Prop}

/-- **The loop over page-table pages** marks those that its iterator
shows. -/
theorem markTablesLoop_spec {more : PtIter → Bool} {l : List Nat} {it : PtIter} {rounds : Nat}
    (hmore : ∀ it l, PtIter.Shows mem root it l → it.AtEnd → (more it = true ↔ l ≠ []))
    (hshows : PtIter.Shows mem root it l) (hend : it.AtEnd)
    (hkept : PtIter.Kept mem k.mem root l) (hv : v % 4096 = 0)
    (hpages : ∀ p ∈ root :: l, p % 4096 = 0 ∧ p ≠ v) (hrounds : l.length < rounds)
    (hf : flags < 2 ^ 32) (hmarks : k.mem.Flags v 1024 S) :
    ∃ k', markTablesLoop v more flags rounds it k = .ok k' ∧ Scratch v k k' ∧
      k'.mem.Flags v 1024 fun pn b =>
        S pn b ∨ (∃ r ∈ l, r / 4096 = pn) ∧ flags.testBit b = true := by
  induction l generalizing it k rounds S with
  | nil =>
    obtain ⟨rounds, rfl⟩ : ∃ n, rounds = n + 1 := ⟨rounds - 1, by omega⟩
    refine ⟨k, if_neg fun h => (hmore it [] hshows hend).mp h rfl, .refl v k, ?_⟩
    exact hmarks.congr fun pn _ b => by simp
  | cons r rest ih =>
    rw [List.length_cons] at hrounds
    obtain ⟨rounds, rfl⟩ : ∃ n, rounds = n + 1 := ⟨rounds - 1, by omega⟩
    obtain ⟨-, hkptr, hstep⟩ := PtIter.next_spec hshows
    have hsub : root :: rest ⊆ root :: r :: rest :=
      List.cons_subset_cons root (List.subset_cons_self r rest)
    have hpa : it.pa k.mem = r := hkptr k.mem (hkept.mono (List.subset_cons_self r rest))
    have hscratch : Scratch v k (mark v r flags k) := mark_scratch hv
    have hkept' : PtIter.Kept mem (mark v r flags k).mem root rest := by
      have hstill : ∀ p ∈ root :: rest, SamePage k.mem (mark v r flags k).mem p := fun p hp =>
        hscratch.mem p (hpages p (hsub hp)).1 (hpages p (hsub hp)).2
      exact ⟨hkept.1.trans (hstill root List.mem_cons_self), fun p hp =>
        (hkept.2 p (List.mem_cons_of_mem r hp)).trans (hstill p (List.mem_cons_of_mem root hp))⟩
    obtain ⟨it', hnext, hrest⟩ := hstep _ hkept'
    obtain ⟨k', hloop, hscratch', hmarks'⟩ := ih hrest (PtIter.next_atEnd hshows hnext) hkept'
      (fun p hp => hpages p (hsub hp)) (show rest.length < rounds by omega) (mark_flags hmarks hf r)
    refine ⟨k', ?_, hscratch.trans hscratch', hmarks'.congr fun pn _ b => ?_⟩
    · rw [markTablesLoop, if_pos ((hmore it _ hshows hend).mpr (List.cons_ne_nil r rest)), hpa]
      simp only [hnext, ok_bind]
      exact hloop
    · simp only [List.mem_cons, exists_eq_or_imp]
      tauto

end

end MemUsage

/-! ## The loop over pages -/

/-- The pages of the lower half of the address space. -/
abbrev lowPages : Nat := 2 ^ 35

namespace VmIter

section

variable {mem : ByteMem} {root n : Nat} {it : VmIter}

theorem user_congr (it : VmIter) (va : Nat) :
    ({ it with va_ := va } : VmIter).user mem = it.user mem := rfl

theorem slot_mul (hn : n < lowPages) : slot 4 (n * 4096) = n := by
  have hn : n < 2 ^ 35 := hn
  rw [slot]
  omega

theorem canonical_mul (hn : n < lowPages) : vaIsCanonical (n * 4096) = true := by
  have hn : n < 2 ^ 35 := hn
  rw [canonical_iff (by omega)]
  omega

/-- What an iterator shows of page `n`. -/
theorem Sees.user_page (h : Sees mem root (n * 4096) it) (hn : n < lowPages) :
    it.user mem = true ↔ UserEntry (leaf mem root n) := by
  rw [user, hasPerm, decide_eq_true_eq, h.perm_eq, slot_mul hn,
    entryPerm_and (by decide) (by decide), UserEntry]

theorem Sees.pa_page (h : Sees mem root (n * 4096) it) (hn : n < lowPages)
    (hpresent : leaf mem root n &&& PTE_P ≠ 0) : it.pa mem = leaf mem root n &&& PTE_PAMASK := by
  have hpa := h.pa_eq
  rw [slot_mul hn] at hpa
  rw [hpa hpresent, Nat.mul_mod_left, Nat.add_zero]

/-- The iterator is at page `n`, or at the end of the lower half. -/
structure AtPage (mem : ByteMem) (root : Nat) (it : VmIter) (n : Nat) : Prop where
  le : n ≤ lowPages
  va_eq : it.va_ = n * 4096
  new_eq : n < lowPages → new mem root (n * 4096) = .ok it

theorem AtPage.fresh (h : AtPage mem root it n) (hn : n < lowPages) : Fresh mem root it := by
  have hlt : n < 2 ^ 35 := hn
  refine ⟨?_, ?_⟩
  · rw [h.va_eq]
    omega
  · rw [h.va_eq]
    exact h.new_eq hn

theorem AtPage.sees (h : AtPage mem root it n) (hn : n < lowPages) (ht : Tree mem root)
    (hplain : NoLarge mem root) : Sees mem root (n * 4096) it := by
  obtain ⟨it', hnew, hsees⟩ := new_sees ht (.inl hplain) (canonical_mul hn)
  rw [h.new_eq hn] at hnew
  cases hnew
  exact hsees

/-- A step to page `m`. -/
theorem AtPage.step {m : Nat} (h : AtPage mem root it n) (hn : n < lowPages) (ht : Tree mem root)
    (hm : n < m) (hle : m ≤ lowPages) :
    ∃ it', realFind mem (m * 4096) true it = .ok it' ∧ AtPage mem root it' m := by
  have hlow : m ≤ 2 ^ 35 := hle
  obtain ⟨it', hrun, hend⟩ := (h.fresh hn).realFind_stepping ht.aligned ht.low
    (show m * 4096 < 2 ^ 64 by omega)
  obtain ⟨-, hva, hfresh⟩ := hend.resolve_left fun hzero => by omega
  refine ⟨it', hrun, hle, hva, fun _ => ?_⟩
  rw [← hva]
  exact hfresh.new_eq

/-- `next` goes from a page with permissions to the page behind it. -/
theorem AtPage.next (h : AtPage mem root it n) (hn : n < lowPages) (ht : Tree mem root)
    (hperm : it.perm mem ≠ 0) : ∃ it', it.next mem = .ok it' ∧ AtPage mem root it' (n + 1) := by
  have hlt : n < 2 ^ 35 := hn
  obtain ⟨it', hrun, hat⟩ := h.step hn ht (Nat.lt_succ_self n) hn
  refine ⟨it', ?_, hat⟩
  have hva : ((it.va_ ||| lbitsMask PAGEOFFBITS) + 1) % 2 ^ 64 = (n + 1) * 4096 := by
    rw [or_lbitsMask, h.va_eq]
    show (n * 4096 / 2 ^ 12 + 1) * 2 ^ 12 % 2 ^ 64 = (n + 1) * 4096
    omega
  have hcond : ¬ (it.lbits_ > PAGEOFFBITS ∧ it.perm mem = 0) := fun hc => hperm hc.2
  simp only [VmIter.next, if_neg hcond, hva]
  exact hrun

/-- **`next_range`** goes from a page that is no user's to a later one,
over pages that are no user's either. -/
theorem AtPage.nextRange (h : AtPage mem root it n) (hn : n < lowPages) (ht : Tree mem root)
    (hplain : NoLarge mem root) (huser : ¬ it.user mem = true) :
    ∃ it' m, it.nextRange mem = .ok it' ∧ AtPage mem root it' m ∧ n < m ∧
      ∀ i, n ≤ i → i < m → ¬ UserEntry (leaf mem root i) := by
  have hlt : n < 2 ^ 35 := hn
  obtain ⟨d, p, hstop, hnew⟩ := new_spec ht (canonical_mul hn)
  have hd := hstop.depth
  have hfresh := h.fresh hn
  obtain rfl : it = iterAt root (n * 4096) d p := Except.ok.inj ((h.new_eq hn).symm.trans hnew)
  -- the range ends at page `m`
  have hrange : ∃ m, n < m ∧ m ≤ 2 ^ 35 ∧
      (n * 4096 / 2 ^ (39 - 9 * d) + 1) * 2 ^ (39 - 9 * d) = m * 4096 := by
    refine ⟨(n * 4096 / 2 ^ (39 - 9 * d) + 1) * 2 ^ (39 - 9 * d) / 4096, ?_, ?_, ?_⟩ <;>
      interval_cases d <;> omega
  obtain ⟨m, hnm, hm, hceil⟩ := hrange
  have hlast : (iterAt root (n * 4096) d p).lastVa = m * 4096 := by
    have hcanon : ¬ (iterAt root (n * 4096) d p).lbits_ = noncanonical_lbits :=
      show ¬ 39 - 9 * d = 47 by omega
    rw [lastVa, if_neg hcanon, or_lbitsMask]
    show (n * 4096 / 2 ^ (39 - 9 * d) + 1) * 2 ^ (39 - 9 * d) % 2 ^ 64 = m * 4096
    rw [hceil]
    omega
  obtain ⟨it', hrun, hat⟩ := h.step hn ht hnm hm
  refine ⟨it', m, by rw [VmIter.nextRange, hlast, hrun], hat, hnm, fun i hi hlow hentry => huser ?_⟩
  -- the entry of page `n` is that of page `i`
  have hi' : i < lowPages := show i < 2 ^ 35 by omega
  have hsame : (iterAt root (n * 4096) d p).va_ / 2 ^ (39 - 9 * d) = i * 4096 / 2 ^ (39 - 9 * d) :=
    div_eq_of_lt_ceil (show n * 4096 ≤ i * 4096 by omega) (by
      show i * 4096 < (n * 4096 / 2 ^ (39 - 9 * d) + 1) * 2 ^ (39 - 9 * d)
      omega)
  have hnewi := hfresh.sameRange ht.aligned (show i * 4096 < 2 ^ 64 by omega) hsame
  obtain ⟨iti, hnewi', hsees⟩ := new_sees ht (.inl hplain) (canonical_mul hi')
  rw [← Except.ok.inj (hnewi.symm.trans hnewi')] at hsees
  rw [← user_congr _ (i * 4096)]
  exact (hsees.user_page hi').mpr hentry

theorem AtPage.congr {mem' : ByteMem} (h : AtPage mem root it n) (ht : Tree mem root)
    (hsame : SameTables mem mem' root) : AtPage mem' root it n :=
  ⟨h.le, h.va_eq, fun hn => (new_congr ht hsame (canonical_mul hn)).trans (h.new_eq hn)⟩

theorem perm_ne_zero (h : it.user mem = true) : it.perm mem ≠ 0 := by
  rw [user, hasPerm, decide_eq_true_eq] at h
  intro hzero
  rw [hzero, Nat.zero_and] at h
  cases h

end

end VmIter

namespace MemUsage

/-- The flags of page `n` of a process, with entry `e`. -/
def pageFlags (pidflag n e : Nat) : Nat :=
  if n * 4096 = e &&& PTE_PAMASK then f_user ||| pidflag else f_user ||| f_nonidentity ||| pidflag

/-- The marks of the pages that a table maps for a process, from page `n`
on. -/
def PageMarks (pidflag : Nat) (lf : Nat → Nat) (n pn b : Nat) : Prop :=
  ∃ i, n ≤ i ∧ i < lowPages ∧ UserEntry (lf i) ∧ (lf i &&& PTE_PAMASK) / 4096 = pn ∧
    (pageFlags pidflag i (lf i)).testBit b = true

section

variable {k k' : Kernel} {root v n m pn b pidflag rounds : Nat} {it : VmIter} {lf : Nat → Nat}
  {S : Nat → Nat → Prop}

theorem pageFlags_lt (hf : pidflag < 2 ^ 32) (n e : Nat) : pageFlags pidflag n e < 2 ^ 32 := by
  rw [pageFlags]
  split
  · exact Nat.or_lt_two_pow (by decide) hf
  · exact Nat.or_lt_two_pow (by decide) hf

/-- Pages that are no user's leave no marks. -/
theorem PageMarks.skip (hnm : n ≤ m) (hskip : ∀ i, n ≤ i → i < m → ¬ UserEntry (lf i)) :
    PageMarks pidflag lf n pn b ↔ PageMarks pidflag lf m pn b := by
  constructor
  · rintro ⟨i, hi, hlow, huser, hrest⟩
    refine ⟨i, ?_, hlow, huser, hrest⟩
    by_contra hlt
    exact hskip i hi (Nat.lt_of_not_le hlt) huser
  · rintro ⟨i, hi, hrest⟩
    exact ⟨i, hnm.trans hi, hrest⟩

theorem PageMarks.cons (hn : n < lowPages) (huser : UserEntry (lf n)) :
    PageMarks pidflag lf n pn b ↔
      (lf n &&& PTE_PAMASK) / 4096 = pn ∧ (pageFlags pidflag n (lf n)).testBit b = true ∨
        PageMarks pidflag lf (n + 1) pn b := by
  constructor
  · rintro ⟨i, hi, hlow, hrest⟩
    rcases Nat.eq_or_lt_of_le hi with rfl | hlt
    · exact .inl hrest.2
    · exact .inr ⟨i, hlt, hlow, hrest⟩
  · rintro (hrest | ⟨i, hi, hrest⟩)
    · exact ⟨n, Nat.le_refl n, hn, huser, hrest⟩
    · exact ⟨i, (Nat.le_succ n).trans hi, hrest⟩

theorem PageMarks.end (h : PageMarks pidflag lf lowPages pn b) : False := by
  obtain ⟨i, hi, hlow, -⟩ := h
  exact absurd hlow (Nat.not_lt.mpr hi)

/-- **The loop over the pages of a process** marks those that the process
may access. -/
theorem markPagesLoop_spec (hat : VmIter.AtPage k.mem root it n) (ht : Tree k.mem root)
    (hplain : NoLarge k.mem root) (hlf : leaf k.mem root = lf) (hv : v % 4096 = 0)
    (hnot : ¬ IsTable k.mem root v) (hrounds : lowPages - n < rounds) (hf : pidflag < 2 ^ 32)
    (hmarks : k.mem.Flags v 1024 S) :
    ∃ k', markPagesLoop v (processFlags pidflag) rounds it k = .ok k' ∧ Scratch v k k' ∧
      k'.mem.Flags v 1024 fun pn b => S pn b ∨ PageMarks pidflag lf n pn b := by
  induction rounds generalizing it k n S with
  | zero => omega
  | succ rounds ih =>
    have hle : n ≤ 2 ^ 35 := hat.le
    have hva := hat.va_eq
    rw [markPagesLoop, hva]
    by_cases hn : n < lowPages
    · have hlt : n * 4096 < VA_LOWEND := by
        have hn : n < 2 ^ 35 := hn
        show n * 4096 < 2 ^ 47
        omega
      have hrounds : 2 ^ 35 - n < rounds + 1 := hrounds
      rw [if_pos hlt]
      have huser := (hat.sees hn ht hplain).user_page hn
      rw [hlf] at huser
      by_cases hentry : UserEntry (lf n)
      · have hpa := (hat.sees hn ht hplain).pa_page hn (by rw [hlf]; exact hentry.present)
        rw [hlf] at hpa
        have hflags : processFlags pidflag it k = some (pageFlags pidflag n (lf n)) := by
          rw [processFlags, if_pos (huser.mpr hentry), hva, hpa]
          rfl
        -- the page is marked, and the next one is at the next address
        have hscratch : Scratch v k
            (mark v (lf n &&& PTE_PAMASK) (pageFlags pidflag n (lf n)) k) := mark_scratch hv
        have hsame := hscratch.sameTables ht hnot
        have hat' := hat.congr ht hsame
        have ht' := hsame.tree ht
        have hlf' : leaf (mark v (lf n &&& PTE_PAMASK) (pageFlags pidflag n (lf n)) k).mem root
            = lf := by rw [funext hsame.leaf, hlf]
        have huser' := (hat'.sees hn ht' (hsame.noLarge hplain)).user_page hn
        rw [hlf'] at huser'
        obtain ⟨it', hnext, hat''⟩ := hat'.next hn ht' (VmIter.perm_ne_zero (huser'.mpr hentry))
        obtain ⟨k', hloop, hscratch', hmarks'⟩ := ih hat'' ht' (hsame.noLarge hplain) hlf'
          (by rw [hsame.isTable]; exact hnot) (show 2 ^ 35 - (n + 1) < rounds by omega)
          (mark_flags hmarks (pageFlags_lt hf n (lf n)) _)
        refine ⟨k', ?_, hscratch.trans hscratch', hmarks'.congr fun pn _ b => ?_⟩
        · simp only [hflags, hpa, hnext, ok_bind]
          exact hloop
        · rw [PageMarks.cons hn hentry, or_assoc]
      · have hflags : processFlags pidflag it k = none :=
          if_neg fun h => hentry (huser.mp h)
        obtain ⟨it', m, hnext, hat', hnm, hskip⟩ :=
          hat.nextRange hn ht hplain fun h => hentry (huser.mp h)
        rw [hlf] at hskip
        obtain ⟨k', hloop, hscratch, hmarks'⟩ := ih hat' ht hplain hlf hnot
          (show 2 ^ 35 - m < rounds by omega) hmarks
        refine ⟨k', ?_, hscratch, hmarks'.congr fun pn _ b => ?_⟩
        · simp only [hflags, hnext, ok_bind]
          exact hloop
        · rw [PageMarks.skip (Nat.le_of_lt hnm) hskip]
    · obtain rfl : n = lowPages := Nat.le_antisymm hat.le (Nat.not_lt.mp hn)
      refine ⟨k, if_neg (by decide), .refl v k, hmarks.congr fun pn _ b => ?_⟩
      exact (or_iff_left PageMarks.end).symm

/-- The loop from the first page on. -/
theorem markPages_spec (ht : Tree k.mem root) (hplain : NoLarge k.mem root)
    (hlf : leaf k.mem root = lf) (hv : v % 4096 = 0) (hnot : ¬ IsTable k.mem root v)
    (hf : pidflag < 2 ^ 32) (hmarks : k.mem.Flags v 1024 S) :
    ∃ k', markPages v (processFlags pidflag) root k = .ok k' ∧ Scratch v k k' ∧
      k'.mem.Flags v 1024 fun pn b => S pn b ∨ PageMarks pidflag lf 0 pn b := by
  obtain ⟨it, hnew, hsees⟩ := VmIter.new_sees ht (.inl hplain)
    (VmIter.canonical_mul (show 0 < lowPages by decide))
  have hat : VmIter.AtPage k.mem root it 0 := ⟨Nat.zero_le _, hsees.va_eq, fun _ => hnew⟩
  rw [Nat.zero_mul] at hnew
  rw [markPages, hnew, ok_bind]
  exact markPagesLoop_spec hat ht hplain hlf hv hnot (by decide) hf hmarks

/-! ## `refresh` -/

/-- The page-table pages below the root. -/
theorem markTables_spec {more : PtIter → Bool} {flags : Nat} (ht : Tree k.mem root)
    (hmore : ∀ it l, PtIter.Shows k.mem root it l → it.AtEnd → (more it = true ↔ l ≠ []))
    (hv : v % 4096 = 0) (hnot : ¬ IsTable k.mem root v) (hf : flags < 2 ^ 32)
    (hmarks : k.mem.Flags v 1024 S) :
    ∃ it k', PtIter.new k.mem root = .ok it ∧
      markTablesLoop v more flags tableRounds it k = .ok k' ∧ Scratch v k k' ∧
        (mark v root flags k').mem.Flags v 1024 fun pn b =>
          S pn b ∨ (∃ p, IsTable k.mem root p ∧ p / 4096 = pn) ∧ flags.testBit b = true := by
  obtain ⟨it, l, hnew, hl, hshows⟩ := PtIter.new_spec k.mem root
  have hmem : ∀ p, p ∈ l ↔ IsTable k.mem root p ∧ p ≠ root := by
    intro p
    rw [hl]
    exact mem_belowRoot_iff ht.distinct
  have hpages : ∀ p ∈ root :: l, p % 4096 = 0 ∧ p ≠ v := by
    intro p hp
    have htable : IsTable k.mem root p := by
      rcases List.mem_cons.mp hp with rfl | hp
      · exact isNode_root
      · exact ((hmem p).mp hp).1
    refine ⟨ht.table_aligned htable, ?_⟩
    rintro rfl
    exact hnot htable
  obtain ⟨k', hloop, hscratch, hmarks'⟩ := markTablesLoop_spec hmore hshows
    (PtIter.new_atEnd hnew) (.refl _ _ _) hv hpages
    (by rw [hl]; exact belowRoot_length k.mem root) hf hmarks
  refine ⟨it, k', hnew, hloop, hscratch, (mark_flags hmarks' hf root).congr fun pn _ b => ?_⟩
  -- the root, and the pages that the loop has marked
  have htables : (∃ p, IsTable k.mem root p ∧ p / 4096 = pn) ↔
      (∃ r ∈ l, r / 4096 = pn) ∨ root / 4096 = pn := by
    constructor
    · rintro ⟨p, hp, hpn⟩
      by_cases hroot : p = root
      · exact .inr (hroot ▸ hpn)
      · exact .inl ⟨p, (hmem p).mpr ⟨hp, hroot⟩, hpn⟩
    · rintro (⟨p, hp, hpn⟩ | hpn)
      · exact ⟨p, ((hmem p).mp hp).1, hpn⟩
      · exact ⟨root, isNode_root, hpn⟩
  rw [htables, or_and_right, or_assoc]

end

/-- The page of marks at `v`, which nobody holds, is allocated, and only
its contents differ. -/
structure Viewed (L : Layout) (v : Nat) (k k' : Kernel) : Prop where
  page : IsPage L v
  unheld : total k v = 0
  before : k.refs v ≤ 1
  used : k'.refs v = 1
  refs : ∀ p, p % 4096 = 0 → p ≠ v → k'.refs p = k.refs p
  mem : ∀ p, p % 4096 = 0 → p ≠ v → SamePage k.mem k'.mem p
  ptable : k'.ptable = k.ptable
  current : k'.current = k.current

/-- The page of marks is not allocated yet, or is nobody's. -/
def HasMarks (L : Layout) (k : Kernel) (v : Nat) : Prop :=
  v = 0 ∨ IsPage L v ∧ k.refs v = 1 ∧ total k v = 0

/-- The marks of process `pid`. -/
def ProcessMarks (k : Kernel) (pid pn b : Nat) : Prop :=
  Live k pid ∧ ((∃ p, IsTable k.mem (k.root pid) p ∧ p / 4096 = pn) ∧
      (f_kernel ||| fProcess pid).testBit b = true ∨
    PageMarks (fProcess pid) (leaf k.mem (k.root pid)) 0 pn b)

/-- All marks. -/
def Marks (L : Layout) (k : Kernel) (v pn b : Nat) : Prop :=
  ((∃ p, IsTable k.mem L.kernelPagetable p ∧ p / 4096 = pn) ∨ v / 4096 = pn) ∧
      f_kernel.testBit b = true ∨
    ∃ pid, ProcessMarks k pid pn b

section

variable {L : Layout} {k k' k'' : Kernel} {v pid p : Nat} {S : Nat → Nat → Prop}

theorem Viewed.scratch (h : Viewed L v k k') (h' : Scratch v k' k'') : Viewed L v k k'' where
  page := h.page
  unheld := h.unheld
  before := h.before
  used := by rw [Kernel.refs, h'.physpages]; exact h.used
  refs := fun p hp hne => by rw [Kernel.refs, h'.physpages]; exact h.refs p hp hne
  mem := fun p hp hne => (h.mem p hp hne).trans (h'.mem p hp hne)
  ptable := h'.ptable.trans h.ptable
  current := h'.current.trans h.current

/-- A page that nobody holds is no page-table page of a process. -/
theorem not_table_of_unheld (h : total k v = 0) (hlive : Live k pid) :
    holds k.mem (k.root pid) v = 0 := by
  have hle := shares_le_total (p := v) hlive
  rw [shares_live hlive] at hle
  omega

theorem Viewed.not_table (h : Viewed L v k k') (hlive : Live k pid) :
    ¬ IsTable k.mem (k.root pid) v := by
  intro ht
  exact absurd (not_table_of_unheld h.unheld hlive) (Nat.ne_of_gt (holds_pos.mpr (.inl ht)))

theorem Viewed.sameTables (h : Viewed L v k k') (hinv : Inv L k) (hlive : Live k pid) :
    SameTables k.mem k'.mem (k.root pid) := by
  intro p hp
  refine h.mem p ((hinv.spaces pid hlive).tree.table_aligned hp) ?_
  rintro rfl
  exact h.not_table hlive hp

theorem Viewed.live (h : Viewed L v k k') (pid : Nat) : Live k' pid ↔ Live k pid := by
  rw [Live, Live, h.ptable]

theorem Viewed.root (h : Viewed L v k k') (pid : Nat) : k'.root pid = k.root pid := by
  rw [Kernel.root, h.ptable]

/-- The kernel with its page of marks: the tables and the counts in use
are the same. -/
theorem Viewed.keeps (h : Viewed L v k k') (hinv : Inv L k) : Keeps k k' where
  refs := by
    intro p hp hpos
    by_cases hne : p = v
    · subst hne
      have hbefore := h.before
      rw [h.used]
      omega
    · exact h.refs p hp hne
  fresh := by
    intro p hp hzero
    by_cases hne : p = v
    · subst hne
      exact Nat.le_of_eq h.used
    · rw [h.refs p hp hne, hzero]
      exact Nat.zero_le 1
  tables := fun _ hlive => h.sameTables hinv hlive
  root := h.root
  live := h.live

theorem fProcess_lt (pid : Nat) : fProcess pid < 2 ^ 32 := by
  rw [fProcess]
  split
  · decide
  · split
    · rename_i h29 h1
      rw [Int.toNat_natCast, Nat.shiftLeft_eq]
      have hpid : pid ≤ 28 := by omega
      exact Nat.lt_of_le_of_lt (Nat.mul_le_mul_left 4 (Nat.pow_le_pow_right Nat.two_pos hpid))
        (by decide)
    · decide

/-- The root of a process is no page of the kernel's image. -/
theorem root_ne (h : IsPage L p) : p ≠ 0 ∧ p ≠ L.kernelPagetable := by
  have hb := h.bounds
  have hstart : 0x40000 ≤ L.kernelPagetable := L.start_le
  have hend : L.kernelPagetable + 5 * 4096 ≤ L.kernelEnd := L.pagetable_le
  omega

/-- **One process** marks what it holds. -/
theorem markProcess_spec (sep : Bool) (hinv : Inv L k)
    (hlow : ∀ pid, Live k pid → LowTables k.mem (k.root pid) true) (hview : Viewed L v k k')
    (hpid : pid < PID_MAX) (hmarks : k'.mem.Flags v 1024 S) :
    ∃ k'', markProcess L v (sep, k') pid = .ok (sep || decide (Live k pid), k'') ∧
      Scratch v k' k'' ∧ k''.mem.Flags v 1024 fun pn b => S pn b ∨ ProcessMarks k pid pn b := by
  have hv := hview.page.aligned
  rw [markProcess, show k'.ptable pid = k.ptable pid by rw [hview.ptable]]
  by_cases hlive : Live k pid
  · have hspace := hinv.spaces pid hlive
    have hsame := hview.sameTables hinv hlive
    have hroot := root_ne (hspace.tables _ isNode_root)
    have hnot : ¬ IsTable k'.mem (k.root pid) v := by
      rw [hsame.isTable]
      exact hview.not_table hlive
    have hmore : ∀ it l, PtIter.Shows k'.mem (k.root pid) it l → it.AtEnd →
        (decide (it.va < VA_LOWEND) = true ↔ l ≠ []) := by
      intro it l hshows hend
      rw [decide_eq_true_eq]
      cases l with
      | nil => exact iff_of_false (PtIter.va_of_done hend hshows) (not_not_intro rfl)
      | cons r rest =>
        exact iff_of_true (PtIter.va_of_low (hsame.lowTables (hlow pid hlive)) hshows)
          (List.cons_ne_nil r rest)
    have hflags : f_kernel ||| fProcess pid < 2 ^ 32 :=
      Nat.or_lt_two_pow (by decide) (fProcess_lt pid)
    obtain ⟨it, k₁, hnew, hloop, hscratch₁, hmarks₁⟩ :=
      markTables_spec (hsame.tree hspace.tree) hmore hv hnot hflags hmarks
    have hscratch : Scratch v k' (mark v (k.root pid) (f_kernel ||| fProcess pid) k₁) :=
      hscratch₁.trans (mark_scratch hv)
    have hsame' := (hview.scratch hscratch).sameTables hinv hlive
    obtain ⟨k₂, hpages, hscratch₂, hmarks₂⟩ := markPages_spec (hsame'.tree hspace.tree)
      (hsame'.noLarge hspace.noLarge) (funext hsame'.leaf) hv
      (by rw [hsame'.isTable]; exact hview.not_table hlive) (fProcess_lt pid) hmarks₁
    refine ⟨k₂, ?_, hscratch.trans hscratch₂, hmarks₂.congr fun pn _ b => ?_⟩
    · rw [decide_eq_true hlive, Bool.or_true]
      dsimp only
      rw [if_pos ⟨hlive.2, hroot.1, hroot.2⟩, hnew, ok_bind, hloop, ok_bind]
      rw [hpages]
      rfl
    · simp only [ProcessMarks, hlive, hsame.isTable, true_and, or_assoc]
  · have hfree : (k.ptable pid).state = .free := by
      by_contra hstate
      exact hlive ⟨hpid, hstate⟩
    refine ⟨k', ?_, .refl v k', hmarks.congr fun pn _ b => ?_⟩
    · rw [decide_eq_false hlive, Bool.or_false]
      exact if_neg fun h => h.1 hfree
    · exact (or_iff_left fun h => hlive h.1).symm

/-- The loop over the processes. -/
theorem markProcesses_spec {l : List Nat} (sep : Bool) (hinv : Inv L k)
    (hlow : ∀ pid, Live k pid → LowTables k.mem (k.root pid) true) (hview : Viewed L v k k')
    (hl : ∀ pid ∈ l, pid < PID_MAX) (hmarks : k'.mem.Flags v 1024 S) :
    ∃ k'', l.foldlM (markProcess L v) (sep, k') =
        .ok (sep || l.any fun pid => decide (Live k pid), k'') ∧
      Scratch v k' k'' ∧
        k''.mem.Flags v 1024 fun pn b => S pn b ∨ ∃ pid ∈ l, ProcessMarks k pid pn b := by
  induction l generalizing k' sep S with
  | nil =>
    refine ⟨k', ?_, .refl v k', hmarks.congr fun pn _ b => by simp⟩
    rw [List.any_nil, Bool.or_false]
    rfl
  | cons pid l ih =>
    obtain ⟨k₁, hrun, hscratch, hmarks₁⟩ :=
      markProcess_spec sep hinv hlow hview (hl pid List.mem_cons_self) hmarks
    obtain ⟨k₂, hrest, hscratch', hmarks₂⟩ := ih (sep || decide (Live k pid))
      (hview.scratch hscratch) (fun i hi => hl i (List.mem_cons_of_mem pid hi)) hmarks₁
    refine ⟨k₂, ?_, hscratch.trans hscratch', hmarks₂.congr fun pn _ b => ?_⟩
    · rw [List.foldlM_cons, hrun, ok_bind, hrest, List.any_cons, Bool.or_assoc]
    · simp only [List.mem_cons, exists_eq_or_imp, or_assoc]

/-- The page of marks is there, or cannot be allocated. -/
theorem ensureMarks_cases {mu : MemUsage} (hinv : Inv L k) (hmarks : HasMarks L k mu.v_) :
    (ensureMarks L mu k = .error .assertion ∧ mu.v_ = 0 ∧ OutOfPages L k) ∨
      ∃ v k', ensureMarks L mu k = .ok (v, k') ∧ Viewed L v k k' := by
  rw [ensureMarks]
  rcases hmarks with hzero | ⟨hpage, hrefs, htotal⟩
  · rw [if_pos hzero]
    rcases kalloc_cases L k with ⟨hrun, hnone⟩ | ⟨q, hq, -, hrun⟩
    · exact .inl ⟨by rw [hrun], hzero, hnone⟩
    · refine .inr ⟨q, k.take q, by rw [hrun], ?_⟩
      have hqal := hq.1.aligned
      have hbound := hinv.bound q hqal
      have hfree := hq.2
      exact {
        page := hq.1
        unheld := by omega
        before := by omega
        used := by rw [refs_take hqal hqal, if_pos rfl]
        refs := fun p hp hne => by rw [refs_take hp hqal, if_neg hne]
        mem := fun p hp hne => samePage_fill hp hqal hne
        ptable := rfl
        current := rfl }
  · have hne : mu.v_ ≠ 0 := (root_ne hpage).1
    rw [if_neg hne]
    exact .inr ⟨mu.v_, k, rfl, {
      page := hpage
      unheld := htotal
      before := Nat.le_of_eq hrefs
      used := hrefs
      refs := fun _ _ _ => rfl
      mem := fun p _ _ => .refl k.mem p
      ptable := rfl
      current := rfl }⟩

/-- The kernel's page-table pages are no marks. -/
theorem Viewed.kernelTables (h : Viewed L v k k') (hk : KernelTable L k.mem) :
    SameTables k.mem k'.mem L.kernelPagetable := by
  intro p hp
  refine h.mem p (hk.tree.table_aligned hp) ?_
  rintro rfl
  exact hk.not_page hp h.page

/-- **`refresh`** marks every page with the kernel and the processes that
hold it, unless there is no page for the marks. -/
theorem refresh_spec {mu : MemUsage} (hinv : Inv L k) (hhoused : Housed L k) (hlive : Live k pid)
    (hmarks : HasMarks L k mu.v_) :
    (mu.refresh L k = .error .assertion ∧ mu.v_ = 0 ∧ OutOfPages L k) ∨
      ∃ v k', mu.refresh L k = .ok ({ v_ := v, separate_tables_ := true }, k') ∧
        Viewed L v k k' ∧ k'.mem.Flags v 1024 (Marks L k v) := by
  rw [refresh]
  rcases ensureMarks_cases hinv hmarks with ⟨hrun, hzero, hnone⟩ | ⟨v, k₁, hrun, hview₁⟩
  · exact .inl ⟨by rw [hrun]; rfl, hzero, hnone⟩
  · refine .inr ?_
    have hv := hview₁.page.aligned
    have hk := hhoused.kernel.toKernelTable
    -- the cleared page
    have hclear : Scratch v k₁ (k₁.memset v 0 (maxpa / PAGESIZE * 4)) :=
      ⟨fun p hp hne => samePage_fill hp hv hne, rfl, rfl, rfl⟩
    have hview₂ := hview₁.scratch hclear
    have hmarks₂ : (k₁.memset v 0 (maxpa / PAGESIZE * 4)).mem.Flags v 1024 fun _ _ => False :=
      ByteMem.flags_fill_zero k₁.mem v 1024
    rw [hrun, ok_bind]
    dsimp only
    generalize k₁.memset v 0 (maxpa / PAGESIZE * 4) = k₂ at hclear hview₂ hmarks₂ ⊢
    -- the kernel's page table
    have hsame := hview₂.kernelTables hk
    have hmore : ∀ it l, PtIter.Shows k₂.mem L.kernelPagetable it l → it.AtEnd →
        ((!it.done) = true ↔ l ≠ []) := by
      intro it l hshows _
      cases l with
      | nil =>
        have hdone : it.done = true := hshows
        rw [hdone]
        exact iff_of_false Bool.false_ne_true (not_not_intro rfl)
      | cons r rest =>
        have hdone := (PtIter.next_spec hshows).1
        rw [Bool.not_eq_true] at hdone
        rw [hdone]
        exact iff_of_true rfl (List.cons_ne_nil r rest)
    obtain ⟨it, k₃, hnew, hloop, hscratch₃, hmarks₃⟩ :=
      markTables_spec (hsame.tree hk.tree) hmore hv
        (fun ht => hk.not_page ((hsame.isTable v).mp ht) hview₁.page)
        (show f_kernel < 2 ^ 32 by decide) hmarks₂
    have hmarks₄ := mark_flags hmarks₃ (show f_kernel < 2 ^ 32 by decide) v
    have hscratch₄ : Scratch v k₂ (mark v v f_kernel (mark v L.kernelPagetable f_kernel k₃)) :=
      (hscratch₃.trans (mark_scratch hv)).trans (mark_scratch hv)
    -- the processes
    obtain ⟨k₅, hprocs, hscratch₅, hmarks₅⟩ :=
      markProcesses_spec (l := List.range' 1 (PID_MAX - 1)) false hinv hhoused.low
        (hview₂.scratch hscratch₄) (fun i hi => (List.mem_range'_1.mp hi).2) hmarks₄
    have hmem : ∀ i, Live k i → i ∈ List.range' 1 (PID_MAX - 1) := by
      intro i hi
      refine List.mem_range'_1.mpr ⟨Nat.pos_of_ne_zero ?_, hi.1⟩
      rintro rfl
      exact hhoused.first hi
    have hsep : (false || (List.range' 1 (PID_MAX - 1)).any fun i => decide (Live k i)) = true := by
      rw [Bool.false_or, List.any_eq_true]
      exact ⟨pid, hmem pid hlive, decide_eq_true hlive⟩
    rw [hsep] at hprocs
    refine ⟨v, k₅, ?_, (hview₂.scratch hscratch₄).scratch hscratch₅,
      hmarks₅.congr fun pn _ b => ?_⟩
    · simp only [ok_bind, hnew, hloop, hprocs]
      rfl
    · have hall : (∃ i ∈ List.range' 1 (PID_MAX - 1), ProcessMarks k i pn b) ↔
          ∃ i, ProcessMarks k i pn b :=
        ⟨fun ⟨i, _, h⟩ => ⟨i, h⟩, fun ⟨i, h⟩ => ⟨i, hmem i h.1, h⟩⟩
      rw [hall, Marks]
      simp only [hsame.isTable, false_or, or_and_right]

end

end MemUsage

end SystemsProjects.WeensyOS
