/-
SystemsProjects.Dmalloc.FailureStatistics — `nfail` and `fail_size` over a
run.

A request that fails adds its size to `fail_size`, except in one place: a
`dcalloc` whose product overflows assigns to it. What earlier failures
recorded is then lost. The totals are right in the runs where such a call
finds nothing recorded, and a step keeps them right exactly then.
-/
import SystemsProjects.Dmalloc.Layout
import SystemsProjects.Dmalloc.Runs
import Mathlib.Algebra.Order.Ring.Nat

namespace SystemsProjects.Dmalloc

open SystemsProjects.Base ByteMem

/-! ## Failed requests -/

/-- A `dcalloc` whose product is no `size_t`. -/
def Op.Overflows : Op → Prop
  | .dcalloc nmemb sz _ _ _ => ¬ nmemb * sz ≤ SIZE_MAX
  | .dmalloc _ _ _ _ | .dfree _ _ _ | .write _ _ => False

instance (op : Op) : Decidable op.Overflows := by
  cases op <;> unfold Op.Overflows <;> infer_instance

/-- The size of a request, for accounting: `amount` for one that
overflows. -/
def Op.requested (amount : Nat) : Op → Nat
  | .dmalloc sz _ _ _ => sz
  | .dcalloc nmemb sz _ _ _ => if nmemb * sz ≤ SIZE_MAX then nmemb * sz else amount
  | .dfree _ _ _ | .write _ _ => 0

/-- The call returns null. -/
def Op.ReturnsNull (w : World) : Op → Prop
  | .dmalloc sz file line b => (Dmalloc.dmalloc sz file line b w.s).1 = 0
  | .dcalloc nmemb sz file line b => (Dmalloc.dcalloc nmemb sz file line b w.s).1 = 0
  | .dfree _ _ _ | .write _ _ => False

instance (w : World) (op : Op) : Decidable (op.ReturnsNull w) := by
  cases op <;> unfold Op.ReturnsNull <;> infer_instance

/-- The log of failed requests after a step. -/
def Op.logFailure (amount : Nat) (w : World) (log : List Nat) (op : Op) : List Nat :=
  if op.ReturnsNull w then op.requested amount :: log else log

/-- The runs whose steps are allowed by `ok`, with the sizes of the failed
requests. -/
inductive FailureLog (amount : Nat) (ok : World → Op → Prop) (mem : ByteMem) :
    World → List Nat → Prop
  | start : FailureLog amount ok mem (World.initial mem) []
  | step {w w' : World} {log : List Nat} {op : Op} (h : FailureLog amount ok mem w log)
      (hadm : op.Admissible w) (hok : ok w op) (hw : w.step op = some w') :
      FailureLog amount ok mem w' (op.logFailure amount w log)

/-- `nfail` and `fail_size` are the number and the total of the failed
requests, as 64-bit words. -/
def Totals (w : World) (log : List Nat) : Prop :=
  w.s.stats.nfail = wrap log.length ∧ w.s.stats.failSize = wrap log.sum

/-- An overflowing request finds nothing recorded. -/
def FindsNone (w : World) (op : Op) : Prop := op.Overflows → w.s.stats.failSize = 0

/-! ## One step -/

section

variable {amount : Nat} {ok : World → Op → Prop} {mem : ByteMem} {w w' : World} {log : List Nat}
  {op : Op} {s : State} {b : BaseResult} {nmemb sz file line : Nat}

theorem dmalloc_null (hb : b.InMemory (wrap (hdrSz + sz + ftrSz)))
    (hnull : (dmalloc sz file line b s).1 = 0) :
    (dmalloc sz file line b s).2 = countFailure s sz := by
  by_cases hlarge : sz > SIZE_MAX - hdrSz - ftrSz
  · rw [show dmalloc sz file line b s = (0, countFailure s sz) from if_pos hlarge]
  · by_cases hraw : b.raw = 0
    · simp only [dmalloc, if_neg hlarge, baseMalloc, if_pos hraw]
    · rw [total_eq hlarge] at hb
      rw [dmalloc_eq hlarge hraw (hb.resolve_left hraw)] at hnull
      cases hnull

theorem BaseResult.Admissible.inMemory {base : BaseAllocator} {n : Nat} (h : b.Admissible base n) :
    b.InMemory n :=
  h.imp_right fun h' => h'.2.1

theorem HandsOut.failures {s' : State} {blk : Block} (h : HandsOut s s' blk) :
    s'.stats.nfail = s.stats.nfail ∧ s'.stats.failSize = s.stats.failSize := by
  rw [h.stats]
  obtain ⟨nactive, activeSize, ntotal, totalSize, nfail, failSize, heapMin, heapMax⟩ := s.stats
  exact ⟨show _ = nfail from rfl, show _ = failSize from rfl⟩

theorem release_failures (s : State) (ptr hdrPos n : Nat) :
    (release s ptr hdrPos n).stats.nfail = s.stats.nfail ∧
      (release s ptr hdrPos n).stats.failSize = s.stats.failSize := by
  obtain ⟨mem, ⟨nactive, activeSize, ntotal, totalSize, nfail, failSize, heapMin, heapMax⟩,
    active, base⟩ := s
  exact ⟨show _ = nfail from rfl, show _ = failSize from rfl⟩

/-- A call that does not return null records no failure. -/
theorem step_succeeds (hadm : op.Admissible w) (hnull : ¬ op.ReturnsNull w)
    (hw : w.step op = some w') :
    w'.s.stats.nfail = w.s.stats.nfail ∧ w'.s.stats.failSize = w.s.stats.failSize := by
  cases op with
  | dmalloc sz file line b =>
    cases hw
    obtain ⟨hzero, -⟩ | ⟨-, hout⟩ := dmalloc_cases file line hadm
    · exact absurd hzero hnull
    · rw [allocated_s]
      exact hout.failures
  | dcalloc nmemb sz file line b =>
    cases hw
    obtain ⟨hzero, -⟩ | ⟨-, hout⟩ := dcalloc_cases hadm
    · exact absurd hzero hnull
    · rw [allocated_s]
      exact hout.failures
  | dfree ptr file line =>
    rw [World.step] at hw
    split at hw
    · cases hw
    · rename_i msgs s' hfree
      cases hw
      by_cases hne : ptr = 0
      · rw [hne] at hfree
        cases hfree
        exact ⟨rfl, rfl⟩
      · rw [dfree_returned hne hfree]
        exact release_failures _ _ _ _
  | write addr data =>
    cases hw
    exact ⟨rfl, rfl⟩

/-- A call that returns null counts, and adds its size unless it
overflows. -/
theorem step_fails (amount : Nat) (hadm : op.Admissible w) (hnull : op.ReturnsNull w)
    (hw : w.step op = some w') :
    w'.s.stats.nfail = wrap (w.s.stats.nfail + 1) ∧
      w'.s.stats.failSize =
        if op.Overflows then SIZE_MAX else wrap (w.s.stats.failSize + op.requested amount) := by
  cases op with
  | dmalloc sz file line b =>
    cases hw
    rw [allocated_s, dmalloc_null hadm.inMemory hnull,
      if_neg (show ¬ (Op.dmalloc sz file line b).Overflows from fun h => h)]
    exact ⟨rfl, rfl⟩
  | dcalloc nmemb sz file line b =>
    cases hw
    have hnull : (dcalloc nmemb sz file line b w.s).1 = 0 := hnull
    rw [allocated_s]
    by_cases hover : ¬ (nmemb = 0 ∨ sz = 0) ∧ sz > SIZE_MAX / nmemb
    · have hlarge : (Op.dcalloc nmemb sz file line b).Overflows := productOverflows_iff.mp hover
      rw [if_pos hlarge, dcalloc, if_pos hover]
      exact ⟨rfl, rfl⟩
    · have hfits : nmemb * sz ≤ SIZE_MAX := Decidable.not_not.mp (mt productOverflows_iff.mpr hover)
      have hadm : b.Admissible w.s.base (wrap (hdrSz + wrap (nmemb * sz) + ftrSz)) := hadm
      rw [wrap_of_lt (product_lt hover)] at hadm
      have hinner : (dmalloc (nmemb * sz) file line b w.s).1 = 0 := by
        by_contra hne
        simp only [dcalloc, if_neg hover, wrap_of_lt (product_lt hover), if_pos hne] at hnull
        exact hne hnull
      have heq : dcalloc nmemb sz file line b w.s = (0, countFailure w.s (nmemb * sz)) := by
        rw [dcalloc, if_neg hover, wrap_of_lt (product_lt hover)]
        simp only [if_neg (not_not_intro hinner)]
        exact Prod.ext hinner (dmalloc_null hadm.inMemory hinner)
      have hsmall : ¬ (Op.dcalloc nmemb sz file line b).Overflows := not_not_intro hfits
      rw [heq, if_neg hsmall, Op.requested, if_pos hfits]
      exact ⟨rfl, rfl⟩
  | dfree ptr file line => exact hnull.elim
  | write addr data => exact hnull.elim

/-- An overflowing call returns null. -/
theorem Op.Overflows.returnsNull (h : op.Overflows) (w : World) : op.ReturnsNull w := by
  cases op with
  | dcalloc nmemb sz file line b =>
    have hover : ¬ (nmemb = 0 ∨ sz = 0) ∧ sz > SIZE_MAX / nmemb := productOverflows_iff.mpr h
    show (Dmalloc.dcalloc nmemb sz file line b w.s).1 = 0
    rw [Dmalloc.dcalloc, if_pos hover]
  | dmalloc sz file line b => exact h.elim
  | dfree ptr file line => exact h.elim
  | write addr data => exact h.elim

theorem Op.Overflows.requested (h : op.Overflows) : op.requested amount = amount := by
  cases op with
  | dcalloc nmemb sz file line b => exact if_neg h
  | dmalloc sz file line b => exact h.elim
  | dfree ptr file line => exact h.elim
  | write addr data => exact h.elim

/-- **A step keeps the totals** exactly if an overflowing request finds
nothing recorded. -/
theorem Totals.step_iff (h : Totals w log) (hadm : op.Admissible w) (hw : w.step op = some w') :
    Totals w' (op.logFailure SIZE_MAX w log) ↔ FindsNone w op := by
  obtain ⟨hcount, hsize⟩ := h
  rw [Op.logFailure, Totals, FindsNone]
  by_cases hnull : op.ReturnsNull w
  · obtain ⟨hcount', hsize'⟩ := step_fails SIZE_MAX hadm hnull hw
    rw [if_pos hnull, List.length_cons, List.sum_cons, hcount', hsize', hcount, wrap_add,
      and_iff_right rfl]
    by_cases hover : op.Overflows
    · -- what was recorded is replaced
      rw [if_pos hover, hover.requested, hsize]
      simp only [hover, true_implies]
      unfold wrap SIZE_MAX
      omega
    · rw [if_neg hover, hsize, wrap_add, Nat.add_comm]
      exact iff_of_true rfl fun h => absurd h hover
  · obtain ⟨hcount', hsize'⟩ := step_succeeds hadm hnull hw
    rw [if_neg hnull, hcount', hsize']
    exact iff_of_true ⟨hcount, hsize⟩ fun hover => absurd (hover.returnsNull w) hnull

/-! ## Runs -/

/-- **Failures accumulate** in the runs whose overflowing requests all find
nothing recorded; the next step keeps the totals exactly if it is such a
one too. -/
theorem failures_accumulate (h : FailureLog SIZE_MAX FindsNone mem w log) :
    Totals w log ∧ ∀ op w', op.Admissible w → w.step op = some w' →
      (Totals w' (op.logFailure SIZE_MAX w log) ↔ FindsNone w op) := by
  have htotals : Totals w log := by
    induction h with
    | start => exact ⟨rfl, rfl⟩
    | step _ hadm hok hw ih => exact (ih.step_iff hadm hw).mpr hok
  exact ⟨htotals, fun op w' hadm hw => htotals.step_iff hadm hw⟩

end

/-- A product of 2^64. -/
def hugeCalloc : Op := .dcalloc 2 (2 ^ 63) 5 8 ⟨0, fun _ => 0⟩

/-- The largest request. -/
def hugeMalloc : Op := .dmalloc SIZE_MAX 5 9 ⟨0, fun _ => 0⟩

/-- An overflowing request, and one more failure. -/
theorem failures_accumulate_two :
    ∃ w, FailureLog SIZE_MAX FindsNone (fun _ => 0) w [SIZE_MAX, SIZE_MAX] ∧
      w.s.stats.nfail = 2 ∧ w.s.stats.failSize = 2 ^ 64 - 2 := by
  have hfirst : FailureLog SIZE_MAX FindsNone (fun _ => 0) _ [SIZE_MAX] :=
    FailureLog.start.step (show hugeCalloc.Admissible _ from .inl rfl) (fun _ => rfl) rfl
  have hboth : FailureLog SIZE_MAX FindsNone (fun _ => 0) _ [SIZE_MAX, SIZE_MAX] :=
    hfirst.step (show hugeMalloc.Admissible _ from .inl rfl) (fun h => h.elim) rfl
  obtain ⟨⟨hcount, hsize⟩, -⟩ := failures_accumulate hboth
  exact ⟨_, hboth, hcount, hsize⟩

/-- No amount for overflowing requests makes the totals right in all runs:
alone such a request records 2^64 - 1, and so it does after a failure of
that size. -/
theorem failures_discarded :
    ¬ ∃ amount, ∀ w log, FailureLog amount AnyClient (fun _ => 0) w log → Totals w log := by
  rintro ⟨amount, hall⟩
  have halone : FailureLog amount AnyClient (fun _ => 0) _ [amount] :=
    FailureLog.start.step (show hugeCalloc.Admissible _ from .inl rfl) trivial rfl
  have hfirst : FailureLog amount AnyClient (fun _ => 0) _ [SIZE_MAX] :=
    FailureLog.start.step (show hugeMalloc.Admissible _ from .inl rfl) trivial rfl
  have hafter : FailureLog amount AnyClient (fun _ => 0) _ [amount, SIZE_MAX] :=
    hfirst.step (show hugeCalloc.Admissible _ from .inl rfl) trivial rfl
  have hone : SIZE_MAX = wrap [amount].sum := (hall _ _ halone).2
  have htwo : SIZE_MAX = wrap [amount, SIZE_MAX].sum := (hall _ _ hafter).2
  simp only [List.sum_cons, List.sum_nil, wrap, SIZE_MAX] at hone htwo
  omega

end SystemsProjects.Dmalloc
