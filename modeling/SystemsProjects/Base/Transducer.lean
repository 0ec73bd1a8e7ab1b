/-
SystemsProjects.Base.Transducer — runs of machines that answer one
request at a time, and the forward simulation between two of them.

A concrete machine may fault (`Except`). An abstract one is a total
function, or a relation where it leaves the answer open (`Trace`). One
step-wise agreement is proved per component; `runM_refines` and
`runM_admitted` lift it once to every finite request sequence, so no
component repeats the induction on the sequence.

Nothing here names the programs of this repository.
-/
import Mathlib.Data.List.Basic

namespace SystemsProjects.Base

variable {σ τ ι ρ ε : Type}

/-! ## Runs -/

/-- Run a total machine on a request sequence, collecting the answers. -/
def run (step : τ → ι → ρ × τ) : τ → List ι → List ρ × τ
  | t, [] => ([], t)
  | t, i :: is =>
    let (r, t') := step t i
    let (rs, t'') := run step t' is
    (r :: rs, t'')

/-- Run a machine that may fault; the first fault ends the run. -/
def runM (step : σ → ι → Except ε (ρ × σ)) : σ → List ι → Except ε (List ρ × σ)
  | s, [] => .ok ([], s)
  | s, i :: is =>
    match step s i with
    | .error e => .error e
    | .ok (r, s') =>
      match runM step s' is with
      | .error e => .error e
      | .ok (rs, s'') => .ok (r :: rs, s'')

@[simp] theorem run_nil (step : τ → ι → ρ × τ) (t : τ) : run step t [] = ([], t) := rfl

@[simp] theorem runM_nil (step : σ → ι → Except ε (ρ × σ)) (s : σ) :
    runM step s [] = .ok ([], s) := rfl

theorem run_cons (step : τ → ι → ρ × τ) (t : τ) (i : ι) (is : List ι) :
    run step t (i :: is) =
      ((step t i).1 :: (run step (step t i).2 is).1, (run step (step t i).2 is).2) := rfl

theorem run_append (step : τ → ι → ρ × τ) (t : τ) (is js : List ι) :
    run step t (is ++ js) =
      ((run step t is).1 ++ (run step (run step t is).2 js).1,
        (run step (run step t is).2 js).2) := by
  induction is generalizing t with
  | nil => rfl
  | cons i is ih => simp only [List.cons_append, run_cons, ih]

/-- The states of a run keep a property its steps keep. -/
theorem run_invariant {step : τ → ι → ρ × τ} {I : τ → Prop} {is : List ι}
    (hstep : ∀ i ∈ is, ∀ t, I t → I (step t i).2) {t : τ} (h : I t) : I (run step t is).2 := by
  induction is generalizing t with
  | nil => exact h
  | cons i is ih =>
    exact ih (fun j hj => hstep j (List.mem_cons_of_mem i hj)) (hstep i List.mem_cons_self t h)

theorem runM_cons_ok {step : σ → ι → Except ε (ρ × σ)} {s s' s'' : σ} {i : ι}
    {is : List ι} {r : ρ} {rs : List ρ} (h : step s i = .ok (r, s'))
    (hs : runM step s' is = .ok (rs, s'')) :
    runM step s (i :: is) = .ok (r :: rs, s'') := by
  simp only [runM, h, hs]

theorem runM_cons_inv {step : σ → ι → Except ε (ρ × σ)} {s s'' : σ} {i : ι} {is : List ι}
    {rs : List ρ} (h : runM step s (i :: is) = .ok (rs, s'')) :
    ∃ r s' rs', step s i = .ok (r, s') ∧ runM step s' is = .ok (rs', s'') ∧ rs = r :: rs' := by
  cases hstep : step s i with
  | error e => simp [runM, hstep] at h
  | ok p =>
    obtain ⟨r, s'⟩ := p
    cases hrun : runM step s' is with
    | error e => simp [runM, hstep, hrun] at h
    | ok q =>
      obtain ⟨rs', t⟩ := q
      simp only [runM, hstep, hrun, Except.ok.injEq, Prod.mk.injEq] at h
      obtain ⟨rfl, rfl⟩ := h
      exact ⟨r, s', rs', rfl, hrun, rfl⟩

/-! ## Forward simulation -/

/-- On related states and admissible requests the concrete step does not
fault, gives the abstract answer, and lands in related states. -/
def StepRefines (R : σ → τ → Prop) (Adm : ι → Prop)
    (stepM : σ → ι → Except ε (ρ × σ)) (step : τ → ι → ρ × τ) : Prop :=
  ∀ s t i, R s t → Adm i →
    ∃ s', stepM s i = .ok ((step t i).1, s') ∧ R s' (step t i).2

/-- Step-wise agreement lifts to every admissible request sequence. -/
theorem runM_refines {R : σ → τ → Prop} {Adm : ι → Prop}
    {stepM : σ → ι → Except ε (ρ × σ)} {step : τ → ι → ρ × τ}
    (href : StepRefines R Adm stepM step) {s : σ} {t : τ} (hR : R s t) (is : List ι)
    (hadm : ∀ i ∈ is, Adm i) :
    ∃ s', runM stepM s is = .ok ((run step t is).1, s') ∧ R s' (run step t is).2 := by
  induction is generalizing s t with
  | nil => exact ⟨s, rfl, hR⟩
  | cons i is ih =>
    obtain ⟨s₁, hstep, hR₁⟩ := href s t i hR (hadm i List.mem_cons_self)
    obtain ⟨s₂, hrun, hR₂⟩ := ih hR₁ (fun j hj => hadm j (List.mem_cons_of_mem i hj))
    exact ⟨s₂, runM_cons_ok hstep hrun, hR₂⟩

/-! ## Abstract machines that leave the answer open -/

/-- The request sequences, with their answers, that a relation between
states, requests, answers and next states admits. -/
inductive Trace (spec : τ → ι → ρ → τ → Prop) : τ → List ι → List ρ → τ → Prop
  | nil (t : τ) : Trace spec t [] [] t
  | cons {t t' t'' : τ} {i : ι} {r : ρ} {is : List ι} {rs : List ρ} (h : spec t i r t')
      (hs : Trace spec t' is rs t'') : Trace spec t (i :: is) (r :: rs) t''

/-- Step-wise admission lifts to every request sequence. -/
theorem runM_admitted {R : σ → τ → Prop} {spec : τ → ι → ρ → τ → Prop}
    {stepM : σ → ι → Except ε (ρ × σ)}
    (hstep : ∀ s t i, R s t → ∃ r s' t', stepM s i = .ok (r, s') ∧ spec t i r t' ∧ R s' t')
    {s : σ} {t : τ} (hR : R s t) (is : List ι) :
    ∃ rs s' t', runM stepM s is = .ok (rs, s') ∧ Trace spec t is rs t' ∧ R s' t' := by
  induction is generalizing s t with
  | nil => exact ⟨[], s, t, rfl, .nil t, hR⟩
  | cons i is ih =>
    obtain ⟨r, s₁, t₁, hs, ht, hR₁⟩ := hstep s t i hR
    obtain ⟨rs, s₂, t₂, hrun, htr, hR₂⟩ := ih hR₁
    exact ⟨r :: rs, s₂, t₂, runM_cons_ok hs hrun, .cons ht htr, hR₂⟩

end SystemsProjects.Base
