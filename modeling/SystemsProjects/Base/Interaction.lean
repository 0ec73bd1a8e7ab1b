/-
SystemsProjects.Base.Interaction — programs that work with machines, and
what becomes of them when the machines are exchanged.

A `Client` makes requests of machines it knows by name and goes on with
their answers; it is written once and runs on any machines that take its
requests. If every answer of one family of machines is also an answer of
another (`Simulates`), a client that gets through on the first gets
through on the second, with the same result (`Client.runM_simulates`). The
machines may fault, so a family can also serve as the contract of an
interface: what a client may ask for is what does not fault there.

A loop is `iterate`, which has a bound on its rounds; `runM_iterate` is its
rule for total correctness, with an invariant and a variant.

Nothing here names the programs of this repository.
-/
import SystemsProjects.Base.Fallible
import Mathlib.Logic.Function.Basic

namespace SystemsProjects.Base

variable {κ ι ρ σ τ ε ε' α β : Type}

/-- A program over machines named by `κ` that take requests `ι` and give
answers `ρ`. -/
inductive Client (κ ι ρ α : Type) where
  | ret (a : α)
  | ask (k : κ) (i : ι) (next : ρ → Client κ ι ρ α)

namespace Client

def bind : Client κ ι ρ α → (α → Client κ ι ρ β) → Client κ ι ρ β
  | ret a, f => f a
  | ask k i next, f => ask k i fun r => (next r).bind f

instance : Monad (Client κ ι ρ) where
  pure := ret
  bind := bind

/-- One request. -/
def request (k : κ) (i : ι) : Client κ ι ρ ρ := ask k i ret

/-! ## Runs -/

variable [DecidableEq κ]

/-- Run a client; the first fault ends the run. -/
def runM (step : κ → σ → ι → Except ε (ρ × σ)) :
    Client κ ι ρ α → (κ → σ) → Except ε (α × (κ → σ))
  | ret a, s => .ok (a, s)
  | ask k i next, s => do
    let (r, t) ← step k (s k) i
    (next r).runM step (Function.update s k t)

variable {step : κ → σ → ι → Except ε (ρ × σ)} {s : κ → σ}

@[simp] theorem runM_pure (a : α) : runM step (pure a : Client κ ι ρ α) s = .ok (a, s) := rfl

theorem runM_bind (p : Client κ ι ρ α) (f : α → Client κ ι ρ β) :
    runM step (p >>= f) s = runM step p s >>= fun x => runM step (f x.1) x.2 := by
  induction p generalizing s with
  | ret a => rfl
  | ask k i next ih =>
    show (step k (s k) i >>= fun x => runM step (next x.1 >>= f) (Function.update s k x.2)) = _
    rw [runM]
    cases step k (s k) i with
    | error e => rfl
    | ok x => exact ih x.1

/-- A client that goes through one machine's answer goes on from it. -/
theorem runM_request {k : κ} {i : ι} {r : ρ} {t : σ} (f : ρ → Client κ ι ρ α)
    (h : step k (s k) i = .ok (r, t)) :
    runM step (request k i >>= f) s = runM step (f r) (Function.update s k t) := by
  rw [runM_bind, request, runM, h]
  rfl

/-- The second part of a client, once the first has gone through. -/
theorem runM_then {p : Client κ ι ρ α} {a : α} {s' : κ → σ} (f : α → Client κ ι ρ β)
    (h : runM step p s = .ok (a, s')) : runM step (p >>= f) s = runM step (f a) s' := by
  rw [runM_bind, h]
  rfl

/-! ## Loops -/

/-- Go round until `body` gives a result, at most `n` times. -/
def iterate (body : β → Client κ ι ρ (β ⊕ α)) : Nat → β → Client κ ι ρ (Option α)
  | 0, _ => pure none
  | n + 1, b => do
    match ← body b with
    | .inl b => iterate body n b
    | .inr a => pure (some a)

/-- Every round keeps the invariant and brings its variant down, or ends
with a result. -/
def Progresses (step : κ → σ → ι → Except ε (ρ × σ)) (Inv : Nat → β → (κ → σ) → Prop)
    (Post : α → (κ → σ) → Prop) (body : β → Client κ ι ρ (β ⊕ α)) : Prop :=
  ∀ m b s, Inv m b s → ∃ r s', runM step (body b) s = .ok (r, s') ∧
    r.elim (fun b' => ∃ m' < m, Inv m' b' s') (fun a => Post a s')

/-- Such a loop ends in fewer rounds than the variant allows. -/
theorem runM_iterate {body : β → Client κ ι ρ (β ⊕ α)} {Inv : Nat → β → (κ → σ) → Prop}
    {Post : α → (κ → σ) → Prop} (h : Progresses step Inv Post body) {n m : Nat} {b : β}
    (hInv : Inv m b s) (hn : m < n) :
    ∃ a s', runM step (iterate body n b) s = .ok (some a, s') ∧ Post a s' := by
  induction n generalizing m b s with
  | zero => omega
  | succ n ih =>
    obtain ⟨r, s', hrun, hr⟩ := h m b s hInv
    cases r with
    | inl b' =>
      obtain ⟨m', hless, hInv'⟩ := hr
      obtain ⟨a, s'', hrest, hPost⟩ := ih hInv' (by omega)
      exact ⟨a, s'', (runM_then _ hrun).trans hrest, hPost⟩
    | inr a => exact ⟨a, s', runM_then _ hrun, hr⟩

/-! ## Exchanging the machines -/

/-- Every answer of the machine `stepT` is one of `stepS` in related
states, and leaves the states related. -/
def Simulates (R : σ → τ → Prop) (stepS : σ → ι → Except ε (ρ × σ))
    (stepT : τ → ι → Except ε' (ρ × τ)) : Prop :=
  ∀ s t i r t', R s t → stepT t i = .ok (r, t') → ∃ s', stepS s i = .ok (r, s') ∧ R s' t'

theorem runM_simulates {R : κ → σ → τ → Prop} {stepS : κ → σ → ι → Except ε (ρ × σ)}
    {stepT : κ → τ → ι → Except ε' (ρ × τ)} (hsim : ∀ k, Simulates (R k) (stepS k) (stepT k))
    (p : Client κ ι ρ α) {s : κ → σ} {t t' : κ → τ} {a : α} (hR : ∀ k, R k (s k) (t k))
    (h : runM stepT p t = .ok (a, t')) :
    ∃ s', runM stepS p s = .ok (a, s') ∧ ∀ k, R k (s' k) (t' k) := by
  induction p generalizing s t with
  | ret b =>
    cases h
    exact ⟨s, rfl, hR⟩
  | ask k i next ih =>
    rw [runM] at h
    obtain ⟨⟨r, tk⟩, hT, h⟩ := bind_eq_ok h
    obtain ⟨sk, hS, hRk⟩ := hsim k (s k) (t k) i r tk (hR k) hT
    have hR' : ∀ j, R j (Function.update s k sk j) (Function.update t k tk j) := by
      intro j
      by_cases hj : j = k
      · subst hj
        rw [Function.update_self, Function.update_self]
        exact hRk
      · rw [Function.update_of_ne hj, Function.update_of_ne hj]
        exact hR j
    obtain ⟨s', hrun, hR''⟩ := ih r hR' h
    refine ⟨s', ?_, hR''⟩
    rw [runM, hS]
    exact hrun

end Client

end SystemsProjects.Base
