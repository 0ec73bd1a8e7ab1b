/-
SystemsProjects.Base.CriticalSection — the sections of a mutex and its
owner.

A model that lets threads interleave says for each thread whether it is
inside a section of the mutex, from its place in the code alone.
`Guarded` says that the threads inside are the owner of the mutex, if it
has one, and no others. Taking the mutex, giving it back and every step
that does neither keep it so, and at most one thread is inside
(`Guarded.unique`).

Nothing here names the programs of this repository.
-/
import Mathlib.Init

namespace SystemsProjects.Base

variable {T : Type} {holds holds' : T → Prop} {owner : Option T} {t t' : T}

def Guarded (holds : T → Prop) (owner : Option T) : Prop := ∀ t, holds t ↔ owner = some t

namespace Guarded

theorem not_holds (h : Guarded holds none) (t : T) : ¬ holds t := fun ht => nomatch (h t).mp ht

/-- Of two threads inside each is the other. -/
theorem unique (h : Guarded holds owner) (t t' : T) (ht : holds t) (ht' : holds t') : t = t' :=
  Option.some.inj (((h t).mp ht).symm.trans ((h t').mp ht'))

theorem acquire (h : Guarded holds none) (hin : ∀ t', holds' t' ↔ t' = t ∨ holds t') :
    Guarded holds' (some t) := by
  intro t'
  rw [hin, or_iff_left (h.not_holds t'), Option.some.injEq]
  exact eq_comm

theorem release (h : Guarded holds owner) (ht : holds t)
    (hout : ∀ t', holds' t' ↔ holds t' ∧ t' ≠ t) : Guarded holds' none := by
  intro t'
  rw [hout]
  exact iff_of_false (fun he => he.2 (h.unique _ _ he.1 ht)) fun he => nomatch he

theorem keep (h : Guarded holds owner) (hsame : ∀ t, holds' t ↔ holds t) :
    Guarded holds' owner := by
  intro t
  rw [hsame]
  exact h t

end Guarded

end SystemsProjects.Base
