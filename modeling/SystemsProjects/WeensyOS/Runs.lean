/-
SystemsProjects.WeensyOS.Runs — the states that a running kernel reaches.

A run starts where `kernel_start` runs the first process, its programs
loaded (`Boots` asks for `LoadsWell` of each of them), and goes on for as
many steps as its events make; `Reaches` is about runs all of whose steps
meet a condition. Two conditions matter. If a `fork` never raises
a count above eight bits, the tables stay sound (`Reaches.steady`). If a
`PAGE_ALLOC` never hits a page that the process has, no count is lost
either, and the first condition holds by itself (`Reaches.sane`).
-/
import SystemsProjects.WeensyOS.Steps

namespace SystemsProjects.WeensyOS

open SystemsProjects.Base
open SystemsProjects.Base.RadixTree

/-- The states of the runs whose programs load and whose steps meet `ok`. -/
inductive Reaches (L : Layout) (P : Programs) (command : Option String) (mem : ByteMem)
    (ok : Kernel → Event → Prop) : Kernel → Prop where
  | boot {k : Kernel} (h : Boots L P command mem k) : Reaches L P command mem ok k
  | step {k k' : Kernel} {e : Event} (h : Reaches L P command mem ok k) (hok : ok k e)
      (hstep : step L e k = .ok k') : Reaches L P command mem ok k'

/-- A `PAGE_ALLOC` is at a valid address that the process does not map. -/
def FreshAllocs (k : Kernel) (e : Event) : Prop := AllocValid e ∧ AllocFresh k e

/-- A `PAGE_ALLOC` is at a valid address, mapped or not; a `FORK` would
not raise a count above `m`. -/
def CountedForks (m : Nat) (k : Kernel) (e : Event) : Prop := AllocValid e ∧ ForkBelow m k e

section

variable {L : Layout} {P : Programs} {command : Option String} {mem : ByteMem}
  {ok ok' : Kernel → Event → Prop} {k k' : Kernel} {e : Event} {m : Nat}

theorem Reaches.mono (hok : ∀ k e, ok k e → ok' k e) (h : Reaches L P command mem ok k) :
    Reaches L P command mem ok' k := by
  induction h with
  | boot h => exact .boot h
  | step _ hadm hstep ih => exact .step ih (hok _ _ hadm) hstep

theorem ForkBelow.mono {n : Nat} (h : ForkBelow m k e) (hmn : m ≤ n) : ForkBelow n k e := by
  cases e with
  | store va byte => exact h
  | exception regs => exact h
  | syscall regs =>
    exact fun hcall => (h hcall).imp_right fun hbelow vpn hvpn p hview =>
      Nat.lt_of_lt_of_le (hbelow vpn hvpn p hview) hmn

theorem AllocFresh.congr (h : AllocFresh k e) (halike : Alike k k')
    (hcur : k'.current = k.current) :
    AllocFresh k' e := by
  cases e with
  | store va byte => exact h
  | exception regs => exact h
  | syscall regs =>
    intro hcall
    have hroot : k'.cur.pagetable = k.cur.pagetable := by
      have hroot := halike.root k.current
      simp only [Kernel.cur, hcur]
      exact hroot
    rw [halike.mem, hroot]
    exact h hcall

theorem ForkBelow.congr (h : ForkBelow m k e) (halike : Alike k k')
    (hcur : k'.current = k.current) : ForkBelow m k' e := by
  cases e with
  | store va byte => exact h
  | exception regs => exact h
  | syscall regs =>
    exact fun hcall => (h hcall).imp halike.findFree_none (halike.sharesBelow hcur)

/-! ## Sound tables -/

theorem Stepped.before (h : Stepped L e k k') (hs : Steady L k) :
    ∃ k₁ k₂, (Alike k k₁ ∧ k₁.current = k.current) ∧ Steady L k₁ ∧ Effect L e k₁ k₂ ∧ Alike k₂ k' ∧
      Live k' k'.current := by
  obtain ⟨k₁, k₂, ⟨halike, hcur⟩, heffect, hafter⟩ := h
  have hlive : Live k₁ k₁.current := by
    rw [hcur]
    exact (halike.live _).mpr hs.live
  exact ⟨k₁, k₂, ⟨halike, hcur⟩, halike.steady hlive hs.inv hs.stack, heffect, hafter⟩

theorem step_steady (hs : Steady L k) (hok : CountedForks 255 k e) (h : step L e k = .ok k') :
    Steady L k' := by
  obtain ⟨k₁, k₂, -, hs₁, heffect, hafter, hlive⟩ := (step_stepped hs hok.1 hok.2 h).before hs
  exact hafter.steady hlive (heffect.inv hs₁ hok.1) (heffect.stacked hs₁)

/-- **The tables of a running kernel** are sound, as long as no count runs
over. -/
theorem Reaches.steady (h : Reaches L P command mem (CountedForks 255) k) : Steady L k := by
  induction h with
  | boot h => exact h.sane.steady
  | step _ hok hstep ih => exact step_steady ih hok hstep

/-! ## Counts that are bounded -/

theorem step_counts (hs : Steady L k) (hm : 0 < m) (hmax : m ≤ 255) (hok : CountedForks m k e)
    (hcounts : ∀ p, p % 4096 = 0 → k.refs p ≤ m) (h : step L e k = .ok k') :
    ∀ p, p % 4096 = 0 → k'.refs p ≤ m := by
  obtain ⟨k₁, k₂, ⟨halike, hcur⟩, hs₁, heffect, hafter, -⟩ :=
    (step_stepped hs hok.1 (hok.2.mono hmax) h).before hs
  intro p hp
  rw [hafter.refs]
  refine heffect.counts hs₁ hm (hok.2.congr halike hcur) (fun q hq => ?_) p hp
  rw [halike.refs]
  exact hcounts q hq

/-! ## Counts that are exact -/

/-- No count is above the number of processes. -/
theorem Sane.refs_le (h : Sane L k) {p : Nat} (hp : p % 4096 = 0) : k.refs p ≤ PID_MAX := by
  by_cases hcond : 0 < total k p ∨ 2 ≤ k.refs p
  · rw [h.exact p hp hcond]
    exact h.inv.total_le p
  · exact Nat.le_trans (show k.refs p ≤ 1 by omega) (by decide)

/-- A read-only page is held by a process, so its count can grow. -/
theorem Sane.sharesBelow (h : Sane L k) : SharesBelow k 255 := by
  intro vpn hvpn p hview
  refine refs_lt_all (fun q hq => Nat.lt_of_le_of_lt (h.refs_le hq) ?_) p
  decide

/-- `fork` may be called. -/
theorem Sane.canFork (h : Sane L k) (regs : RegState) : CanFork L (saveRegs regs k) := by
  have halike := saveRegs_alike regs k
  have hs := halike.steady ((halike.live _).mpr h.live) h.inv h.stack
  exact ⟨hs.inv, hs.live, halike.sharesBelow rfl h.sharesBelow⟩

theorem Sane.forkBelow (h : Sane L k) (e : Event) : ForkBelow 255 k e := by
  cases e with
  | store va byte => trivial
  | exception regs => trivial
  | syscall regs => exact fun _ => .inr h.sharesBelow

theorem step_sane (h : Sane L k) (hok : FreshAllocs k e) (hstep : step L e k = .ok k') :
    Sane L k' := by
  have hs := h.steady
  have hsteady := step_steady hs ⟨hok.1, h.forkBelow e⟩ hstep
  obtain ⟨k₁, k₂, ⟨halike, hcur⟩, hs₁, heffect, hafter, -⟩ :=
    (step_stepped hs hok.1 (h.forkBelow e) hstep).before hs
  refine ⟨hsteady.inv, ?_, hsteady.live, hsteady.stack⟩
  refine hafter.keeps.exact (heffect.inv hs₁ hok.1) ?_
  exact heffect.exact hs₁ hok.1 (hok.2.congr halike hcur) (halike.keeps.exact h.inv h.exact)

/-- **A running kernel is sane**, if no `PAGE_ALLOC` hits a page of the
process. -/
theorem Reaches.sane (h : Reaches L P command mem FreshAllocs k) : Sane L k := by
  induction h with
  | boot h => exact h.sane
  | step _ hok hstep ih => exact step_sane ih hok hstep

/-- Such a run never counts too far. -/
theorem Reaches.counted (h : Reaches L P command mem FreshAllocs k) :
    Reaches L P command mem (CountedForks 255) k := by
  induction h with
  | boot h => exact .boot h
  | @step k k' e h hok hstep ih => exact .step ih ⟨hok.1, h.sane.forkBelow e⟩ hstep

end

end SystemsProjects.WeensyOS
