/-
SystemsProjects.WeensyOS.PageLoop — the rule for loops over a page table.

The kernel's loops move one `vmiter` along a page table while their bodies
change memory. As long as the body leaves the pages of that table alone,
the moved iterator is a new one, so the rule asks of the body only what
one round does at one address, given what a new iterator sees there.
-/
import SystemsProjects.WeensyOS.Kernel
import SystemsProjects.WeensyOS.Lookup

namespace SystemsProjects.WeensyOS

open SystemsProjects.Base
open SystemsProjects.Base.RadixTree

theorem SameTables.refl (mem : ByteMem) (root : Nat) : SameTables mem mem root :=
  fun p _ => .refl mem p

theorem SameTables.trans {mem mem' mem'' : ByteMem} {root : Nat} (h : SameTables mem mem' root)
    (h' : SameTables mem' mem'' root) : SameTables mem mem'' root :=
  fun p hp => (h p hp).trans (h' p ((h.isTable p).mpr hp))

namespace VmIter

theorem plain_congr {mem mem' : ByteMem} {root va : Nat} (h : SameTables mem mem' root)
    (hplain : Plain mem root va) : Plain mem' root va := by
  refine hplain.imp h.noLarge fun hc => ?_
  obtain ⟨p, hp⟩ := hc
  exact ⟨p, (h.tableAt (Nat.le_refl 3) _).trans hp⟩

end VmIter

section

variable {α : Type} {body : VmIter → Kernel → Except Fault (Option α × Kernel)}
  {mem₀ : ByteMem} {root start limit : Nat} {I : Nat → Kernel → Prop} {Q : α → Kernel → Prop}

/-- How a loop over a page table ends: it is through, or its body returned
a value. -/
def LoopEnds (out : Except Fault (Option α × Kernel)) (P : Kernel → Prop) (Q : α → Kernel → Prop) :
    Prop :=
  (∃ k', out = .ok (none, k') ∧ P k') ∨ ∃ r k', out = .ok (some r, k') ∧ Q r k'

theorem forPagesLoop_rule (ht : Tree mem₀ root)
    (hplain : ∀ va, start ≤ va → va < limit → VmIter.Plain mem₀ root va)
    (hsame : ∀ va k, I va k → SameTables mem₀ k.mem root)
    (hbody : ∀ va k it, start ≤ va → va < limit → va % 4096 = 0 → I va k →
      VmIter.new k.mem root va = .ok it → VmIter.Sees k.mem root va it →
        LoopEnds (body it k) (I (va + 4096)) Q)
    (hlimit : limit % 4096 = 0) (hlow : limit ≤ MEMSIZE_VIRTUAL) {rounds va : Nat} {it : VmIter}
    {k : Kernel} (hva : va % 4096 = 0) (hstart : start ≤ va) (hle : va ≤ limit)
    (hrounds : limit - va < rounds * 4096) (hnew : VmIter.new k.mem root va = .ok it)
    (h : I va k) : LoopEnds (forPagesLoop limit body rounds it k) (I limit) Q := by
  have hlow' : limit ≤ 0x300000 := hlow
  induction rounds generalizing va it k with
  | zero => omega
  | succ rounds ih =>
    have hitva : it.va_ = va := by
      obtain ⟨d, p, -, hnew'⟩ := VmIter.new_spec ((hsame va k h).tree ht)
        (VmIter.canonical_of_lt (Nat.le_trans hle hlow))
      rw [hnew] at hnew'
      cases hnew'
      rfl
    rw [forPagesLoop, hitva]
    by_cases hlt : va < limit
    · rw [if_pos hlt]
      have hsees : VmIter.Sees k.mem root va it := by
        obtain ⟨it', hnew', hsees⟩ := VmIter.new_sees ((hsame va k h).tree ht)
          (VmIter.plain_congr (hsame va k h) (hplain va hstart hlt))
          (VmIter.canonical_of_lt (Nat.le_trans hle hlow))
        rw [hnew] at hnew'
        cases hnew'
        exact hsees
      rcases hbody va k it hstart hlt hva h hnew hsees with ⟨k', hout, h'⟩ | ⟨r, k', hout, hq⟩
      · -- the iterator, moved, is a new one in the new memory
        have hcanon : vaIsCanonical (va + 4096) = true := VmIter.canonical_of_lt (by
          show va + 4096 ≤ 0x300000
          omega)
        obtain ⟨d, p, -, hnext⟩ := VmIter.new_spec ((hsame _ k' h').tree ht) hcanon
        have hold : VmIter.new k'.mem root va = .ok it := by
          rw [← hnew, VmIter.new_congr ht (hsame _ k' h') (VmIter.canonical_of_lt
            (Nat.le_trans hle hlow)), VmIter.new_congr ht (hsame va k h)
            (VmIter.canonical_of_lt (Nat.le_trans hle hlow))]
        have hmod : (va + PAGESIZE) % 2 ^ 64 = va + 4096 :=
          Nat.mod_eq_of_lt (show va + 4096 < 2 ^ 64 by omega)
        have hadvance : it.advance k'.mem PAGESIZE = .ok (VmIter.iterAt root (va + 4096) d p) := by
          rw [VmIter.advance, hitva, hmod, ← hnext]
          exact VmIter.find_eq_new ht.aligned (by omega) (by omega) hold hitva
        rw [hout]
        simp only [ok_bind, hadvance]
        exact ih (by omega) (by omega) (by omega) (by omega) hnext h'
      · rw [hout]
        exact .inr ⟨r, k', rfl, hq⟩
    · obtain rfl : va = limit := by omega
      rw [if_neg hlt]
      exact .inl ⟨k, rfl, h⟩

/-- **The loop rule.** -/
theorem forPages_rule (ht : Tree mem₀ root)
    (hplain : ∀ va, start ≤ va → va < limit → VmIter.Plain mem₀ root va)
    (hsame : ∀ va k, I va k → SameTables mem₀ k.mem root)
    (hbody : ∀ va k it, start ≤ va → va < limit → va % 4096 = 0 → I va k →
      VmIter.new k.mem root va = .ok it → VmIter.Sees k.mem root va it →
        LoopEnds (body it k) (I (va + 4096)) Q)
    (hstart : start % 4096 = 0) (hlimit : limit % 4096 = 0) (hle : start ≤ limit)
    (hlow : limit ≤ MEMSIZE_VIRTUAL) {k : Kernel} (h : I start k) :
    LoopEnds (forPages root start limit body k) (I limit) Q := by
  obtain ⟨d, p, -, hnew⟩ := VmIter.new_spec ((hsame start k h).tree ht)
    (VmIter.canonical_of_lt (Nat.le_trans hle hlow))
  rw [forPages, hnew]
  refine forPagesLoop_rule ht hplain hsame hbody hlimit hlow hstart
    (Nat.le_refl start) hle ?_ hnew h
  have := Nat.div_add_mod limit 4096
  show limit - start < (limit / 4096 + 1) * 4096
  omega

end

end SystemsProjects.WeensyOS
