/-
SystemsProjects.WeensyOS.UserView — what a process may access.

`userPage` is what a `vmiter` shows of an address: the physical page, if
the process may access it, and whether it may write it. In the space of a
process that is the console, or one of its frames.
-/
import SystemsProjects.WeensyOS.Startup

namespace SystemsProjects.WeensyOS

open SystemsProjects.Base
open SystemsProjects.Base.RadixTree

/-- `pa()` and `writable()` of an address for which `user()` holds. -/
def userPage (mem : ByteMem) (pt va : Nat) : Option (Nat × Bool) :=
  match look mem pt va with
  | .ok (pa, perm) =>
    if perm &&& (PTE_P ||| PTE_U) = PTE_P ||| PTE_U then some (pa, decide (perm &&& PTE_W = PTE_W))
    else none
  | .error _ => none

/-- The page that an entry gives to the process. -/
def entryPage (e : Nat) : Option (Nat × Bool) :=
  if UserEntry e then some (e &&& PTE_PAMASK, decide (e &&& PTE_W = PTE_W)) else none

section

variable {L : Layout} {mem mem' : ByteMem} {root va vpn p q e : Nat} {w : Bool}

theorem entryPage_zero : entryPage 0 = none := if_neg (by decide)

theorem entryPage_frameEntry (hp : IsPage L p) (w : Bool) :
    entryPage (frameEntry p w) = some (p, w) := by
  have hw : decide (frameEntry p w &&& PTE_W = PTE_W) = w := by
    rw [frameEntry, or_and_perm hp.aligned (by decide)]
    cases w <;> rfl
  rw [entryPage, if_pos (userEntry_frameEntry hp.aligned w), hp.frameEntry_and_pamask, hw]

theorem entryPage_kernelEntry :
    entryPage (kernelEntry vpn) =
      if vpn = CONSOLE_ADDR / PAGESIZE then some (CONSOLE_ADDR, true) else none := by
  split
  · rename_i h
    rw [h]
    decide
  · rename_i h
    exact if_neg fun huser => h (kernelEntry_user huser)

/-! ## In a page table -/

/-- What `vmiter` shows of an address of a process. -/
theorem look_space (ht : Tree mem root) (hplain : NoLarge mem root)
    (hcanon : vaIsCanonical va = true) :
    ∃ pa, look mem root va = .ok (pa, entryPerm (leaf mem root (slot 4 va))) ∧
      (leaf mem root (slot 4 va) &&& PTE_P ≠ 0 →
        pa = (leaf mem root (slot 4 va) &&& PTE_PAMASK) + va % 4096) := by
  obtain ⟨it, hnew, hsees⟩ := VmIter.new_sees ht (.inl hplain) hcanon
  refine ⟨it.pa mem, ?_, hsees.pa_eq⟩
  rw [look, hnew, ok_bind, hsees.perm_eq]
  rfl

theorem userPage_eq (ht : Tree mem root) (hplain : NoLarge mem root) (hva : va % 4096 = 0)
    (hcanon : vaIsCanonical va = true) :
    userPage mem root va = entryPage (leaf mem root (slot 4 va)) := by
  obtain ⟨pa, hlook, hpa⟩ := look_space ht hplain hcanon
  rw [userPage, hlook]
  generalize leaf mem root (slot 4 va) = e at hpa ⊢
  rw [hva, Nat.add_zero] at hpa
  by_cases huser : UserEntry e
  · have hpresent := huser.present
    have hw : entryPerm e &&& PTE_W = e &&& PTE_W := by
      rw [entryPerm, if_pos hpresent, Nat.and_assoc]
      rfl
    simp only [(entryPerm_and (m := PTE_P ||| PTE_U) (by decide) (by decide)).mpr huser, if_true,
      hpa hpresent, hw]
    rw [entryPage, if_pos huser]
  · have hnot : ¬ entryPerm e &&& (PTE_P ||| PTE_U) = PTE_P ||| PTE_U := fun h =>
      huser ((entryPerm_and (by decide) (by decide)).mp h)
    simp only [if_neg hnot]
    rw [entryPage, if_neg huser]

/-- A page of the address space by its number. -/
theorem Space.userPage_mul (h : Space L mem root) (hvpn : vpn < MEMSIZE_VIRTUAL / PAGESIZE) :
    userPage mem root (vpn * PAGESIZE) = entryPage (leaf mem root vpn) := by
  have hvpn : vpn < 0x300 := hvpn
  have hlow : vpn * 4096 < MEMSIZE_VIRTUAL := show vpn * 4096 < 0x300000 by omega
  rw [userPage_eq h.tree h.noLarge (Nat.mul_mod_left vpn 4096)
    (VmIter.canonical_of_lt (Nat.le_of_lt hlow)), slot_page hlow,
    Nat.mul_div_cancel vpn (by decide)]

theorem entryPage_kernelEntry_iff :
    entryPage (kernelEntry vpn) = some (p, w) ↔
      vpn = CONSOLE_ADDR / PAGESIZE ∧ p = CONSOLE_ADDR ∧ w = true := by
  rw [entryPage_kernelEntry]
  split
  · rename_i h
    simp [h, eq_comm]
  · rename_i h
    simp [h]

/-- Above the address space there is nothing. -/
theorem Space.entryPage_high (h : Space L mem root) (hlt : va < 2 ^ 64)
    (hcanon : vaIsCanonical va = true) (hhigh : ¬ va < MEMSIZE_VIRTUAL) :
    entryPage (leaf mem root (slot 4 va)) = none := by
  have hhigh : ¬ va < 0x300000 := hhigh
  have hslot : slot 4 va = va % 2 ^ 48 / 2 ^ 12 := rfl
  simp only [vaIsCanonical, VA_LOWMAX, VA_HIGHMIN, Bool.or_eq_true, decide_eq_true_eq] at hcanon
  have hpage : ¬ slot 4 va < 0x300 := by omega
  rcases h.entries (slot 4 va) with hk | ⟨hvpn, -⟩
  · rw [hk, entryPage_kernelEntry, if_neg]
    intro heq
    exact hpage (by rw [heq]; decide)
  · exact absurd hvpn.lt hpage

/-- **What a process may access**: the console, and its frames in its part
of the address space. -/
theorem Space.userPage_eq_some (h : Space L mem root) (hva : va % PAGESIZE = 0)
    (hlt : va < 2 ^ 64) :
    userPage mem root va = some (p, w) ↔
      (va = CONSOLE_ADDR ∧ p = CONSOLE_ADDR ∧ w = true) ∨
      (PROC_START_ADDR ≤ va ∧ va < MEMSIZE_VIRTUAL ∧ IsPage L p ∧
        leaf mem root (va / PAGESIZE) = frameEntry p w) := by
  have hva : va % 4096 = 0 := hva
  by_cases hcanon : vaIsCanonical va = true
  · rw [userPage_eq h.tree h.noLarge hva hcanon]
    by_cases hlow : va < MEMSIZE_VIRTUAL
    · rw [slot_page hlow, show va / PAGESIZE = va / 4096 from rfl]
      have hconsole : va / 4096 = CONSOLE_ADDR / PAGESIZE ↔ va = CONSOLE_ADDR := by
        show va / 4096 = 0xB8 ↔ va = 0xB8000
        omega
      rcases h.entries (va / 4096) with hk | ⟨hvpn, q, w', hq, hentry⟩
      · rw [hk, entryPage_kernelEntry_iff, hconsole]
        refine ⟨.inl, fun hcases => hcases.resolve_right ?_⟩
        rintro ⟨hstart, -, hp, hentry⟩
        have hcons := kernelEntry_user (hentry ▸ userEntry_frameEntry hp.aligned w)
        rw [hconsole.mp hcons] at hstart
        exact absurd hstart (by decide)
      · have hstart : 0x100 ≤ va / 4096 := hvpn.1
        rw [hentry, entryPage_frameEntry hq, Option.some.injEq, Prod.mk.injEq]
        constructor
        · rintro ⟨rfl, rfl⟩
          exact .inr ⟨show 0x100000 ≤ va by omega, hlow, hq, rfl⟩
        · rintro (⟨rfl, -⟩ | ⟨-, -, hp, heq⟩)
          · exact absurd hstart (by decide)
          · exact frameEntry_inj hq.aligned hp.aligned heq
    · rw [h.entryPage_high hlt hcanon hlow]
      refine iff_of_false (by simp) ?_
      rintro (⟨rfl, -⟩ | ⟨-, hlow', -⟩)
      · exact hlow (by decide)
      · exact hlow hlow'
  · have hnone : userPage mem root va = none := by
      rw [userPage, look_of_not_canonical mem root hcanon]
      rfl
    rw [hnone]
    refine iff_of_false (by simp) ?_
    rintro (⟨rfl, -⟩ | ⟨-, hlow', -⟩)
    · exact hcanon (by decide)
    · exact hcanon (VmIter.canonical_of_lt (Nat.le_of_lt hlow'))

/-- The view depends on the page-table pages alone. -/
theorem Space.look_congr (h : Space L mem root) (hsame : SameTables mem mem' root) (va : Nat) :
    look mem' root va = look mem root va := by
  by_cases hcanon : vaIsCanonical va = true
  · obtain ⟨d, p, hstop, hnew⟩ := VmIter.new_spec h.tree hcanon
    have hpe : (VmIter.iterAt root va d p).pe mem' = (VmIter.iterAt root va d p).pe mem :=
      (hsame p ⟨d, hstop.depth, _, hstop.node⟩).entry (entryIndex_lt _ _)
    rw [look, look, VmIter.new_congr h.tree hsame hcanon, hnew]
    simp only [ok_bind, VmIter.pa, VmIter.perm, hpe]
  · rw [look_of_not_canonical mem root hcanon, look_of_not_canonical mem' root hcanon]

end

end SystemsProjects.WeensyOS
