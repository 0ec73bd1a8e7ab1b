/-
SystemsProjects.WeensyOS.TableSteps — the two ways a page table changes.

An empty page is linked where an entry was absent (`LinkStep`), or the
entry of a mapped page is written (`WriteStep`). Both say what becomes of
the entries of the table and nothing else, so they hold of any store that
does this much. From them follow the new tree, and what a walk finds.
-/
import SystemsProjects.WeensyOS.Pages
import SystemsProjects.WeensyOS.Lookup

namespace SystemsProjects.WeensyOS

open SystemsProjects.Base
open SystemsProjects.Base.RadixTree

variable {mem mem' : ByteMem} {root d x p i q e : Nat}

/-! ## A new page-table page -/

/-- The empty page `q` has become entry `i` of `p`, at the slot `x` of
depth `d`. -/
structure LinkStep (mem mem' : ByteMem) (root d x p i q : Nat) : Prop where
  node : nodeAt (child mem) 512 root d x = some p
  depth : d < 3
  index : i < 512
  absent : child mem p i = none
  page : q % 4096 = 0 ∧ q < 2 ^ 52
  isFresh : ¬ IsTable mem root q
  linked : entry mem' p i = q ||| PTE_P ||| PTE_W ||| PTE_U
  empty : ∀ j < 512, entry mem' q j = 0
  others : ∀ r, IsTable mem root r → ∀ j < 512, r ≠ p ∨ j ≠ i → entry mem' r j = entry mem r j

/-- The stores that link a page: `q` is cleared in a memory that differs
from that of the table in `q` only, and its entry is written. -/
theorem linkStep_store {mem₁ : ByteMem} (haligned : root % 4096 = 0)
    (hp : nodeAt (child mem) 512 root d x = some p) (hd : d < 3) (hi : i < 512)
    (habsent : child mem p i = none) (hq : q % 4096 = 0) (hlt : q < 2 ^ 32)
    (hfresh : ¬ IsTable mem root q)
    (hsame : ∀ r, r % 4096 = 0 → r ≠ q → SamePage mem mem₁ r) :
    LinkStep mem ((mem₁.fill q 4096 0).write (entryAddr p i) 8 (q ||| PTE_P ||| PTE_W ||| PTE_U))
      root d x p i q := by
  have hpal := nodeAt_aligned haligned hp
  have hne : q ≠ p := by
    rintro rfl
    exact hfresh ⟨d, by omega, x, hp⟩
  have hfill : ∀ r, r % 4096 = 0 → r ≠ q → SamePage mem (mem₁.fill q 4096 0) r := fun r hr hrq =>
    (hsame r hr hrq).trans (samePage_fill hr hq hrq)
  refine ⟨hp, hd, hi, habsent, ⟨hq, by omega⟩, hfresh, entry_write ?_, fun j hj => ?_,
    fun r hr j hj hrj => ?_⟩
  · rw [Nat.or_assoc, Nat.or_assoc, or_eq_add hq (by decide)]
    exact Nat.lt_of_lt_of_le (Nat.add_lt_add_right hlt _) (by decide)
  · rw [(samePage_write hq hpal hne hi).entry hj]
    exact entry_fill_zero hj
  · obtain ⟨f, -, y, hy⟩ := id hr
    have hral := nodeAt_aligned haligned hy
    have hrq : r ≠ q := by
      rintro rfl
      exact hfresh hr
    by_cases hrp : r = p
    · subst hrp
      rw [entry_write_ne (hrj.resolve_left (not_not_intro rfl))]
      exact (hfill r hral hrq).entry hj
    · exact ((hfill r hral hrq).trans (samePage_write hral hpal hrp hi)).entry hj

namespace LinkStep

theorem link (h : LinkStep mem mem' root d x p i q) :
    Link (child mem) (child mem') 512 root 3 p i q := by
  refine ⟨h.absent, ?_, fun j hj => ?_, fun r hr j hj hrj => ?_⟩
  · rw [child, h.linked, link_table h.page.1 h.page.2]
  · rw [child, h.empty j hj, link_zero]
  · rw [child, child, h.others r hr j hj hrj]

theorem linked_perm (h : LinkStep mem mem' root d x p i q) : entry mem' p i &&& 7 = 7 := by
  rw [h.linked, Nat.or_assoc, Nat.or_assoc]
  exact or_and_perm h.page.1 (by decide)

theorem nodeAt_eq (h : LinkStep mem mem' root d x p i q)
    (hdist : Distinct (child mem) 512 root 3) {e : Nat} (he : e ≤ 3) (y : Nat) :
    nodeAt (child mem') 512 root e y =
      if e = d + 1 ∧ y = 512 * x + i then some q else nodeAt (child mem) 512 root e y :=
  nodeAt_link hdist h.link h.node h.depth h.index he y

/-- A page that was there stays in its slot. -/
theorem nodeAt_grows (h : LinkStep mem mem' root d x p i q)
    (hdist : Distinct (child mem) 512 root 3) {e : Nat} (he : e ≤ 3) {y r : Nat}
    (hr : nodeAt (child mem) 512 root e y = some r) :
    nodeAt (child mem') 512 root e y = some r := by
  rw [h.nodeAt_eq hdist he y, if_neg, hr]
  rintro ⟨rfl, rfl⟩
  rw [nodeAt_succ_digits h.index, h.node, Option.bind_some, h.absent] at hr
  cases hr

theorem isTable_iff (h : LinkStep mem mem' root d x p i q)
    (hdist : Distinct (child mem) 512 root 3) (r : Nat) :
    IsTable mem' root r ↔ IsTable mem root r ∨ r = q :=
  isNode_link hdist h.link h.node h.depth h.index r

theorem distinct (h : LinkStep mem mem' root d x p i q)
    (hdist : Distinct (child mem) 512 root 3) : Distinct (child mem') 512 root 3 :=
  distinct_link hdist h.link h.isFresh h.node h.depth h.index

/-- An entry of a page-table page is the new link, zero, or as before. -/
theorem entry_cases (h : LinkStep mem mem' root d x p i q)
    (hdist : Distinct (child mem) 512 root 3) {e y r j : Nat} (he : e ≤ 3)
    (hr : nodeAt (child mem') 512 root e y = some r) (hj : j < 512) :
    entry mem' r j = 0 ∨ (r = p ∧ j = i) ∨
      (nodeAt (child mem) 512 root e y = some r ∧ entry mem' r j = entry mem r j) := by
  rw [h.nodeAt_eq hdist he y] at hr
  split at hr
  · cases hr
    exact .inl (h.empty j hj)
  · by_cases hrj : r ≠ p ∨ j ≠ i
    · exact .inr (.inr ⟨hr, h.others r ⟨e, he, y, hr⟩ j hj hrj⟩)
    · obtain ⟨hrp, hji⟩ := not_or.mp hrj
      exact .inr (.inl ⟨not_not.mp hrp, not_not.mp hji⟩)

theorem fullLinks (h : LinkStep mem mem' root d x p i q)
    (hdist : Distinct (child mem) 512 root 3) (hfull : VmIter.FullLinks mem root) :
    VmIter.FullLinks mem' root := by
  intro e he y r hr j hj s hs
  rcases h.entry_cases hdist (by omega) hr hj with hzero | ⟨rfl, rfl⟩ | ⟨hr', heq⟩
  · rw [child, hzero, link_zero] at hs
    cases hs
  · exact h.linked_perm
  · rw [child, heq] at hs
    rw [heq]
    exact hfull e he y r hr' j hj s hs

theorem noLarge (h : LinkStep mem mem' root d x p i q)
    (hdist : Distinct (child mem) 512 root 3) (hplain : NoLarge mem root) :
    NoLarge mem' root := by
  intro e he y r hr j hj hnone
  rcases h.entry_cases hdist (by omega) hr hj with hzero | ⟨rfl, rfl⟩ | ⟨hr', heq⟩
  · rw [hzero, Nat.zero_and]
  · rw [h.link.linked] at hnone
    cases hnone
  · rw [child, heq] at hnone
    rw [heq]
    exact hplain e he y r hr' j hj hnone

/-- Linking changes no entry of a mapped page. -/
theorem leaf_eq (h : LinkStep mem mem' root d x p i q)
    (hdist : Distinct (child mem) 512 root 3) (vpn : Nat) :
    leaf mem' root vpn = leaf mem root vpn := by
  have hnode := h.node
  have hdepth := h.depth
  rw [leaf, leaf, h.nodeAt_eq hdist (Nat.le_refl 3)]
  by_cases hnew : 3 = d + 1 ∧ vpn / 512 = 512 * x + i
  · have hnone : nodeAt (child mem) 512 root 3 (vpn / 512) = none := by
      rw [hnew.2, hnew.1, nodeAt_succ_digits h.index, hnode, Option.bind_some, h.absent]
    rw [if_pos hnew, hnone]
    exact h.empty _ (Nat.mod_lt _ (by decide))
  · rw [if_neg hnew]
    cases hr : nodeAt (child mem) 512 root 3 (vpn / 512) with
    | none => rfl
    | some r =>
      refine h.others r ⟨3, Nat.le_refl 3, _, hr⟩ _ (Nat.mod_lt _ (by decide)) (.inl ?_)
      rintro rfl
      have := (hdist 3 (Nat.le_refl 3) d (by omega) _ _ r hr hnode).1
      omega

end LinkStep

/-! ## A new entry -/

/-- Entry `i` of the page `p`, at the slot `x` of depth 3, has become
`e`. -/
structure WriteStep (mem mem' : ByteMem) (root x p i e : Nat) : Prop where
  node : nodeAt (child mem) 512 root 3 x = some p
  index : i < 512
  written : entry mem' p i = e
  others : ∀ r, IsTable mem root r → ∀ j < 512, r ≠ p ∨ j ≠ i → entry mem' r j = entry mem r j

theorem writeStep_store (haligned : root % 4096 = 0)
    (hp : nodeAt (child mem) 512 root 3 x = some p) (hi : i < 512) (he : e < 2 ^ 64) :
    WriteStep mem (mem.write (entryAddr p i) 8 e) root x p i e := by
  refine ⟨hp, hi, entry_write he, fun r hr j hj hrj => ?_⟩
  obtain ⟨f, -, y, hy⟩ := hr
  by_cases hrp : r = p
  · subst hrp
    exact entry_write_ne (hrj.resolve_left (not_not_intro rfl))
  · exact (samePage_write (nodeAt_aligned haligned hy) (nodeAt_aligned haligned hp) hrp hi).entry hj

namespace WriteStep

/-- The page is at no smaller depth. -/
theorem ne_of_above (h : WriteStep mem mem' root x p i e)
    (hdist : Distinct (child mem) 512 root 3) {d y r : Nat} (hd : d < 3)
    (hr : nodeAt (child mem) 512 root d y = some r) : r ≠ p := by
  rintro rfl
  have := (hdist d (by omega) 3 (Nat.le_refl 3) _ _ r hr h.node).1
  omega

theorem entry_above (h : WriteStep mem mem' root x p i e)
    (hdist : Distinct (child mem) 512 root 3) {d y r j : Nat} (hd : d < 3)
    (hr : nodeAt (child mem) 512 root d y = some r) (hj : j < 512) :
    entry mem' r j = entry mem r j :=
  h.others r ⟨d, by omega, y, hr⟩ j hj (.inl (h.ne_of_above hdist hd hr))

theorem nodeAt_eq (h : WriteStep mem mem' root x p i e)
    (hdist : Distinct (child mem) 512 root 3) {d : Nat} (hd : d ≤ 3) (y : Nat) :
    nodeAt (child mem') 512 root d y = nodeAt (child mem) 512 root d y :=
  nodeAt_congr (fun d hd y r hr j hj => by
    rw [child, child, h.entry_above hdist hd hr hj]) (by decide) hd y

theorem isTable_iff (h : WriteStep mem mem' root x p i e)
    (hdist : Distinct (child mem) 512 root 3) (r : Nat) :
    IsTable mem' root r ↔ IsTable mem root r := by
  constructor <;> rintro ⟨d, hd, y, hr⟩
  · exact ⟨d, hd, y, by rw [← h.nodeAt_eq hdist hd]; exact hr⟩
  · exact ⟨d, hd, y, by rw [h.nodeAt_eq hdist hd]; exact hr⟩

theorem distinct (h : WriteStep mem mem' root x p i e)
    (hdist : Distinct (child mem) 512 root 3) : Distinct (child mem') 512 root 3 := by
  intro d hd d' hd' y y' r hr hr'
  rw [h.nodeAt_eq hdist hd] at hr
  rw [h.nodeAt_eq hdist hd'] at hr'
  exact hdist d hd d' hd' y y' r hr hr'

theorem fullLinks (h : WriteStep mem mem' root x p i e)
    (hdist : Distinct (child mem) 512 root 3) (hfull : VmIter.FullLinks mem root) :
    VmIter.FullLinks mem' root := by
  intro d hd y r hr j hj s hs
  rw [h.nodeAt_eq hdist (by omega)] at hr
  have heq := h.entry_above hdist hd hr hj
  rw [child, heq] at hs
  rw [heq]
  exact hfull d hd y r hr j hj s hs

theorem noLarge (h : WriteStep mem mem' root x p i e)
    (hdist : Distinct (child mem) 512 root 3) (hplain : NoLarge mem root) :
    NoLarge mem' root := by
  intro d hd y r hr j hj hnone
  rw [h.nodeAt_eq hdist (by omega)] at hr
  have heq := h.entry_above hdist hd hr hj
  rw [child, heq] at hnone
  rw [heq]
  exact hplain d hd y r hr j hj hnone

/-- Writing the entry of a page changes that entry alone. -/
theorem leaf_eq (h : WriteStep mem mem' root x p i e)
    (hdist : Distinct (child mem) 512 root 3) (vpn : Nat) :
    leaf mem' root vpn = Function.update (leaf mem root) (512 * x + i) e vpn := by
  rw [Function.update_apply, leaf, h.nodeAt_eq hdist (Nat.le_refl 3), leaf]
  by_cases hvpn : vpn = 512 * x + i
  · rw [if_pos hvpn, hvpn, digits_div h.index, h.node, digits_mod h.index]
    exact h.written
  · rw [if_neg hvpn]
    cases hr : nodeAt (child mem) 512 root 3 (vpn / 512) with
    | none => rfl
    | some r =>
      refine h.others r ⟨3, Nat.le_refl 3, _, hr⟩ _ (Nat.mod_lt _ (by decide)) ?_
      refine not_and_or.mp fun hslot => hvpn ?_
      obtain ⟨rfl, hmod⟩ := hslot
      have hx := (hdist 3 (Nat.le_refl 3) 3 (Nat.le_refl 3) _ _ r hr h.node).2
      rw [← hx, ← hmod, Nat.div_add_mod]

end WriteStep

end SystemsProjects.WeensyOS
