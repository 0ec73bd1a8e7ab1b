/-
SystemsProjects.Base.RadixTree — trees of nodes addressed by digits.

A node has `fan` places for children, and a slot is a depth with a prefix
of that many digits; `nodeAt` follows a prefix from the root. The tree is
given by its child function alone, so a store that changes one child
function into another is a change of the tree, and two lemmas cover the
changes a verifier needs: `nodeAt_congr`, where no child changes, and
`nodeAt_link`, where an absent child becomes a fresh empty node.
`postorder` lists the nodes, each once, children before their parent.

Nothing here names the programs of this repository.
-/
import Mathlib.Data.List.Nodup
import Mathlib.Data.List.Range
import Mathlib.Algebra.Order.Ring.Nat
import Mathlib.Algebra.Order.BigOperators.Group.List

namespace SystemsProjects.Base.RadixTree

variable {ν : Type*} {child child' : ν → Nat → Option ν} {fan : Nat} {root : ν}

/-! ## Slots -/

/-- The node at the end of the path of `x`, read as `d` digits. -/
def nodeAt (child : ν → Nat → Option ν) (fan : Nat) (root : ν) : Nat → Nat → Option ν
  | 0, x => if x = 0 then some root else none
  | d + 1, x => (nodeAt child fan root d (x / fan)).bind fun p => child p (x % fan)

/-- A node within depth `D`. -/
def IsNode (child : ν → Nat → Option ν) (fan : Nat) (root : ν) (D : Nat) (p : ν) : Prop :=
  ∃ d ≤ D, ∃ x, nodeAt child fan root d x = some p

/-- No node is in two slots within depth `D`. -/
def Distinct (child : ν → Nat → Option ν) (fan : Nat) (root : ν) (D : Nat) : Prop :=
  ∀ d ≤ D, ∀ d' ≤ D, ∀ x x' p, nodeAt child fan root d x = some p →
    nodeAt child fan root d' x' = some p → d = d' ∧ x = x'

@[simp] theorem nodeAt_root : nodeAt child fan root 0 0 = some root := if_pos rfl

theorem isNode_root {D : Nat} : IsNode child fan root D root := ⟨0, Nat.zero_le D, 0, nodeAt_root⟩

theorem digits_div {x i : Nat} (hi : i < fan) : (fan * x + i) / fan = x := by
  rw [Nat.mul_add_div (by omega), Nat.div_eq_of_lt hi, Nat.add_zero]

theorem digits_mod {x i : Nat} (hi : i < fan) : (fan * x + i) % fan = i := by
  rw [Nat.mul_add_mod, Nat.mod_eq_of_lt hi]

theorem nodeAt_succ_digits {d x i : Nat} (hi : i < fan) :
    nodeAt child fan root (d + 1) (fan * x + i) =
      (nodeAt child fan root d x).bind fun p => child p i := by
  rw [nodeAt, digits_div hi, digits_mod hi]

/-- A slot holds no more than its digits can tell. -/
theorem lt_of_nodeAt (hfan : 0 < fan) {d x : Nat} {p : ν}
    (h : nodeAt child fan root d x = some p) : x < fan ^ d := by
  induction d generalizing x p with
  | zero =>
    rw [nodeAt] at h
    split at h
    · simp_all
    · cases h
  | succ d ih =>
    rw [nodeAt, Option.bind_eq_some_iff] at h
    obtain ⟨q, hq, -⟩ := h
    have := (Nat.div_lt_iff_lt_mul hfan).mp (ih hq)
    rwa [Nat.pow_succ]

/-! ## Changes of the tree -/

/-- The same children, the same tree. -/
theorem nodeAt_congr {D : Nat}
    (h : ∀ d < D, ∀ x p, nodeAt child fan root d x = some p → ∀ i < fan, child' p i = child p i)
    (hfan : 0 < fan) {d : Nat} (hd : d ≤ D) (x : Nat) :
    nodeAt child' fan root d x = nodeAt child fan root d x := by
  induction d generalizing x with
  | zero => rfl
  | succ d ih =>
    rw [nodeAt, nodeAt, ih (by omega)]
    cases hp : nodeAt child fan root d (x / fan) with
    | none => rfl
    | some p => exact h d (by omega) _ p hp _ (Nat.mod_lt _ hfan)

/-- Child `i` of `p`, absent, becomes the empty node `q`; nothing else
changes within depth `D`. -/
structure Link (child child' : ν → Nat → Option ν) (fan : Nat) (root : ν) (D : Nat) (p : ν)
    (i : Nat) (q : ν) : Prop where
  absent : child p i = none
  linked : child' p i = some q
  empty : ∀ j < fan, child' q j = none
  other : ∀ r, IsNode child fan root D r → ∀ j < fan, r ≠ p ∨ j ≠ i → child' r j = child r j

/-- Linking a fresh node adds one slot. -/
theorem nodeAt_link {D d₀ x₀ i : Nat} {p q : ν} (hdist : Distinct child fan root D)
    (hlink : Link child child' fan root D p i q) (hp : nodeAt child fan root d₀ x₀ = some p)
    (hd₀ : d₀ < D) (hi : i < fan) {d : Nat} (hd : d ≤ D) (x : Nat) :
    nodeAt child' fan root d x =
      if d = d₀ + 1 ∧ x = fan * x₀ + i then some q else nodeAt child fan root d x := by
  induction d generalizing x with
  | zero => simp [nodeAt]
  | succ d ih =>
    rw [nodeAt, nodeAt, ih (by omega)]
    by_cases hnew : d = d₀ + 1 ∧ x / fan = fan * x₀ + i
    · -- below the new node: nothing before, nothing now
      obtain ⟨rfl, hx⟩ := hnew
      have hold : nodeAt child fan root (d₀ + 1) (x / fan) = none := by
        rw [hx, nodeAt_succ_digits hi, hp, Option.bind_some, hlink.absent]
      simp [hx, hlink.empty _ (Nat.mod_lt x (show 0 < fan by omega)), nodeAt_succ_digits hi, hp,
        hlink.absent]
    · rw [if_neg hnew]
      cases hr : nodeAt child fan root d (x / fan) with
      | none =>
        have : ¬ (d + 1 = d₀ + 1 ∧ x = fan * x₀ + i) := by
          rintro ⟨hd, rfl⟩
          rw [Nat.succ.inj hd, digits_div hi, hp] at hr
          cases hr
        rw [if_neg this, Option.bind_none, Option.bind_none]
      | some r =>
        rw [Option.bind_some, Option.bind_some]
        by_cases heq : r = p ∧ x % fan = i
        · obtain ⟨rfl, hmod⟩ := heq
          obtain ⟨rfl, hdiv⟩ := hdist d (by omega) d₀ (by omega) _ _ r hr hp
          have hx : x = fan * x₀ + i := by rw [← hdiv, ← hmod, Nat.div_add_mod]
          rw [if_pos ⟨rfl, hx⟩, hmod, hlink.linked]
        · have hne : ¬ (d + 1 = d₀ + 1 ∧ x = fan * x₀ + i) := by
            rintro ⟨hd, rfl⟩
            rw [Nat.succ.inj hd, digits_div hi, hp] at hr
            exact heq ⟨(Option.some.inj hr).symm, digits_mod hi⟩
          rw [if_neg hne]
          refine hlink.other r ⟨d, by omega, _, hr⟩ _ (Nat.mod_lt _ (by omega)) ?_
          exact not_and_or.mp heq

section

variable {D d₀ x₀ i : Nat} {p q : ν}

theorem isNode_link (hdist : Distinct child fan root D)
    (hlink : Link child child' fan root D p i q) (hp : nodeAt child fan root d₀ x₀ = some p)
    (hd₀ : d₀ < D) (hi : i < fan) (r : ν) :
    IsNode child' fan root D r ↔ IsNode child fan root D r ∨ r = q := by
  constructor
  · rintro ⟨d, hd, x, hr⟩
    rw [nodeAt_link hdist hlink hp hd₀ hi hd] at hr
    split at hr
    · exact .inr (Option.some.inj hr).symm
    · exact .inl ⟨d, hd, x, hr⟩
  · rintro (⟨d, hd, x, hr⟩ | rfl)
    · refine ⟨d, hd, x, ?_⟩
      rw [nodeAt_link hdist hlink hp hd₀ hi hd, if_neg, hr]
      rintro ⟨rfl, rfl⟩
      rw [nodeAt_succ_digits hi, hp, Option.bind_some, hlink.absent] at hr
      cases hr
    · refine ⟨d₀ + 1, hd₀, fan * x₀ + i, ?_⟩
      rw [nodeAt_link hdist hlink hp hd₀ hi hd₀, if_pos ⟨rfl, rfl⟩]

theorem distinct_link (hdist : Distinct child fan root D)
    (hlink : Link child child' fan root D p i q) (hq : ¬ IsNode child fan root D q)
    (hp : nodeAt child fan root d₀ x₀ = some p) (hd₀ : d₀ < D) (hi : i < fan) :
    Distinct child' fan root D := by
  intro d hd d' hd' x x' r hr hr'
  rw [nodeAt_link hdist hlink hp hd₀ hi hd] at hr
  rw [nodeAt_link hdist hlink hp hd₀ hi hd'] at hr'
  split at hr <;> split at hr'
  · simp_all
  · cases hr
    exact absurd ⟨d', hd', x', hr'⟩ hq
  · cases hr'
    exact absurd ⟨d, hd, x, hr⟩ hq
  · exact hdist d hd d' hd' x x' r hr hr'

end

/-! ## Postorder -/

/-- The nodes below an optional node of height `h`, and the node itself
after them. -/
def postorder (child : ν → Nat → Option ν) (fan : Nat) : Nat → Option ν → List ν
  | _, none => []
  | 0, some p => [p]
  | h + 1, some p => ((List.range fan).flatMap fun i => postorder child fan h (child p i)) ++ [p]

/-- What is left of the postorder of a tree of depth `D` after the slot
`(d, x)`: the later siblings, the parent unless it is the root, and what
is left after the parent. -/
def remaining (child : ν → Nat → Option ν) (fan : Nat) (root : ν) (D : Nat) : Nat → Nat → List ν
  | 0, _ => []
  | d + 1, x =>
    ((List.range' (x % fan + 1) (fan - 1 - x % fan)).flatMap fun i =>
      postorder child fan (D - (d + 1)) (nodeAt child fan root (d + 1) (fan * (x / fan) + i)))
    ++ (if d = 0 then [] else (nodeAt child fan root d (x / fan)).toList)
    ++ remaining child fan root D d (x / fan)

/-- The postorder of a whole tree, without its root. -/
def belowRoot (child : ν → Nat → Option ν) (fan : Nat) (root : ν) (D : Nat) : List ν :=
  (List.range fan).flatMap fun i => postorder child fan (D - 1) (child root i)

section

variable {D : Nat}

/-- After the last sibling comes the parent. -/
theorem remaining_last {d x : Nat} (h : x % fan + 1 = fan) :
    remaining child fan root D (d + 1) x =
      (if d = 0 then [] else (nodeAt child fan root d (x / fan)).toList)
        ++ remaining child fan root D d (x / fan) := by
  rw [remaining, show fan - 1 - x % fan = 0 by omega]
  simp

/-- Before it, the next sibling. -/
theorem remaining_next {d x : Nat} (h : x % fan + 1 < fan) :
    remaining child fan root D (d + 1) x =
      postorder child fan (D - (d + 1)) (nodeAt child fan root (d + 1) (x + 1))
        ++ remaining child fan root D (d + 1) (x + 1) := by
  have hx : x + 1 = fan * (x / fan) + (x % fan + 1) := by
    rw [← Nat.add_assoc, Nat.div_add_mod]
  have hdiv : (x + 1) / fan = x / fan := by
    conv_lhs => rw [hx]
    exact digits_div h
  have hmod : (x + 1) % fan = x % fan + 1 := by
    conv_lhs => rw [hx]
    exact digits_mod h
  rw [remaining, remaining, hdiv, hmod,
    show fan - 1 - x % fan = fan - 1 - (x % fan + 1) + 1 by omega,
    List.range'_succ, List.flatMap_cons, ← hx]
  simp only [List.append_assoc]

/-- A node's postorder starts with its first child's. -/
theorem postorder_descend {d x : Nat} {p : ν} (hfan : 0 < fan) (hd : d + 1 < D)
    (hp : nodeAt child fan root (d + 1) x = some p) :
    postorder child fan (D - (d + 1)) (some p) ++ remaining child fan root D (d + 1) x =
      postorder child fan (D - (d + 2)) (nodeAt child fan root (d + 2) (fan * x))
        ++ remaining child fan root D (d + 2) (fan * x) := by
  have hchild : ∀ i < fan, nodeAt child fan root (d + 2) (fan * x + i) = child p i := by
    intro i hi
    rw [nodeAt_succ_digits hi, hp, Option.bind_some]
  have hdiv : fan * x / fan = x := Nat.mul_div_cancel_left x hfan
  have hafter : remaining child fan root D (d + 2) (fan * x) =
      ((List.range' (0 + 1) (fan - 1 - 0)).flatMap fun i =>
        postorder child fan (D - (d + 2)) (nodeAt child fan root (d + 2) (fan * x + i)))
      ++ [p] ++ remaining child fan root D (d + 1) x := by
    conv_lhs => rw [remaining, hdiv, Nat.mul_mod_right, hp, if_neg (Nat.succ_ne_zero d)]
    rfl
  rw [hafter, show D - (d + 1) = D - (d + 2) + 1 by omega, postorder, List.range_eq_range']
  conv_lhs => rw [show fan = fan - 1 + 1 by omega, List.range'_succ,
    show fan - 1 + 1 = fan by omega]
  rw [List.flatMap_cons]
  have hrest : (List.range' (0 + 1) (fan - 1)).flatMap (fun i =>
        postorder child fan (D - (d + 2)) (child p i)) =
      (List.range' (0 + 1) (fan - 1 - 0)).flatMap fun i =>
        postorder child fan (D - (d + 2)) (nodeAt child fan root (d + 2) (fan * x + i)) := by
    refine List.flatMap_congr fun i hi => ?_
    rw [List.mem_range'_1] at hi
    rw [hchild i (by omega)]
  rw [hrest, ← hchild 0 hfan]
  simp only [List.append_assoc, Nat.add_zero]

/-- The whole list starts with the first child of the root. -/
theorem belowRoot_eq (hfan : 0 < fan) :
    belowRoot child fan root D =
      postorder child fan (D - 1) (nodeAt child fan root 1 0)
        ++ remaining child fan root D 1 0 := by
  have hchild : ∀ i < fan, nodeAt child fan root 1 i = child root i := by
    intro i hi
    rw [nodeAt, Nat.div_eq_of_lt hi, nodeAt_root, Option.bind_some, Nat.mod_eq_of_lt hi]
  have hrest : remaining child fan root D 1 0 =
      (List.range' (0 + 1) (fan - 1)).flatMap fun i => postorder child fan (D - 1)
      (child root i) := by
    rw [remaining, remaining, Nat.zero_mod, Nat.zero_div, Nat.mul_zero, if_pos rfl]
    simp only [List.append_nil]
    refine List.flatMap_congr fun i hi => ?_
    rw [List.mem_range'_1] at hi
    rw [Nat.zero_add, Nat.zero_add, hchild i (by omega)]
  rw [hrest, belowRoot, List.range_eq_range', hchild 0 hfan]
  conv_lhs => rw [show fan = fan - 1 + 1 by omega, List.range'_succ,
    show fan - 1 + 1 = fan by omega]
  rw [List.flatMap_cons]

/-! ### Each node once -/

/-- The nodes listed for a slot are those in the slots below it. -/
theorem mem_postorder (hfan : 0 < fan) {h d x : Nat} {r : ν} :
    r ∈ postorder child fan h (nodeAt child fan root d x) ↔
      ∃ e ≤ h, ∃ y, y / fan ^ e = x ∧ nodeAt child fan root (d + e) y = some r := by
  induction h generalizing d x with
  | zero =>
    simp only [Nat.le_zero_eq, exists_eq_left, Nat.pow_zero, Nat.div_one, Nat.add_zero]
    cases nodeAt child fan root d x <;> simp [postorder, eq_comm]
  | succ h ih =>
    cases hp : nodeAt child fan root d x with
    | none =>
      simp only [postorder, List.not_mem_nil, false_iff]
      rintro ⟨e, -, y, hy, hr⟩
      -- a slot below an empty slot is empty
      clear ih
      induction e generalizing y r with
      | zero =>
        rw [Nat.pow_zero, Nat.div_one] at hy
        rw [hy, Nat.add_zero, hp] at hr
        cases hr
      | succ e ihe =>
        rw [← Nat.add_assoc, nodeAt, Option.bind_eq_some_iff] at hr
        obtain ⟨q, hq, -⟩ := hr
        refine ihe (y / fan) ?_ hq
        rw [Nat.div_div_eq_div_mul, ← Nat.pow_succ', hy]
    | some p =>
      have hchild : ∀ i < fan, child p i = nodeAt child fan root (d + 1) (fan * x + i) := by
        intro i hi
        rw [nodeAt_succ_digits hi, hp, Option.bind_some]
      simp only [postorder, List.mem_append, List.mem_flatMap, List.mem_range, List.mem_singleton]
      constructor
      · rintro (⟨i, hi, hr⟩ | rfl)
        · rw [hchild i hi, ih] at hr
          obtain ⟨e, he, y, hy, hr⟩ := hr
          refine ⟨e + 1, by omega, y, ?_, ?_⟩
          · rw [Nat.pow_succ, ← Nat.div_div_eq_div_mul, hy, digits_div hi]
          · rw [← hr, Nat.add_assoc, Nat.add_comm 1 e]
        · exact ⟨0, by omega, x, by simp, by simp [hp]⟩
      · rintro ⟨e, he, y, hy, hr⟩
        cases e with
        | zero =>
          rw [Nat.pow_zero, Nat.div_one] at hy
          rw [hy, Nat.add_zero, hp] at hr
          exact .inr (Option.some.inj hr).symm
        | succ e =>
          refine .inl ⟨y / fan ^ e % fan, Nat.mod_lt _ hfan, ?_⟩
          rw [hchild _ (Nat.mod_lt _ hfan), ih]
          refine ⟨e, by omega, y, ?_, ?_⟩
          · rw [← hy, Nat.pow_succ, ← Nat.div_div_eq_div_mul, Nat.div_add_mod]
          · rw [Nat.add_assoc, Nat.add_comm 1 e, hr]

theorem nodup_postorder (hfan : 0 < fan) (hdist : Distinct child fan root D) {h d x : Nat}
    (hd : d + h ≤ D) : (postorder child fan h (nodeAt child fan root d x)).Nodup := by
  induction h generalizing d x with
  | zero => cases nodeAt child fan root d x <;> simp [postorder]
  | succ h ih =>
    cases hp : nodeAt child fan root d x with
    | none => simp [postorder]
    | some p =>
      have hchild : ∀ i < fan, child p i = nodeAt child fan root (d + 1) (fan * x + i) := by
        intro i hi
        rw [nodeAt_succ_digits hi, hp, Option.bind_some]
      rw [postorder, List.nodup_append, List.nodup_flatMap]
      refine ⟨⟨fun i hi => ?_, ?_⟩, List.nodup_singleton p, ?_⟩
      · rw [hchild i (List.mem_range.mp hi)]
        exact ih (by omega)
      · -- two siblings list slots with different digits
        refine List.nodup_range.imp_of_mem fun {i j} hi hj hij => ?_
        rw [List.mem_range] at hi hj
        intro r hr hr'
        dsimp only at hr hr'
        rw [hchild i hi, mem_postorder hfan] at hr
        rw [hchild j hj, mem_postorder hfan] at hr'
        obtain ⟨e, he, y, hy, hr⟩ := hr
        obtain ⟨e', he', y', hy', hr'⟩ := hr'
        obtain ⟨hee, rfl⟩ := hdist _ (by omega) _ (by omega) _ _ r hr hr'
        obtain rfl : e = e' := by omega
        rw [hy] at hy'
        exact hij (by omega)
      · -- and none of them the parent
        intro r hr s hs hrs
        rw [List.mem_singleton] at hs
        subst hs hrs
        rw [List.mem_flatMap] at hr
        obtain ⟨i, hi, hr⟩ := hr
        rw [hchild i (List.mem_range.mp hi), mem_postorder hfan] at hr
        obtain ⟨e, he, y, -, hr⟩ := hr
        have := hdist _ (by omega) _ (by omega) _ _ r hr hp
        omega

theorem mem_belowRoot (hfan : 0 < fan) (hD : 1 ≤ D) {r : ν} :
    r ∈ belowRoot child fan root D ↔
      ∃ d, 1 ≤ d ∧ d ≤ D ∧ ∃ x, nodeAt child fan root d x = some r := by
  constructor
  · intro hr
    rw [belowRoot, List.mem_flatMap] at hr
    obtain ⟨i, hi, hr⟩ := hr
    rw [List.mem_range] at hi
    have hchild : child root i = nodeAt child fan root 1 i := by
      rw [nodeAt, Nat.div_eq_of_lt hi, nodeAt_root, Option.bind_some, Nat.mod_eq_of_lt hi]
    rw [hchild, mem_postorder hfan] at hr
    obtain ⟨e, he, y, -, hr⟩ := hr
    exact ⟨1 + e, by omega, by omega, y, hr⟩
  · rintro ⟨d, hd, hdD, x, hr⟩
    obtain ⟨e, rfl⟩ : ∃ e, d = 1 + e := ⟨d - 1, by omega⟩
    have hlt := lt_of_nodeAt hfan hr
    have hdiv : x / fan ^ e < fan := by
      rw [Nat.div_lt_iff_lt_mul (Nat.pow_pos hfan), ← Nat.pow_succ']
      rwa [Nat.add_comm] at hlt
    have hchild : child root (x / fan ^ e) = nodeAt child fan root 1 (x / fan ^ e) := by
      rw [nodeAt, Nat.div_eq_of_lt hdiv, nodeAt_root, Option.bind_some, Nat.mod_eq_of_lt hdiv]
    rw [belowRoot, List.mem_flatMap]
    refine ⟨x / fan ^ e, List.mem_range.mpr hdiv, ?_⟩
    rw [hchild, mem_postorder hfan]
    exact ⟨e, by omega, x, rfl, hr⟩

theorem nodup_belowRoot (hfan : 0 < fan) (hD : 1 ≤ D) (hdist : Distinct child fan root D) :
    (belowRoot child fan root D).Nodup := by
  have hall : (postorder child fan D (nodeAt child fan root 0 0)).Nodup :=
    nodup_postorder hfan hdist (by omega)
  obtain ⟨D, rfl⟩ : ∃ D', D = D' + 1 := ⟨D - 1, by omega⟩
  rw [nodeAt_root, postorder] at hall
  exact (List.nodup_append.mp hall).1

/-! ### Children first -/

/-- `q` is in the subtree of `p`, and is not `p`. -/
def Below (child : ν → Nat → Option ν) (fan : Nat) (root : ν) (D : Nat) (q p : ν) : Prop :=
  ∃ d e y, d + e ≤ D ∧ 0 < e ∧ nodeAt child fan root d (y / fan ^ e) = some p ∧
    nodeAt child fan root (d + e) y = some q

/-- Where a node below a node is. -/
theorem Below.slots {d d' y y' : Nat} {p q : ν} (h : Below child fan root D q p)
    (hdist : Distinct child fan root D) (hd : d ≤ D) (hd' : d' ≤ D)
    (hp : nodeAt child fan root d y = some p) (hq : nodeAt child fan root d' y' = some q) :
    ∃ e, 0 < e ∧ d' = d + e ∧ y' / fan ^ e = y := by
  obtain ⟨d₁, e, y₁, hle, he, hp₁, hq₁⟩ := h
  obtain ⟨rfl, rfl⟩ := hdist _ hd _ (by omega) _ _ p hp hp₁
  obtain ⟨rfl, rfl⟩ := hdist _ hd' _ hle _ _ q hq hq₁
  exact ⟨e, he, rfl, rfl⟩

/-- No node comes after a node above it. -/
theorem pairwise_postorder (hfan : 0 < fan) (hdist : Distinct child fan root D) {h d x : Nat}
    (hd : d + h ≤ D) : (postorder child fan h (nodeAt child fan root d x)).Pairwise
      fun p q => ¬ Below child fan root D q p := by
  induction h generalizing d x with
  | zero => cases nodeAt child fan root d x <;> simp [postorder]
  | succ h ih =>
    cases hp : nodeAt child fan root d x with
    | none => simp [postorder]
    | some p =>
      have hchild : ∀ i < fan, child p i = nodeAt child fan root (d + 1) (fan * x + i) := by
        intro i hi
        rw [nodeAt_succ_digits hi, hp, Option.bind_some]
      rw [postorder, List.pairwise_append, List.pairwise_flatMap]
      refine ⟨⟨fun i hi => ?_, ?_⟩, List.pairwise_singleton _ p, ?_⟩
      · rw [hchild i (List.mem_range.mp hi)]
        exact ih (by omega)
      · -- two siblings list slots with different digits
        refine List.nodup_range.imp_of_mem fun {i j} hi hj hij a ha b hb hbelow => hij ?_
        rw [List.mem_range] at hi hj
        rw [hchild i hi, mem_postorder hfan] at ha
        rw [hchild j hj, mem_postorder hfan] at hb
        obtain ⟨e, he, y, hy, ha⟩ := ha
        obtain ⟨e', he', y', hy', hb⟩ := hb
        obtain ⟨e'', -, hdepth, hslot⟩ := hbelow.slots hdist (by omega) (by omega) ha hb
        obtain rfl : e' = e'' + e := by omega
        rw [Nat.pow_add, ← Nat.div_div_eq_div_mul, hslot, hy] at hy'
        omega
      · -- and none of them is above the parent
        intro a ha b hb hbelow
        obtain rfl := List.mem_singleton.mp hb
        obtain ⟨i, hi, ha⟩ := List.mem_flatMap.mp ha
        rw [hchild i (List.mem_range.mp hi), mem_postorder hfan] at ha
        obtain ⟨e, he, y, -, ha⟩ := ha
        obtain ⟨e', he', hdepth, -⟩ := hbelow.slots hdist (by omega) (by omega) ha hp
        omega

theorem pairwise_belowRoot (hfan : 0 < fan) (hD : 1 ≤ D) (hdist : Distinct child fan root D) :
    (belowRoot child fan root D).Pairwise fun p q => ¬ Below child fan root D q p := by
  have hall : (postorder child fan D (nodeAt child fan root 0 0)).Pairwise
      fun p q => ¬ Below child fan root D q p := pairwise_postorder hfan hdist (by omega)
  obtain ⟨D, rfl⟩ : ∃ D', D = D' + 1 := ⟨D - 1, by omega⟩
  rw [nodeAt_root, postorder] at hall
  exact (List.pairwise_append.mp hall).1

/-- The number of nodes of a full tree of height `h`. -/
def fullSize (fan : Nat) : Nat → Nat
  | 0 => 1
  | h + 1 => fan * fullSize fan h + 1

theorem length_postorder_le {h : Nat} (p : Option ν) :
    (postorder child fan h p).length ≤ fullSize fan h := by
  induction h generalizing p with
  | zero => cases p <;> simp [postorder, fullSize]
  | succ h ih =>
    cases p with
    | none => simp [postorder]
    | some p =>
      rw [postorder, fullSize, List.length_append, List.length_flatMap, List.length_singleton]
      have := List.sum_le_card_nsmul
        ((List.range fan).map fun i => (postorder child fan h (child p i)).length) (fullSize fan h)
        (by simp only [List.mem_map]; rintro _ ⟨i, -, rfl⟩; exact ih _)
      simpa using this

theorem length_belowRoot_le :
    (belowRoot child fan root D).length ≤ fan * fullSize fan (D - 1) := by
  rw [belowRoot, List.length_flatMap]
  have := List.sum_le_card_nsmul
    ((List.range fan).map fun i => (postorder child fan (D - 1) (child root i)).length)
    (fullSize fan (D - 1))
    (by simp only [List.mem_map]; rintro _ ⟨i, -, rfl⟩; exact length_postorder_le _)
  simpa using this

end

end SystemsProjects.Base.RadixTree
