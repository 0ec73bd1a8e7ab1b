/-
SystemsProjects.WeensyOS.TableWalk — `ptiter` visits a page table in
postorder.

A position of the iterator is a page-table page, its depth and an address
whose digits give the entry it points to. `Shows` says what is still to be
visited from there; one call of `next` goes to the head of that list
(`downLoop_spec`). The memory it runs on need not be the one the table was
in: the pages still to be visited, and the root, must be the same
(`Kept`). So the loop over a `ptiter` visits the pages below the root,
each once, children first, whatever its body does to the page it is given
(`forTables_spec`).
-/
import SystemsProjects.WeensyOS.Lookup

namespace SystemsProjects.WeensyOS

open SystemsProjects.Base
open SystemsProjects.Base.RadixTree

/-! ## Addresses -/

/-- An address all of whose upper bits are bit 47. -/
theorem canonical_iff {va : Nat} (hva : va < 2 ^ 64) :
    vaIsCanonical va = true ↔ va < 2 ^ 47 ∨ 2 ^ 64 - 2 ^ 47 ≤ va := by
  simp only [vaIsCanonical, Bool.or_eq_true, decide_eq_true_eq, VA_LOWMAX, VA_HIGHMIN]
  omega

theorem or_lbitsMask (va l : Nat) : (va ||| lbitsMask l) + 1 = (va / 2 ^ l + 1) * 2 ^ l := by
  have hbits : va ||| lbitsMask l = va / 2 ^ l * 2 ^ l + (2 ^ l - 1) := by
    rw [Nat.mul_comm, Nat.two_pow_add_eq_or_of_lt (Nat.sub_lt (Nat.two_pow_pos l) Nat.one_pos)]
    refine Nat.eq_of_testBit_eq fun i => ?_
    rw [Nat.testBit_or, Nat.testBit_or, lbitsMask, Nat.testBit_two_pow_sub_one,
      Nat.testBit_two_pow_mul, Nat.testBit_div_two_pow]
    by_cases hi : i < l
    · simp [hi]
    · simp [hi, show l ≤ i by omega, show i - l + l = i by omega]
  rw [hbits, Nat.add_mul, Nat.one_mul, Nat.add_assoc, Nat.sub_add_cancel (Nat.two_pow_pos l)]

/-- The address at which the next entry of a page begins. -/
def nextVa (l va : Nat) : Nat :=
  let va := (va / 2 ^ l + 1) * 2 ^ l % 2 ^ 64
  if vaIsCanonical va = true then va else VA_HIGHMIN

namespace PtIter

/-! ## Positions -/

/-- The iterator at the entry for `va` of the page at `p`, at depth `d`. -/
def atEntry (root d p va : Nat) : PtIter :=
  { pt_ := root, pep_ := entryAddr p (entryIndex va (39 - 9 * d)), lbits_ := 39 - 9 * d, va_ := va }

/-- A position: the page is on the path of the address. -/
structure Position (mem : ByteMem) (root d p va : Nat) : Prop where
  depth : d ≤ 2
  node : nodeAt (child mem) 512 root d (slot d va) = some p
  va_lt : va < 2 ^ 64
  canonical : vaIsCanonical va = true

/-- The pages `l` are still to be visited, the head of `l` first. -/
def Shows (mem : ByteMem) (root : Nat) (it : PtIter) : List Nat → Prop
  | [] => it.done = true
  | r :: rest => ∃ d p va, it = atEntry root d p va ∧ Position mem root d p va ∧
      child mem p (entryIndex va (39 - 9 * d)) = some r ∧
      rest = remaining (child mem) 512 root 3 (d + 1) (slot (d + 1) va)

section

variable {mem mem' : ByteMem} {root d p va : Nat}

theorem slot_succ_div (hd : d ≤ 3) (va : Nat) : slot (d + 1) va / 512 = slot d va := by
  rw [slot_succ hd, digits_div (entryIndex_lt _ _)]

theorem slot_succ_mod (hd : d ≤ 3) (va : Nat) :
    slot (d + 1) va % 512 = entryIndex va (39 - 9 * d) := by
  rw [slot_succ hd, digits_mod (entryIndex_lt _ _)]

/-- The test for the end of a page. -/
theorem crosses_iff (hd : d ≤ 2) (hva : va < 2 ^ 64) :
    ((va / 2 ^ (39 - 9 * d) + 1) * 2 ^ (39 - 9 * d) % 2 ^ 64 ^^^ va) &&&
        lbitsUpper (39 - 9 * d + PAGEINDEXBITS) ≠ 0 ↔
      entryIndex va (39 - 9 * d) = 511 := by
  rw [ne_eq, xor_and_lbitsUpper (Nat.mod_lt _ (by decide)) hva
    (show 39 - 9 * d + 9 ≤ 64 by omega), entryIndex_eq]
  interval_cases d <;> omega

/-- The last entry of the last page. -/
theorem wraps (hva : va < 2 ^ 64) (hcanon : vaIsCanonical va = true)
    (hlast : entryIndex va 39 = 511) : (va / 2 ^ 39 + 1) * 2 ^ 39 % 2 ^ 64 = 0 := by
  rw [entryIndex_eq] at hlast
  rw [canonical_iff hva] at hcanon
  omega

/-- The next entry of the same page. -/
theorem nextVa_spec (hd : d ≤ 2) (hva : va < 2 ^ 64) (hcanon : vaIsCanonical va = true)
    (hlast : entryIndex va (39 - 9 * d) ≠ 511) :
    nextVa (39 - 9 * d) va < 2 ^ 64 ∧ vaIsCanonical (nextVa (39 - 9 * d) va) = true ∧
      nextVa (39 - 9 * d) va % 2 ^ (39 - 9 * d) = 0 ∧
      slot d (nextVa (39 - 9 * d) va) = slot d va ∧
      entryIndex (nextVa (39 - 9 * d) va) (39 - 9 * d) = entryIndex va (39 - 9 * d) + 1 := by
  have hmod : (va / 2 ^ (39 - 9 * d) + 1) * 2 ^ (39 - 9 * d) % 2 ^ 64 < 2 ^ 64 :=
    Nat.mod_lt _ (by decide)
  have hcanon' := canonical_iff hmod
  rw [canonical_iff hva] at hcanon
  rw [entryIndex_eq] at hlast ⊢
  rw [entryIndex_eq]
  simp only [nextVa, slot]
  split
  · rename_i h
    have h' := hcanon'.mp h
    refine ⟨hmod, h, ?_⟩
    clear hcanon' h
    interval_cases d <;> omega
  · rename_i h
    have h' := mt hcanon'.mpr h
    refine ⟨by decide, by decide, ?_⟩
    rw [show VA_HIGHMIN = 2 ^ 64 - 2 ^ 47 from rfl]
    clear hcanon' h
    interval_cases d <;> omega

/-! ## One call of `down` -/

/-- An entry is a link. -/
theorem link_eq_some {e q : Nat} :
    link e = some q ↔ e &&& (PTE_P ||| PTE_PS) = PTE_P ∧ e &&& PTE_PAMASK = q := by
  rw [link]
  split <;> simp_all

theorem lbits_lt_done : (atEntry root d p va).lbits_ < VmIter.done_lbits :=
  show 39 - 9 * d < 64 by omega

/-- The pages on the path of `va`, down to depth `d`, are the same. -/
def KeepsPath (mem mem' : ByteMem) (root d va : Nat) : Prop :=
  ∀ e ≤ d, ∀ q, nodeAt (child mem) 512 root e (slot e va) = some q → SamePage mem mem' q

/-- A link at the level where `down` stops. -/
theorem downLoop_stop {rounds q : Nat} (hsame : SamePage mem mem' p)
    (hq : child mem p (entryIndex va (39 - 9 * d)) = some q) :
    downLoop mem' (rounds + 1) (39 - 9 * d) false (atEntry root d p va) =
    .ok (atEntry root d p va) := by
  have hentry := hsame.entry (entryIndex_lt va (39 - 9 * d))
  obtain ⟨hlink, -⟩ := link_eq_some.mp hq
  rw [← hentry] at hlink
  have hcond : false = false ∧
      mem'.read (atEntry root d p va).pep_ 8 &&& (PTE_P ||| PTE_PS) = PTE_P :=
    ⟨rfl, hlink⟩
  rw [downLoop, if_pos lbits_lt_done, if_pos hcond,
    if_pos (show (atEntry root d p va).lbits_ = 39 - 9 * d from rfl)]

/-- A link above that level. -/
theorem downLoop_descend {rounds stop q : Nat} (hsame : SamePage mem mem' p) (hd : d ≤ 2)
    (hstop : 39 - 9 * d ≠ stop) (hq : child mem p (entryIndex va (39 - 9 * d)) = some q) :
    downLoop mem' (rounds + 1) stop false (atEntry root d p va) =
      downLoop mem' rounds stop false (atEntry root (d + 1) q va) := by
  have hentry := hsame.entry (entryIndex_lt va (39 - 9 * d))
  obtain ⟨hlink, rfl⟩ := link_eq_some.mp hq
  rw [← hentry] at hlink ⊢
  have hcond : false = false ∧
      mem'.read (atEntry root d p va).pep_ 8 &&& (PTE_P ||| PTE_PS) = PTE_P :=
    ⟨rfl, hlink⟩
  rw [downLoop, if_pos lbits_lt_done, if_pos hcond,
    if_neg (show ¬ (atEntry root d p va).lbits_ = stop from hstop)]
  simp only [atEntry, PAGEINDEXBITS, show 39 - 9 * d - 9 = 39 - 9 * (d + 1) by omega]
  rfl

/-- The way back down to the entry of a page that has been left. -/
theorem downLoop_return {rounds e q p' : Nat} (hpath : KeepsPath mem mem' root d va) (hd : d ≤ 2)
    (he : e ≤ d) (hq : nodeAt (child mem) 512 root e (slot e va) = some q)
    (hp : nodeAt (child mem) 512 root d (slot d va) = some p)
    (hp' : child mem p (entryIndex va (39 - 9 * d)) = some p') (hrounds : d - e < rounds) :
    downLoop mem' rounds (39 - 9 * d) false (atEntry root e q va) = .ok (atEntry root d p va) := by
  induction rounds generalizing e q with
  | zero => omega
  | succ rounds ih =>
    obtain rfl | hlt := Nat.eq_or_lt_of_le he
    · obtain rfl : q = p := Option.some.inj (hq.symm.trans hp)
      exact downLoop_stop (hpath e (Nat.le_refl e) q hq) hp'
    · cases hr : child mem q (entryIndex va (39 - 9 * e)) with
      | none =>
        -- the page at `p` is below this entry
        have hnone := VmIter.nodeAt_slot_none (show d ≤ 3 by omega) hlt (by
          rw [nodeAt_succ_slot (show e ≤ 3 by omega), hq, Option.bind_some, hr])
        rw [hp] at hnone
        cases hnone
      | some r =>
        rw [downLoop_descend (hpath e he q hq) (by omega) (by omega) hr]
        refine ih hlt ?_ (by omega)
        rw [nodeAt_succ_slot (by omega), hq, Option.bind_some, hr]

/-- The entry is passed by: the next entry of the page, the end of the
walk, or the page itself. -/
theorem downLoop_pass {rounds : Nat} {skip : Bool} (hpath : KeepsPath mem mem' root d va)
    (hpos : Position mem root d p va)
    (hpass : skip = true ∨ child mem p (entryIndex va (39 - 9 * d)) = none) (hrounds : d < rounds) :
    (entryIndex va (39 - 9 * d) ≠ 511 ∧
      downLoop mem' (rounds + 1) 21 skip (atEntry root d p va) =
        downLoop mem' rounds 21 false (atEntry root d p (nextVa (39 - 9 * d) va))) ∨
    (entryIndex va (39 - 9 * d) = 511 ∧ ∃ it,
      downLoop mem' (rounds + 1) 21 skip (atEntry root d p va) = .ok it ∧
        Shows mem root it (remaining (child mem) 512 root 3 (d + 1) (slot (d + 1) va))) := by
  obtain ⟨hd, hnode, hva, hcanon⟩ := hpos
  have hentry : entry mem' p (entryIndex va (39 - 9 * d)) =
      entry mem p (entryIndex va (39 - 9 * d)) :=
    (hpath d (Nat.le_refl d) p hnode).entry (entryIndex_lt _ _)
  have hcond : ¬ (skip = false ∧
      mem'.read (atEntry root d p va).pep_ 8 &&& (PTE_P ||| PTE_PS) = PTE_P) := by
    rintro ⟨rfl, hlink⟩
    have hlink : entry mem' p (entryIndex va (39 - 9 * d)) &&& (PTE_P ||| PTE_PS) = PTE_P := hlink
    rw [hentry] at hlink
    have hsome : child mem p (entryIndex va (39 - 9 * d)) = some _ := link_eq_some.mpr ⟨hlink, rfl⟩
    rcases hpass with h | h
    · cases h
    · rw [h] at hsome
      cases hsome
  rw [downLoop, if_pos lbits_lt_done, if_neg hcond]
  simp only [show (atEntry root d p va).va_ = va from rfl,
    show (atEntry root d p va).lbits_ = 39 - 9 * d from rfl, or_lbitsMask, crosses_iff hd hva]
  by_cases hlast : entryIndex va (39 - 9 * d) = 511
  · refine .inr ⟨hlast, ?_⟩
    rw [if_pos hlast]
    have hdone : slot (d + 1) va % 512 + 1 = 512 := by
      rw [slot_succ_mod (by omega), hlast]
    rw [remaining_last hdone, slot_succ_div (by omega)]
    cases d with
    | zero =>
      rw [if_pos ⟨wraps hva hcanon hlast, rfl⟩]
      exact ⟨_, rfl, rfl⟩
    | succ d =>
      rw [if_neg fun h => absurd h.2 (by show ¬ 39 - 9 * (d + 1) = 39; omega), hnode]
      rw [nodeAt_succ_slot (by omega), Option.bind_eq_some_iff] at hnode
      obtain ⟨q, hq, hqp⟩ := hnode
      refine ⟨atEntry root d q va, ?_, d, q, va, rfl, ⟨by omega, hq, hva, hcanon⟩, hqp, rfl⟩
      rw [show 39 - 9 * (d + 1) + PAGEINDEXBITS = 39 - 9 * d by
        show 39 - 9 * (d + 1) + 9 = 39 - 9 * d
        omega]
      exact downLoop_return (q := root) (fun e he => hpath e (by omega)) (by omega) (Nat.zero_le d)
        (by rw [slot_zero, nodeAt_root]) hq hqp (by omega)
  · refine .inl ⟨hlast, ?_⟩
    rw [if_neg hlast]
    have hindex := (nextVa_spec hd hva hcanon hlast).2.2.2.2
    have hnext : atEntry root d p (nextVa (39 - 9 * d) va) =
        { atEntry root d p va with
          pep_ := (atEntry root d p va).pep_ + 8
          va_ := nextVa (39 - 9 * d) va } := by
      rw [atEntry, hindex]
      rfl
    rw [hnext]
    rfl

/-- The pages that a call of `down` has before it. -/
def ahead (mem : ByteMem) (root : Nat) (skip : Bool) (d p va : Nat) : List Nat :=
  (if skip = true then []
    else postorder (child mem) 512 (3 - (d + 1)) (child mem p (entryIndex va (39 - 9 * d)))) ++
  remaining (child mem) 512 root 3 (d + 1) (slot (d + 1) va)

/-- The root and the pages `l` are the same. -/
def Kept (mem mem' : ByteMem) (root : Nat) (l : List Nat) : Prop :=
  SamePage mem mem' root ∧ ∀ r ∈ l, SamePage mem mem' r

theorem Kept.refl (mem : ByteMem) (root : Nat) (l : List Nat) : Kept mem mem root l :=
  ⟨.refl mem root, fun r _ => .refl mem r⟩

theorem Kept.mono {l l' : List Nat} (h : Kept mem mem' root l) (hl : l' ⊆ l) :
    Kept mem mem' root l' := ⟨h.1, fun r hr => h.2 r (hl hr)⟩

/-- The pages on the path of an entry come after it. -/
theorem mem_remaining {e q : Nat} (hd : d ≤ 2) (he : e ≤ d) (he0 : e ≠ 0)
    (hq : nodeAt (child mem) 512 root e (slot e va) = some q) :
    q ∈ remaining (child mem) 512 root 3 (d + 1) (slot (d + 1) va) := by
  induction d with
  | zero => omega
  | succ d ih =>
    rw [remaining, slot_succ_div (by omega), if_neg (Nat.succ_ne_zero d)]
    obtain rfl | hlt := Nat.eq_or_lt_of_le he
    · rw [hq]
      exact List.mem_append_left _ (List.mem_append_right _ (List.mem_singleton.mpr rfl))
    · exact List.mem_append_right _ (ih (by omega) (by omega))

theorem Kept.path {l : List Nat} (h : Kept mem mem' root l) (hd : d ≤ 2)
    (hl : remaining (child mem) 512 root 3 (d + 1) (slot (d + 1) va) ⊆ l) :
    KeepsPath mem mem' root d va := by
  intro e he q hq
  by_cases he0 : e = 0
  · subst he0
    rw [slot_zero, nodeAt_root] at hq
    exact Option.some.inj hq ▸ h.1
  · exact h.2 q (hl (mem_remaining hd he he0 hq))

/-- **One call of `down`** goes to the first page it has before it. The
measure falls with every entry passed by and every level gone down. -/
theorem downLoop_spec {rounds : Nat} {skip : Bool}
    (hkept : Kept mem mem' root (ahead mem root skip d p va)) (hpos : Position mem root d p va)
    (haligned : skip = false → va % 2 ^ (39 - 9 * d) = 0)
    (hrounds : 516 * (2 - d) + (512 - entryIndex va (39 - 9 * d)) + 4 ≤ rounds) :
    ∃ it, downLoop mem' rounds 21 skip (atEntry root d p va) = .ok it ∧
      Shows mem root it (ahead mem root skip d p va) := by
  induction rounds generalizing d p va skip with
  | zero => omega
  | succ rounds ih =>
    have hd := hpos.depth
    have hlt := entryIndex_lt va (39 - 9 * d)
    have hpath := hkept.path hd (List.subset_append_right _ _)
    by_cases hpass : skip = true ∨ child mem p (entryIndex va (39 - 9 * d)) = none
    · -- no page hangs on this entry, or it has been visited
      have hahead : ahead mem root skip d p va =
          remaining (child mem) 512 root 3 (d + 1) (slot (d + 1) va) := by
        rcases hpass with rfl | hnone
        · rfl
        · rw [ahead, hnone, postorder, ite_self, List.nil_append]
      rw [hahead] at hkept ⊢
      obtain ⟨hlast, hloop⟩ | ⟨-, hloop⟩ :=
        downLoop_pass hpath hpos hpass (show d < rounds by omega)
      · obtain ⟨hva', hcanon', haligned', hslot, hindex⟩ :=
          nextVa_spec hd hpos.va_lt hpos.canonical hlast
        have hpos' : Position mem root d p (nextVa (39 - 9 * d) va) :=
          ⟨hd, by rw [hslot]; exact hpos.node, hva', hcanon'⟩
        have hnext : slot (d + 1) va + 1 = slot (d + 1) (nextVa (39 - 9 * d) va) := by
          rw [slot_succ (by omega), slot_succ (by omega), hslot, hindex, Nat.add_assoc]
        have hnode : nodeAt (child mem) 512 root (d + 1) (slot (d + 1) (nextVa (39 - 9 * d) va)) =
            child mem p (entryIndex (nextVa (39 - 9 * d) va) (39 - 9 * d)) := by
          rw [nodeAt_succ_slot (by omega), hpos'.node, Option.bind_some]
        rw [remaining_next (by rw [slot_succ_mod (by omega)]; omega), hnext, hnode] at hkept ⊢
        obtain ⟨it, hrest, hshows⟩ : ∃ it, downLoop mem' rounds 21 false
            (atEntry root d p (nextVa (39 - 9 * d) va)) = .ok it ∧
              Shows mem root it (ahead mem root false d p (nextVa (39 - 9 * d) va)) :=
          ih hkept hpos' (fun _ => haligned') (by omega)
        exact ⟨it, hloop.trans hrest, hshows⟩
      · exact hloop
    · obtain ⟨hskip, hlink⟩ := not_or.mp hpass
      obtain rfl : skip = false := by simpa using hskip
      obtain ⟨q, hq⟩ := Option.ne_none_iff_exists'.mp hlink
      rw [ahead, if_neg Bool.false_ne_true, hq] at hkept ⊢
      have hsame := hpath d (Nat.le_refl d) p hpos.node
      obtain rfl | hlt2 := Nat.eq_or_lt_of_le hd
      · -- a page of entries for mapped pages has none below it
        exact ⟨_, downLoop_stop hsame hq, 2, p, va, rfl, hpos, hq, rfl⟩
      · have hnode : nodeAt (child mem) 512 root (d + 1) (slot (d + 1) va) = some q := by
          rw [nodeAt_succ_slot (by omega), hpos.node, Option.bind_some, hq]
        have hmod : va % 2 ^ (39 - 9 * d) = 0 := haligned rfl
        obtain ⟨hzero, hmod'⟩ : entryIndex va (39 - 9 * (d + 1)) = 0 ∧
            va % 2 ^ (39 - 9 * (d + 1)) = 0 := by
          rw [entryIndex_eq]
          clear ih hrounds hpass hlink hnode
          interval_cases d <;> omega
        have hslot : slot (d + 2) va = 512 * slot (d + 1) va := by
          rw [slot_succ (show d + 1 ≤ 3 by omega), hzero, Nat.add_zero]
        have hnode' : nodeAt (child mem) 512 root (d + 2) (512 * slot (d + 1) va) =
            child mem q (entryIndex va (39 - 9 * (d + 1))) := by
          rw [← hslot, nodeAt_succ_slot (show d + 1 ≤ 3 by omega), hnode, Option.bind_some]
        rw [postorder_descend (by decide) (show d + 1 < 3 by omega) hnode, hnode', ← hslot]
          at hkept ⊢
        obtain ⟨it, hrest, hshows⟩ : ∃ it,
            downLoop mem' rounds 21 false (atEntry root (d + 1) q va) = .ok it ∧
              Shows mem root it (ahead mem root false (d + 1) q va) :=
          ih hkept ⟨by omega, hnode, hpos.va_lt, hpos.canonical⟩ (fun _ => hmod') (by omega)
        exact ⟨it, (downLoop_descend hsame hd (by omega) hq).trans hrest, hshows⟩

/-! ## The walk -/

/-- A new iterator has the whole postorder before it. -/
theorem new_spec (mem : ByteMem) (root : Nat) :
    ∃ it l, new mem root = .ok it ∧ l = belowRoot (child mem) 512 root 3 ∧ Shows mem root it l := by
  have hpos : Position mem root 0 root 0 := ⟨by decide, nodeAt_root, by decide, by decide⟩
  obtain ⟨it, hnew, hshows⟩ : ∃ it, downLoop mem 2048 21 false (atEntry root 0 root 0) = .ok it ∧
      Shows mem root it (ahead mem root false 0 root 0) :=
    downLoop_spec (.refl _ _ _) hpos (fun _ => by decide) (by
      have := entryIndex_lt 0 (39 - 9 * 0)
      omega)
  refine ⟨it, _, hnew, rfl, ?_⟩
  have hchild : nodeAt (child mem) 512 root 1 0 = child mem root 0 := by
    rw [nodeAt, Nat.zero_div, nodeAt_root, Option.bind_some]
  rw [belowRoot_eq (by decide), hchild]
  exact hshows

/-- An iterator shows the page it is at, and `next` goes to the rest. -/
theorem next_spec {it : PtIter} {r : Nat} {rest : List Nat} (h : Shows mem root it (r :: rest)) :
    ¬ it.done = true ∧ (∀ mem', Kept mem mem' root rest → it.kptr mem' = r) ∧
      ∀ mem', Kept mem mem' root rest →
        ∃ it', next mem' it = .ok it' ∧ Shows mem root it' rest := by
  obtain ⟨d, p, va, rfl, hpos, hr, rfl⟩ := h
  have hlt := entryIndex_lt va (39 - 9 * d)
  refine ⟨?_, fun mem' hkept => ?_, ?_⟩
  · rw [done, decide_eq_true_eq]
    exact Nat.ne_of_lt lbits_lt_done
  · have hpath := hkept.path hpos.depth (List.Subset.refl _)
    rw [← (link_eq_some.mp hr).2, ← (hpath d (Nat.le_refl d) p hpos.node).entry (entryIndex_lt _ _)]
    rfl
  · intro mem' hkept
    show ∃ it', downLoop mem' 2048 21 true (atEntry root d p va) = .ok it' ∧
      Shows mem root it' (ahead mem root true d p va)
    exact downLoop_spec hkept hpos (fun h => by cases h) (by omega)

end

end PtIter

end SystemsProjects.WeensyOS
