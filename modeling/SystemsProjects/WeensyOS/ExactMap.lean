/-
SystemsProjects.WeensyOS.ExactMap — `try_map` as an update of the map from
virtual to physical addresses.

What a table maps an address to is what a new iterator shows there
(`look`). `try_map` is taken here over any source of fresh pages, of which
`kalloc` is one. Each of its rounds links an empty page, which changes
what no address is mapped to (`LinkStep.look_eq`); its last store changes
one page (`WriteStep.look_page`, `WriteStep.look_other`).
-/
import SystemsProjects.WeensyOS.Mapping
import SystemsProjects.WeensyOS.TableIteration
import SystemsProjects.WeensyOS.IteratorMoves

namespace SystemsProjects.WeensyOS

open SystemsProjects.Base
open SystemsProjects.Base.RadixTree
open VmIter

/-! ## What an address is mapped to -/

/-- `pa()` and `perm()` of a new `vmiter`. -/
def look (mem : ByteMem) (pt va : Nat) : Except Fault (Nat × Nat) := do
  let it ← VmIter.new mem pt va
  return (it.pa mem, it.perm mem)

/-- Nothing is mapped. -/
abbrev unmapped : Nat × Nat := (2 ^ 64 - 1, 0)

section

variable {mem mem' : ByteMem} {root d x p i q e a va : Nat}

theorem look_of_not_canonical (mem : ByteMem) (root : Nat) (h : ¬ vaIsCanonical a = true) :
    look mem root a = .ok unmapped := by
  rw [look, new_of_not_canonical mem root h, ok_bind]
  simp only [pa, perm, pe, Nat.zero_and]
  rfl

/-- `down` from any page-table page on the path. -/
theorem down_of_stops {d' p' : Nat} (hfull : FullLinks mem root) (hd : d ≤ 3)
    (hp : nodeAt (child mem) 512 root d (slot d a) = some p) (hstop : Stops mem root a d' p') :
    down mem (iterAt root a d p) =
      if Panics d' (entry mem p' (entryIndex a (39 - 9 * d'))) then .error .panic
      else .ok (iterAt root a d' p') := by
  obtain ⟨d'', p'', m, hstop', hdown, hperm⟩ := down_stops initial_perm hd hp
  obtain ⟨rfl, rfl⟩ := hstop'.unique hstop
  rw [hperm hfull rfl] at hdown
  exact hdown

theorem new_of_stops (hfull : FullLinks mem root) (hcanon : vaIsCanonical a = true)
    (hstop : Stops mem root a d p) :
    VmIter.new mem root a =
      if Panics d (entry mem p (entryIndex a (39 - 9 * d))) then .error .panic
      else .ok (iterAt root a d p) := by
  have hroot : nodeAt (child mem) 512 root 0 (slot 0 a) = some root := by
    rw [slot_zero, nodeAt_root]
  rw [new_of_canonical mem root hcanon, show start root a = iterAt root a 0 root from rfl]
  exact down_of_stops hfull (Nat.zero_le 3) hroot hstop

/-- What the entry `e` at depth `d` shows at `a`. -/
def shown (d e a : Nat) : Nat × Nat :=
  if e &&& PTE_P ≠ 0 then
    ((if d < 3 then e &&& PTE_PAMASK &&& (2 ^ 64 - 1 - 0x1000) else e &&& PTE_PAMASK) +
      (a &&& lbitsMask (39 - 9 * d)), e &&& 0xFFF)
  else unmapped

theorem look_of_stops (hfull : FullLinks mem root) (hcanon : vaIsCanonical a = true)
    (hstop : Stops mem root a d p) :
    look mem root a =
      if Panics d (entry mem p (entryIndex a (39 - 9 * d))) then .error .panic
      else .ok (shown d (entry mem p (entryIndex a (39 - 9 * d))) a) := by
  have hd := hstop.depth
  rw [look, new_of_stops hfull hcanon hstop]
  split
  · rfl
  · have hperm : (iterAt root a d p).perm mem = _ := perm_eq rfl
    have hlbits : (iterAt root a d p).lbits_ > PAGEOFFBITS ↔ d < 3 := by
      show 39 - 9 * d > 12 ↔ d < 3
      omega
    show Except.ok ((iterAt root a d p).pa mem, (iterAt root a d p).perm mem) = _
    rw [hperm, pa, pe_iterAt, shown, entryPerm]
    simp only [hlbits]
    split
    · rfl
    · rfl

/-- The pages on the path of an address, of whatever entries. -/
theorem exists_stops (mem : ByteMem) (root a : Nat) : ∃ d p, Stops mem root a d p := by
  have hroot : nodeAt (child mem) 512 root 0 (slot 0 a) = some root := by
    rw [slot_zero, nodeAt_root]
  obtain ⟨d, p, -, hstop, -⟩ := down_stops initial_perm (Nat.zero_le 3) hroot
  exact ⟨d, p, hstop⟩

/-- Addresses in one page have one path. -/
theorem slot_eq_iff (ha : a < 2 ^ 64) (hva : va < 2 ^ 64) (hcanon : vaIsCanonical va = true)
    (hcanon' : vaIsCanonical a = true) : slot 4 a = slot 4 va ↔ a / 4096 = va / 4096 := by
  rw [canonical_iff hva] at hcanon
  rw [canonical_iff ha] at hcanon'
  simp only [slot]
  omega

/-- The last two digits of a path. -/
theorem slot_digits {y j : Nat} (hj : j < 512) (h : slot 4 a = 512 * y + j) :
    slot 3 a = y ∧ entryIndex a 12 = j := by
  have hlt := entryIndex_lt a 12
  have hsucc : slot 4 a = 512 * slot 3 a + entryIndex a 12 := slot_succ (Nat.le_refl 3) a
  omega

/-- **Linking an empty page** changes what no address is mapped to. -/
theorem LinkStep.look_eq (h : LinkStep mem mem' root d x p i q)
    (hdist : Distinct (child mem) 512 root 3) (hfull : FullLinks mem root)
    (hplain : NoLarge mem root) (hcalm : ¬ Panics d (entry mem p i)) (a : Nat) :
    look mem' root a = look mem root a := by
  by_cases hcanon : vaIsCanonical a = true
  · obtain ⟨e, r, hstop⟩ := exists_stops mem root a
    have hfull' := h.fullLinks hdist hfull
    have hlt := entryIndex_lt a (39 - 9 * e)
    have hnode' := h.nodeAt_grows hdist hstop.depth hstop.node
    have htable : IsTable mem root r := ⟨e, hstop.depth, _, hstop.node⟩
    rw [look_of_stops hfull hcanon hstop]
    by_cases hat : r ≠ p ∨ entryIndex a (39 - 9 * e) ≠ i
    · -- the walk ends where it ended
      have hentry := h.others r htable _ hlt hat
      have hstop' : Stops mem' root a e r :=
        ⟨hstop.depth, hnode', fun he => by rw [child, hentry]; exact hstop.last he⟩
      rw [look_of_stops hfull' hcanon hstop', hentry]
    · -- it goes on into the new page, and finds nothing there
      obtain ⟨hrp, hindex⟩ := not_or.mp hat
      obtain rfl := not_not.mp hrp
      have hindex := not_not.mp hindex
      obtain ⟨rfl, -⟩ := hdist e hstop.depth d (Nat.le_of_lt h.depth) _ _ r hstop.node h.node
      have hdepth := h.depth
      have hnew : nodeAt (child mem') 512 root (e + 1) (slot (e + 1) a) = some q := by
        rw [nodeAt_succ_slot hstop.depth, hnode', Option.bind_some, hindex]
        exact h.link.linked
      have hzero : ∀ lbits, entry mem' q (entryIndex a lbits) = 0 := fun lbits =>
        h.empty _ (entryIndex_lt a lbits)
      have hstop' : Stops mem' root a (e + 1) q :=
        ⟨by omega, hnew, fun _ => by rw [child, hzero, link_zero]⟩
      have habsent := hplain e hdepth _ r hstop.node _ h.index h.absent
      rw [look_of_stops hfull' hcanon hstop', hzero, hindex, if_neg hcalm,
        if_neg (not_panics (by decide) _), shown, shown, if_neg (not_not_intro habsent),
        if_neg (by decide)]
  · rw [look_of_not_canonical _ _ hcanon, look_of_not_canonical _ _ hcanon]

/-- **Writing the entry** of a page: its addresses show the entry. -/
theorem WriteStep.look_page (h : WriteStep mem mem' root x p i e)
    (hdist : Distinct (child mem) 512 root 3) (hfull : FullLinks mem root)
    (hcanon : vaIsCanonical a = true) (ha : slot 4 a = 512 * x + i) :
    look mem' root a = if Panics 3 e then .error .panic else .ok (shown 3 e a) := by
  obtain ⟨hslot, hindex⟩ := slot_digits h.index ha
  have hstop' : Stops mem' root a 3 p := by
    refine ⟨Nat.le_refl 3, ?_, fun hlt => absurd hlt (by decide)⟩
    rw [hslot, h.nodeAt_eq hdist (Nat.le_refl 3)]
    exact h.node
  have hentry : entry mem' p (entryIndex a (39 - 9 * 3)) = e := by
    rw [show 39 - 9 * 3 = 12 from rfl, hindex]
    exact h.written
  rw [look_of_stops (h.fullLinks hdist hfull) hcanon hstop', hentry]

/-- The other addresses show what they showed. -/
theorem WriteStep.look_other (h : WriteStep mem mem' root x p i e)
    (hdist : Distinct (child mem) 512 root 3) (hfull : FullLinks mem root)
    (hne : slot 4 a ≠ 512 * x + i) : look mem' root a = look mem root a := by
  by_cases hcanon : vaIsCanonical a = true
  · obtain ⟨f, r, hstop⟩ := exists_stops mem root a
    have hlt := entryIndex_lt a (39 - 9 * f)
    have hentry : entry mem' r (entryIndex a (39 - 9 * f)) =
        entry mem r (entryIndex a (39 - 9 * f)) := by
      refine h.others r ⟨f, hstop.depth, _, hstop.node⟩ _ hlt (not_and_or.mp ?_)
      rintro ⟨rfl, hindex⟩
      obtain ⟨rfl, hslot⟩ := hdist f hstop.depth 3 (Nat.le_refl 3) _ _ r hstop.node h.node
      exact hne (by rw [slot_succ (Nat.le_refl 3), hslot, hindex])
    have hstop' : Stops mem' root a f r := by
      refine ⟨hstop.depth, ?_, fun hf => by rw [child, hentry]; exact hstop.last hf⟩
      rw [h.nodeAt_eq hdist hstop.depth]
      exact hstop.node
    rw [look_of_stops (h.fullLinks hdist hfull) hcanon hstop', look_of_stops hfull hcanon hstop,
      hentry]
  · rw [look_of_not_canonical _ _ hcanon, look_of_not_canonical _ _ hcanon]

end

/-! ## Sources of pages -/

/-- A page allocator: it hands out one of its free pages, whose bytes it
may change, or none. -/
structure PageSource where
  alloc : Kernel → Option Nat × Kernel
  free : Kernel → Set Nat
  page : ∀ k, ∀ q ∈ free k, q % 4096 = 0 ∧ q < 2 ^ 32
  /-- The allocator's own state is not in the memory it hands out. -/
  free_mem : ∀ k mem, free { k with mem := mem } = free k
  none_spec : ∀ {k k'}, alloc k = (none, k') → free k' = free k ∧ k'.mem = k.mem
  some_spec : ∀ {k q k'}, alloc k = (some q, k') → q ∈ free k ∧ free k' = free k \ {q} ∧
    ∀ p, p % 4096 = 0 → p ≠ q → SamePage k.mem k'.mem p

/-- `kalloc`. -/
def kallocSource (L : Layout) : PageSource where
  alloc := kalloc L PAGESIZE
  free := fun k => { q | Free L k q }
  page := fun k q hq => by
    have hb := hq.1.bounds
    exact ⟨hq.1.aligned, by omega⟩
  free_mem := fun _ _ => rfl
  none_spec := by
    intro k k' h
    rcases kalloc_cases L k with ⟨hk, -⟩ | ⟨q, -, -, hk⟩
    · rw [hk] at h
      cases h
      exact ⟨rfl, rfl⟩
    · rw [hk] at h
      cases h
  some_spec := by
    intro k q k' h
    rcases kalloc_cases L k with ⟨hk, -⟩ | ⟨q', hq, -, hk⟩
    · rw [hk] at h
      cases h
    · rw [hk] at h
      cases h
      refine ⟨hq, Set.ext fun p => ?_, fun p hp hne => samePage_fill hp hq.1.aligned hne⟩
      constructor
      · intro hp
        have hrefs := refs_take (k := k) hp.1.aligned hq.1.aligned
        rw [hp.2] at hrefs
        split at hrefs
        · cases hrefs
        · rename_i hne
          exact ⟨⟨hp.1, hrefs.symm⟩, hne⟩
      · rintro ⟨hp, hne⟩
        have hne : p ≠ q := hne
        exact ⟨hp.1, by rw [refs_take hp.1.aligned hq.1.aligned, if_neg hne, hp.2]⟩

namespace VmIter

/-- `tryMapLoop`, with `alloc` for `kalloc`. -/
def tryMapLoopWith (alloc : Kernel → Option Nat × Kernel) (perm : Nat) :
    Nat → VmIter → Kernel → Except Fault (Int × VmIter × Kernel)
  | 0, _, _ => .error .diverged
  | rounds + 1, it, k =>
    if it.lbits_ > PAGEOFFBITS ∧ perm ≠ 0 then do
      assert (it.pe k.mem &&& PTE_P = 0)
      match alloc k with
      | (none, k) => .ok (-1, it, k)
      | (some pt, k) =>
        let k := k.memset pt 0 PAGESIZE
        let k ← it.setPe (pt ||| PTE_P ||| PTE_W ||| PTE_U) k
        let it ← it.down k.mem
        tryMapLoopWith alloc perm rounds it k
    else .ok (0, it, k)

/-- `tryMap`, with `alloc` for `kalloc`. -/
def tryMapWith (alloc : Kernel → Option Nat × Kernel) (pa perm : Nat) (it : VmIter) (k : Kernel) :
    Except Fault (Int × VmIter × Kernel) := do
  let pa := if pa = 2 ^ 64 - 1 ∧ perm = 0 then 0 else pa
  assert (it.va_ % PAGESIZE = 0)
  if perm &&& PTE_P ≠ 0 then
    assert (pa ≠ 2 ^ 64 - 1)
    assert (pa &&& PTE_PAMASK = pa)
  else
    assert (pa &&& PTE_P = 0)
  assert (perm &&& (2 ^ 64 - 1 - it.perm_) &&& (PTE_P ||| PTE_W ||| PTE_U) = 0)
  let (r, it, k) ← tryMapLoopWith alloc perm it.lbits_ it k
  if r < 0 then
    return (r, it, k)
  if it.lbits_ = PAGEOFFBITS then
    let k ← it.setPe (pa ||| perm) k
    return (0, it, k)
  return (0, it, k)

theorem tryMapLoop_eq (L : Layout) (perm rounds : Nat) (it : VmIter) (k : Kernel) :
    tryMapLoop L perm rounds it k = tryMapLoopWith (kallocSource L).alloc perm rounds it k := by
  induction rounds generalizing it k with
  | zero => rfl
  | succ rounds ih =>
    rw [tryMapLoop, tryMapLoopWith]
    simp only [ih]
    rfl

/-- `try_map` is the one over `kalloc`. -/
theorem tryMap_eq (L : Layout) (pa perm : Nat) (it : VmIter) (k : Kernel) :
    tryMap L pa perm it k = tryMapWith (kallocSource L).alloc pa perm it k := by
  simp only [tryMap, tryMapWith, tryMapLoop_eq]

end VmIter

/-! ## Well-formed tables -/

/-- A page table as the kernel builds them: distinct page-table pages
below 4 GB, links with all permissions, no large pages. -/
structure WellFormed (mem : ByteMem) (root : Nat) : Prop where
  distinct : Distinct (child mem) 512 root 3
  aligned : root % 4096 = 0
  low : ∀ p, IsTable mem root p → p < 2 ^ 32
  fullLinks : FullLinks mem root
  noLarge : NoLarge mem root

/-- Free pages have become page-table pages of a well-formed table, which
maps what it mapped. -/
structure Extended (S : PageSource) (k k' : Kernel) (root : Nat) : Prop where
  wellFormed : WellFormed k'.mem root
  look_eq : ∀ a, look k'.mem root a = look k.mem root a
  tables : ∀ p, IsTable k.mem root p → IsTable k'.mem root p
  free : ∀ q ∈ S.free k', q ∈ S.free k ∧ ¬ IsTable k'.mem root q
  taken : ∀ q ∈ S.free k, q ∉ S.free k' → IsTable k'.mem root q

section

variable {S : PageSource} {k k' k'' : Kernel} {root va d p : Nat}

theorem Extended.refl (S : PageSource) (hwf : WellFormed k.mem root)
    (hfree : ∀ q ∈ S.free k, ¬ IsTable k.mem root q) : Extended S k k root :=
  ⟨hwf, fun _ => rfl, fun _ h => h, fun q hq => ⟨hq, hfree q hq⟩, fun _ h h' => absurd h h'⟩

theorem Extended.trans (h : Extended S k k' root) (h' : Extended S k' k'' root) :
    Extended S k k'' root where
  wellFormed := h'.wellFormed
  look_eq := fun a => (h'.look_eq a).trans (h.look_eq a)
  tables := fun p hp => h'.tables p (h.tables p hp)
  free := fun q hq => ⟨(h.free q (h'.free q hq).1).1, (h'.free q hq).2⟩
  taken := by
    intro q hq hq'
    by_cases hmid : q ∈ S.free k'
    · exact h'.taken q hmid hq'
    · exact h'.tables q (h.taken q hq hmid)

/-- The page at `q` cleared, and linked as entry `i` of `p`. -/
def Kernel.storeLink (k : Kernel) (p i q : Nat) : Kernel :=
  { k.memset q 0 4096 with
    mem := (k.mem.fill q 4096 0).write (entryAddr p i) 8 (q ||| PTE_P ||| PTE_W ||| PTE_U) }

namespace VmIter

/-- One round of the loop of `try_map`: the page `q` is linked. -/
theorem extended_storeLink {q : Nat} (hwf : WellFormed k.mem root)
    (hfree : ∀ q ∈ S.free k, ¬ IsTable k.mem root q) (hstop : Stops k.mem root va d p) (hd : d < 3)
    (hcalm : ¬ Panics d (entry k.mem p (entryIndex va (39 - 9 * d))))
    (halloc : S.alloc k = (some q, k')) :
    Extended S k (k'.storeLink p (entryIndex va (39 - 9 * d)) q) root ∧
      nodeAt (child (k'.storeLink p (entryIndex va (39 - 9 * d)) q).mem) 512 root d (slot d va) =
        some p ∧
      Stops (k'.storeLink p (entryIndex va (39 - 9 * d)) q).mem root va (d + 1) q ∧
      ∀ j < 512, entry (k'.storeLink p (entryIndex va (39 - 9 * d)) q).mem q j = 0 := by
  obtain ⟨hq, hfree', hsame⟩ := S.some_spec halloc
  obtain ⟨hqal, hqlow⟩ := S.page k q hq
  have hstep : LinkStep k.mem (k'.storeLink p (entryIndex va (39 - 9 * d)) q).mem root d (slot d va)
      p (entryIndex va (39 - 9 * d)) q :=
    linkStep_store hwf.aligned hstop.node hd (entryIndex_lt va _) (hstop.last hd) hqal hqlow
      (hfree q hq) hsame
  have hmem : S.free (k'.storeLink p (entryIndex va (39 - 9 * d)) q) = S.free k \ {q} :=
    (S.free_mem k' _).trans hfree'
  have htables := hstep.isTable_iff hwf.distinct
  refine ⟨⟨⟨hstep.distinct hwf.distinct, hwf.aligned, fun r hr => ?_,
    hstep.fullLinks hwf.distinct hwf.fullLinks, hstep.noLarge hwf.distinct hwf.noLarge⟩,
    hstep.look_eq hwf.distinct hwf.fullLinks hwf.noLarge hcalm, fun r hr =>
    (htables r).mpr (.inl hr),
    fun r hr => ?_, fun r hr hr' => ?_⟩, hstep.nodeAt_grows hwf.distinct hstop.depth hstop.node,
    ⟨hd, ?_, fun _ => ?_⟩, hstep.empty⟩
  · rcases (htables r).mp hr with hr | rfl
    · exact hwf.low r hr
    · exact hqlow
  · rw [hmem] at hr
    exact ⟨hr.1, fun htable => ((htables r).mp htable).elim (hfree r hr.1) hr.2⟩
  · rw [hmem] at hr'
    refine (htables r).mpr (.inr ?_)
    by_contra hne
    exact hr' ⟨hr, hne⟩
  · rw [nodeAt_succ_slot hstop.depth, hstep.nodeAt_grows hwf.distinct hstop.depth hstop.node,
      Option.bind_some, hstep.link.linked]
  · rw [child, hstep.empty _ (entryIndex_lt _ _), link_zero]

/-- **The loop of `try_map`** extends the table, down to the page for the
entry of `va` unless the source runs dry. -/
theorem tryMapLoopWith_spec {perm rounds : Nat} (hperm : perm ≠ 0) (hwf : WellFormed k.mem root)
    (hfree : ∀ q ∈ S.free k, ¬ IsTable k.mem root q) (hstop : Stops k.mem root va d p)
    (hcalm : ¬ Panics d (entry k.mem p (entryIndex va (39 - 9 * d)))) (hrounds : 3 - d < rounds) :
    ∃ r it k', tryMapLoopWith S.alloc perm rounds (iterAt root va d p) k = .ok (r, it, k') ∧
      Extended S k k' root ∧
      (r = 0 ∧ (∃ p', Stops k'.mem root va 3 p' ∧ it = iterAt root va 3 p') ∨ r = -1) := by
  induction rounds generalizing k d p with
  | zero => omega
  | succ rounds ih =>
    have hdepth := hstop.depth
    rw [tryMapLoopWith]
    by_cases hd : d < 3
    · have habsent : (iterAt root va d p).pe k.mem &&& PTE_P = 0 :=
        hwf.noLarge d hd _ p hstop.node _ (entryIndex_lt va _) (hstop.last hd)
      rw [if_pos ⟨show 39 - 9 * d > 12 by omega, hperm⟩, assert, if_pos habsent]
      cases halloc : S.alloc k with
      | mk out k₁ =>
        cases out with
        | none =>
          obtain ⟨hfree', hmem⟩ := S.none_spec halloc
          refine ⟨-1, _, k₁, rfl, ⟨by rw [hmem]; exact hwf, fun a => by rw [hmem], ?_, ?_, ?_⟩,
            .inr rfl⟩
          · exact fun r hr => by rw [hmem]; exact hr
          · intro q hq
            rw [hfree'] at hq
            exact ⟨hq, by rw [hmem]; exact hfree q hq⟩
          · intro q hq hq'
            rw [hfree'] at hq'
            exact absurd hq hq'
        | some q =>
          obtain ⟨hext, hnode', hstop', hempty⟩ :=
            extended_storeLink hwf hfree hstop hd hcalm halloc
          have hcalm' : ¬ Panics (d + 1)
            (entry (k₁.storeLink p (entryIndex va (39 - 9 * d)) q).mem q
              (entryIndex va (39 - 9 * (d + 1)))) := by
            rw [hempty _ (entryIndex_lt _ _)]
            exact not_panics (by decide) (d + 1)
          have hdown : down (k₁.storeLink p (entryIndex va (39 - 9 * d)) q).mem
            (iterAt root va d p) =
              .ok (iterAt root va (d + 1) q) := by
            rw [down_of_stops hext.wellFormed.fullLinks hdepth hnode' hstop']
            exact if_neg hcalm'
          obtain ⟨r, it, k', hloop, hext', hend⟩ := ih hext.wellFormed
            (fun r hr => (hext.free r hr).2) hstop' hcalm' (by omega)
          refine ⟨r, it, k', ?_, hext.trans hext', hend⟩
          show (down (k₁.storeLink p (entryIndex va (39 - 9 * d)) q).mem
            (iterAt root va d p) >>= _) = _
          rw [hdown]
          exact hloop
    · obtain rfl : d = 3 := by omega
      rw [if_neg fun h => absurd h.1 (show ¬ 39 - 9 * 3 > 12 by decide)]
      exact ⟨0, _, k, rfl, .refl S hwf hfree, .inl ⟨rfl, p, hstop, rfl⟩⟩

/-- The assertions of `try_map` hold of these arguments. -/
theorem tryMapWith_eq {pa perm : Nat} (hva : va % 4096 = 0) (hpa : pa &&& PTE_PAMASK = pa)
    (hpresent : perm &&& PTE_P ≠ 0) :
    tryMapWith S.alloc pa perm (iterAt root va d p) k =
      (tryMapLoopWith S.alloc perm (iterAt root va d p).lbits_ (iterAt root va d p) k >>= fun out =>
        if out.1 < 0 then .ok out
        else if out.2.1.lbits_ = PAGEOFFBITS then
          out.2.1.setPe (pa ||| perm) out.2.2 >>= fun k => .ok (0, out.2.1, k)
        else .ok (0, out.2)) := by
  have hle : pa ≤ PTE_PAMASK := by
    rw [← hpa]
    exact Nat.and_le_right
  have hpa' : pa ≠ 2 ^ 64 - 1 := by
    have : PTE_PAMASK = 0xFFFFFFFFFF000 := rfl
    omega
  have hperms : perm &&& (2 ^ 64 - 1 - (iterAt root va d p).perm_) &&&
      (PTE_P ||| PTE_W ||| PTE_U) = 0 := by
    show perm &&& (2 ^ 64 - 1 - 0xFFF) &&& 7 = 0
    rw [Nat.and_assoc]
    exact Nat.and_zero perm
  rw [tryMapWith]
  simp only [if_neg fun h : pa = 2 ^ 64 - 1 ∧ perm = 0 => hpa' h.1, assert]
  rw [if_pos (show (iterAt root va d p).va_ % PAGESIZE = 0 from hva), if_pos hpresent, if_pos hpa',
    if_pos hpa, if_pos hperms]
  rfl

/-- **`try_map`** returns 0 and has written the entry of `va` under an
extended table, or it returns -1 and has extended the table only. -/
theorem tryMapWith_spec {pa perm : Nat} {it : VmIter} (hwf : WellFormed k.mem root)
    (hfree : ∀ q ∈ S.free k, ¬ IsTable k.mem root q) (hcanon : vaIsCanonical va = true)
    (hva : va % 4096 = 0) (hit : VmIter.new k.mem root va = .ok it)
    (hpa : pa &&& PTE_PAMASK = pa) (hperm : perm < 2 ^ 64) (hpresent : perm &&& PTE_P ≠ 0) :
    ∃ k₁, Extended S k k₁ root ∧
      ((∃ it', tryMapWith S.alloc pa perm it k = .ok (-1, it', k₁)) ∨
        ∃ it' k' p, tryMapWith S.alloc pa perm it k = .ok (0, it', k') ∧ S.free k' = S.free k₁ ∧
          WriteStep k₁.mem k'.mem root (slot 3 va) p (entryIndex va 12) (pa ||| perm)) := by
  obtain ⟨d, p, hstop⟩ := exists_stops k.mem root va
  have hdepth := hstop.depth
  rw [new_of_stops hwf.fullLinks hcanon hstop] at hit
  split at hit
  · cases hit
  · rename_i hcalm
    obtain rfl := Except.ok.inj hit
    have hperm0 : perm ≠ 0 := by
      rintro rfl
      exact hpresent (Nat.zero_and _)
    have hrounds : 3 - d < (iterAt root va d p).lbits_ := show 3 - d < 39 - 9 * d by omega
    obtain ⟨r, it, k₁, hloop, hext, hend⟩ :=
      tryMapLoopWith_spec hperm0 hwf hfree hstop hcalm hrounds
    refine ⟨k₁, hext, ?_⟩
    rw [tryMapWith_eq hva hpa hpresent, hloop]
    rcases hend with ⟨rfl, p', hstop', rfl⟩ | rfl
    · have hpalt : pa < 2 ^ 64 := by
        rw [← hpa]
        exact Nat.lt_of_le_of_lt Nat.and_le_right (by decide)
      have hlt : pa ||| perm < 2 ^ 64 := Nat.or_lt_two_pow hpalt hperm
      exact .inr ⟨_, _, p', rfl, S.free_mem k₁ _,
        writeStep_store hext.wellFormed.aligned hstop'.node (entryIndex_lt va 12) hlt⟩
    · exact .inl ⟨it, rfl⟩

end VmIter

theorem WellFormed.write {mem mem' : ByteMem} {x i e : Nat} (hwf : WellFormed mem root)
    (h : WriteStep mem mem' root x p i e) : WellFormed mem' root where
  distinct := h.distinct hwf.distinct
  aligned := hwf.aligned
  low := fun r hr => hwf.low r ((h.isTable_iff hwf.distinct r).mp hr)
  fullLinks := h.fullLinks hwf.distinct hwf.fullLinks
  noLarge := h.noLarge hwf.distinct hwf.noLarge

/-- The map from addresses is that of `mem`, but for the page of `va`,
which is mapped to `pa`. -/
structure Remaps (mem mem' : ByteMem) (root va pa perm : Nat) : Prop where
  page : ∀ a < 2 ^ 64, a / PAGESIZE = va / PAGESIZE →
    look mem' root a = .ok (pa + a % PAGESIZE, perm &&& 0xFFF)
  other : ∀ a < 2 ^ 64, a / PAGESIZE ≠ va / PAGESIZE → look mem' root a = look mem root a

/-- The pages taken from the source are visited by a walk over the page
table. -/
def Reclaimable (S : PageSource) (k k' : Kernel) (root : Nat) : Prop :=
  ∃ pages, (∀ body, Confined body → ∃ mem', forTables body root k'.mem = .ok (pages, mem')) ∧
    ∀ q ∈ S.free k, q ∉ S.free k' → q ∈ pages

theorem Extended.reclaimable (h : Extended S k k' root)
    (hfree : ∀ q ∈ S.free k, ¬ IsTable k.mem root q) : Reclaimable S k k' root := by
  obtain ⟨pages, -, hmem, -, hloop⟩ := forTables_spec h.wellFormed.distinct h.wellFormed.aligned
  refine ⟨pages, hloop, fun q hq hq' => (hmem q).mpr ⟨h.taken q hq hq', ?_⟩⟩
  rintro rfl
  exact hfree q hq isNode_root

/-- **`try_map` is an exact update.** Over any source of fresh pages, for a
page below 4 GB and permissions that leave its address alone: if it returns
0, the page of `va` is mapped as asked and no other; if it returns an error,
nothing is mapped differently, and a walk over the table finds the pages it
took. -/
theorem tryMap_exact {pa perm : Nat} {it : VmIter} (hwf : WellFormed k.mem root)
    (hfree : ∀ q ∈ S.free k, ¬ IsTable k.mem root q) (hva64 : va < 2 ^ 64)
    (hcanon : vaIsCanonical va = true) (hva : va % PAGESIZE = 0)
    (hit : VmIter.new k.mem root va = .ok it) (hpa : pa % PAGESIZE = 0) (hlow : pa < 2 ^ 32)
    (hbits : (pa ||| perm) &&& PTE_PAMASK = pa) (hperm : perm < 2 ^ 64)
    (hpresent : perm &&& PTE_P ≠ 0) :
    ∃ r it' k', tryMapWith S.alloc pa perm it k = .ok (r, it', k') ∧ WellFormed k'.mem root ∧
      (r = 0 ∧ Remaps k.mem k'.mem root va pa perm ∨
        r < 0 ∧ (∀ a, look k'.mem root a = look k.mem root a) ∧ Reclaimable S k k' root) := by
  have hmask : pa &&& PTE_PAMASK = pa := pamask_of_page hpa (by omega)
  obtain ⟨k₁, hext, ⟨it', hrun⟩ | ⟨it', k', p', hrun, -, hwrite⟩⟩ :=
    tryMapWith_spec hwf hfree hcanon hva hit hmask hperm hpresent
  · exact ⟨-1, it', k₁, hrun, hext.wellFormed,
      .inr ⟨by decide, hext.look_eq, hext.reclaimable hfree⟩⟩
  · have hwf' := hext.wellFormed
    have hslot : 512 * slot 3 va + entryIndex va 12 = slot 4 va :=
      (slot_succ (Nat.le_refl 3) va).symm
    have hpage : ∀ a, a < 2 ^ 64 → (a / PAGESIZE = va / PAGESIZE ↔
        vaIsCanonical a = true ∧ slot 4 a = slot 4 va) := by
      intro a ha
      constructor
      · intro heq
        have heq : a / 2 ^ 12 = va / 2 ^ 12 := heq
        have hcanon' : vaIsCanonical a = true := by
          rw [vaIsCanonical_iff hva64] at hcanon
          rw [vaIsCanonical_iff ha, div_pow_congr heq (by decide)]
          exact hcanon
        exact ⟨hcanon', (slot_eq_iff ha hva64 hcanon hcanon').mpr heq⟩
      · rintro ⟨hcanon', heq⟩
        exact (slot_eq_iff ha hva64 hcanon hcanon').mp heq
    refine ⟨0, it', k', hrun, hwf'.write hwrite, .inl ⟨rfl, fun a ha heq => ?_, fun a ha hne => ?_⟩⟩
    · obtain ⟨hcanon', hsame⟩ := (hpage a ha).mp heq
      have hshown : shown 3 (pa ||| perm) a = (pa + a % PAGESIZE, perm &&& 0xFFF) := by
        rw [shown, or_and_perm hpa (by decide), if_pos hpresent, hbits, or_and_perm hpa (by decide)]
        exact congrArg (pa + ·, perm &&& 0xFFF) (Nat.and_two_pow_sub_one_eq_mod a 12)
      rw [hwrite.look_page hwf'.distinct hwf'.fullLinks hcanon' (by rw [hsame, hslot]),
        if_neg (not_panics (by rw [hbits]; exact hlow) 3), hshown]
    · by_cases hcanon' : vaIsCanonical a = true
      · have hne' : slot 4 a ≠ 512 * slot 3 va + entryIndex va 12 := by
          rw [hslot]
          exact fun heq => hne ((hpage a ha).mpr ⟨hcanon', heq⟩)
        rw [hwrite.look_other hwf'.distinct hwf'.fullLinks hne', hext.look_eq]
      · rw [look_of_not_canonical _ _ hcanon', look_of_not_canonical _ _ hcanon']

end

/-! ## An empty table -/

/-- A kernel image of six pages. -/
def smallLayout : Layout where
  kernelEnd := 0x46000
  kernelPagetable := 0x41000
  start_le := by decide
  aligned := by decide
  pagetable_le := by decide
  end_le := by decide

/-- Zeroed memory, of which the page at 0x1000 is in use. -/
def freshKernel : Kernel where
  mem := zeroed
  physpages := fun pageno => if pageno = 1 then 1 else 0
  ptable := fun pid => ⟨0, pid, .free, .zero⟩
  current := 0

theorem isTable_zeroed {root p : Nat} (h : IsTable zeroed root p) : p = root := by
  obtain ⟨d, -, x, hp⟩ := h
  exact (nodeAt_zeroed hp).2.2

theorem wellFormed_freshKernel : WellFormed freshKernel.mem 0x1000 where
  distinct := distinct_zeroed 0x1000
  aligned := by decide
  low := fun p hp => by
    rw [isTable_zeroed hp]
    decide
  fullLinks := by
    intro d _ x p _ i _ q hq
    rw [show child freshKernel.mem p i = link (entry zeroed p i) from rfl, entry_zeroed,
      link_zero] at hq
    cases hq
  noLarge := by
    intro d _ x p _ i _ _
    rw [show entry freshKernel.mem p i = entry zeroed p i from rfl, entry_zeroed, Nat.zero_and]

theorem free_freshKernel :
    ∀ q ∈ (kallocSource smallLayout).free freshKernel, ¬ IsTable freshKernel.mem 0x1000 q := by
  intro q hq htable
  rw [isTable_zeroed htable] at hq
  exact absurd hq.2 (by decide)

/-- The page at 0x5000 mapped at address 0. -/
theorem tryMap_exact_freshKernel :
    ∃ it r it' k', VmIter.new freshKernel.mem 0x1000 0 = .ok it ∧
      tryMapWith (kallocSource smallLayout).alloc 0x5000 7 it freshKernel = .ok (r, it', k') ∧
      WellFormed k'.mem 0x1000 ∧
      (r = 0 ∧ Remaps freshKernel.mem k'.mem 0x1000 0 0x5000 7 ∨
        r < 0 ∧ (∀ a, look k'.mem 0x1000 a = look freshKernel.mem 0x1000 a) ∧
          Reclaimable (kallocSource smallLayout) freshKernel k' 0x1000) := by
  have hlow : LowEntries freshKernel.mem 0x1000 := by
    intro p _ i _
    rw [show entry freshKernel.mem p i = entry zeroed p i from rfl, entry_zeroed]
    decide
  obtain ⟨it, hit⟩ := exists_new hlow 0
  obtain ⟨r, it', k', hrun, h⟩ : ∃ r it' k',
      tryMapWith (kallocSource smallLayout).alloc 0x5000 7 it freshKernel = .ok (r, it', k') ∧ _ :=
    tryMap_exact wellFormed_freshKernel free_freshKernel (by decide) (by decide) (by decide) hit
      (by decide) (by decide) (by decide) (by decide) (by decide)
  exact ⟨it, r, it', k', hit, hrun, h⟩

/-- Mappings that succeed and are not found again: a page at 4 GB makes the
lookup panic, and a permission bit above the page offset changes the
address. -/
theorem tryMap_inexact :
    WellFormed freshKernel.mem 0x1000 ∧
    (∀ q ∈ (kallocSource smallLayout).free freshKernel, ¬ IsTable freshKernel.mem 0x1000 q) ∧
    (VmIter.new freshKernel.mem 0x1000 0 >>= fun it =>
      tryMap smallLayout 0x100000000 7 it freshKernel >>= fun out =>
        .ok (out.1, look out.2.2.mem 0x1000 0)) = .ok (0, .error .panic) ∧
    (VmIter.new freshKernel.mem 0x1000 0 >>= fun it =>
      tryMap smallLayout 0x2000 0x1007 it freshKernel >>= fun out =>
        .ok (out.1, look out.2.2.mem 0x1000 0)) = .ok (0, .ok (0x3000, 7)) :=
  ⟨wellFormed_freshKernel, free_freshKernel, by decide +kernel, by decide +kernel⟩

end SystemsProjects.WeensyOS
