/-
SystemsProjects.WeensyOS.Mapping — what `try_map` does to a page table.

`Updates` says what a call may do: take fresh pages into the table as
page-table pages, and give the table new entries; every other page keeps
its bytes. `try_map` is a sequence of two such steps, linking a fresh
page-table page (`updates_link`) and writing the entry of a page
(`updates_setLeaf`), and `tryMap_spec` is their composition.
-/
import SystemsProjects.WeensyOS.TableSteps

namespace SystemsProjects.WeensyOS

open SystemsProjects.Base
open SystemsProjects.Base.RadixTree

/-- The pages `fresh`, free in `k`, are taken in `k'`, once each. -/
structure Taken (L : Layout) (k k' : Kernel) (fresh : List Nat) : Prop where
  nodup : fresh.Nodup
  free : ∀ q ∈ fresh, Free L k q
  refs : ∀ p, p % 4096 = 0 → k'.refs p = if p ∈ fresh then 1 else k.refs p

/-- The table at `root` gets the page-table pages `fresh` and the entries
`lf`; nothing else happens. -/
structure Updates (L : Layout) (k k' : Kernel) (root : Nat) (fresh : List Nat) (lf : Nat → Nat) :
    Prop where
  tree : Tree k'.mem root
  noLarge : NoLarge k.mem root → NoLarge k'.mem root
  leaf : ∀ vpn, leaf k'.mem root vpn = lf vpn
  tables : ∀ p, IsTable k'.mem root p ↔ IsTable k.mem root p ∨ p ∈ fresh
  grows : ∀ d ≤ 3, ∀ x p, nodeAt (child k.mem) 512 root d x = some p →
    nodeAt (child k'.mem) 512 root d x = some p
  taken : Taken L k k' fresh
  mem : ∀ p, p % 4096 = 0 → ¬ IsTable k'.mem root p → SamePage k.mem k'.mem p
  ptable : k'.ptable = k.ptable
  current : k'.current = k.current

section

variable {L : Layout} {k k' k'' : Kernel} {root : Nat} {lf lf' : Nat → Nat}

theorem Taken.nil (L : Layout) (k : Kernel) : Taken L k k [] :=
  ⟨.nil, by simp, by simp⟩

theorem Taken.trans {F G : List Nat} (h : Taken L k k' F) (h' : Taken L k' k'' G) :
    Taken L k k'' (F ++ G) := by
  have hold : ∀ q ∈ G, q ∉ F ∧ Free L k q := by
    intro q hq
    obtain ⟨hpage, hzero⟩ := h'.free q hq
    have hrefs := h.refs q hpage.aligned
    by_cases hF : q ∈ F
    · rw [if_pos hF, hzero] at hrefs
      cases hrefs
    · rw [if_neg hF, hzero] at hrefs
      exact ⟨hF, hpage, hrefs.symm⟩
  refine ⟨?_, ?_, fun p hp => ?_⟩
  · exact List.nodup_append.mpr ⟨h.nodup, h'.nodup, fun a ha b hb hab =>
      (hold b hb).1 (hab ▸ ha)⟩
  · intro q hq
    rcases List.mem_append.mp hq with hq | hq
    · exact h.free q hq
    · exact (hold q hq).2
  · rw [h'.refs p hp, h.refs p hp]
    simp only [List.mem_append]
    split_ifs <;> simp_all

/-- What is free after pages were taken was free before. -/
theorem Taken.free_of {F : List Nat} (h : Taken L k k' F) {q : Nat} (hq : Free L k' q) :
    Free L k q ∧ q ∉ F := by
  have hrefs := h.refs q hq.1.aligned
  rw [hq.2] at hrefs
  split at hrefs
  · cases hrefs
  · rename_i hmem
    exact ⟨⟨hq.1, hrefs.symm⟩, hmem⟩

theorem Updates.refl (ht : Tree k.mem root) : Updates L k k root [] (WeensyOS.leaf k.mem root) where
  tree := ht
  noLarge := id
  leaf := fun _ => rfl
  tables := by simp
  grows := fun _ _ _ _ h => h
  taken := .nil L k
  mem := fun p _ _ => .refl _ _
  ptable := rfl
  current := rfl

theorem Updates.trans {F G : List Nat} (h : Updates L k k' root F lf)
    (h' : Updates L k' k'' root G lf') : Updates L k k'' root (F ++ G) lf' where
  tree := h'.tree
  noLarge := h'.noLarge ∘ h.noLarge
  leaf := h'.leaf
  tables := by
    intro p
    rw [h'.tables, h.tables, List.mem_append, or_assoc]
  grows := fun d hd x p hp => h'.grows d hd x p (h.grows d hd x p hp)
  taken := h.taken.trans h'.taken
  mem := by
    intro p hp hnot
    exact (h.mem p hp fun ht => hnot ((h'.tables p).mpr (.inl ht))).trans (h'.mem p hp hnot)
  ptable := h'.ptable.trans h.ptable
  current := h'.current.trans h.current

/-- Page-table pages stay in use. -/
theorem Updates.free_not_table {F : List Nat} (h : Updates L k k' root F lf)
    (hfree : ∀ q, Free L k q → ¬ IsTable k.mem root q) {q : Nat} (hq : Free L k' q) :
    ¬ IsTable k'.mem root q := by
  obtain ⟨hq, hmem⟩ := h.taken.free_of hq
  rw [h.tables]
  exact not_or.mpr ⟨hfree q hq, hmem⟩

/-! ## One level -/

/-- The page at `q` taken, cleared, and linked as entry `i` of `p`. -/
def Kernel.linkTable (k : Kernel) (p i q : Nat) : Kernel :=
  { (k.take q).memset q 0 4096 with
    mem := ((k.take q).memset q 0 4096).mem.write (entryAddr p i) 8
      (q ||| PTE_P ||| PTE_W ||| PTE_U) }

theorem linkStep_linkTable {d x p i q : Nat} (ht : Tree k.mem root)
    (hp : nodeAt (child k.mem) 512 root d x = some p) (hd : d < 3) (hi : i < 512)
    (habsent : child k.mem p i = none) (hpage : q % 4096 = 0) (hlt : q < 2 ^ 32)
    (hq : ¬ IsTable k.mem root q) :
    LinkStep k.mem (k.linkTable p i q).mem root d x p i q :=
  linkStep_store ht.aligned hp hd hi habsent hpage hlt hq fun _ hr hrq =>
    samePage_fill hr hpage hrq

/-- **Linking a page-table page** changes no entry of a mapped page. -/
theorem updates_link {d x p i q : Nat} (ht : Tree k.mem root)
    (hp : nodeAt (child k.mem) 512 root d x = some p) (hd : d < 3) (hi : i < 512)
    (habsent : child k.mem p i = none) (hfree : Free L k q) (hq : ¬ IsTable k.mem root q) :
    Updates L k (k.linkTable p i q) root [q] (leaf k.mem root) ∧
      (∀ e ≤ 3, ∀ y, nodeAt (child (k.linkTable p i q).mem) 512 root e y =
        if e = d + 1 ∧ y = 512 * x + i then some q else nodeAt (child k.mem) 512 root e y) ∧
      ∀ j < 512, entry (k.linkTable p i q).mem q j = 0 := by
  have hb := hfree.1.bounds
  have hqal := hfree.1.aligned
  have hstep := linkStep_linkTable (k := k) ht hp hd hi habsent hqal (by omega) hq
  have htable : IsTable k.mem root p := ⟨d, by omega, x, hp⟩
  have hpal := ht.table_aligned htable
  refine ⟨⟨⟨hstep.distinct ht.distinct, ht.aligned, ?_, hstep.fullLinks ht.distinct ht.linkPerm⟩,
    hstep.noLarge ht.distinct, hstep.leaf_eq ht.distinct, ?_, ?_, ?_, ?_, rfl, rfl⟩,
    fun e he y => hstep.nodeAt_eq ht.distinct he y, hstep.empty⟩
  · -- low
    rintro r ⟨e, he, y, hr⟩ j hj
    rcases hstep.entry_cases ht.distinct he hr hj with hzero | ⟨rfl, rfl⟩ | ⟨hr', heq⟩
    · rw [hzero, Nat.zero_and]
      decide
    · rw [hstep.linked, Nat.or_assoc, Nat.or_assoc, or_and_pamask hqal (by omega) (by decide)]
      omega
    · rw [heq]
      exact ht.low r ⟨e, he, y, hr'⟩ j hj
  · -- tables
    intro r
    rw [List.mem_singleton]
    exact hstep.isTable_iff ht.distinct r
  · exact fun e he y r hr => hstep.nodeAt_grows ht.distinct he hr
  · -- taken
    refine ⟨List.nodup_singleton q, fun r hr => ?_, fun r hr => ?_⟩
    · rw [List.mem_singleton.mp hr]
      exact hfree
    · simp only [List.mem_singleton]
      exact refs_take hr hqal
  · -- mem
    intro r hr hnot
    have hr' := mt (hstep.isTable_iff ht.distinct r).mpr hnot
    rw [not_or] at hr'
    have hrp : r ≠ p := by
      rintro rfl
      exact hr'.1 htable
    have hrq : r ≠ q := hr'.2
    exact ((samePage_fill hr hqal hrq).trans (samePage_fill hr hqal hrq)).trans
      (samePage_write hr hpal hrp hi)

/-! ## The entry of a page -/

/-- Entry `i` of `p` written. -/
def Kernel.setEntry (k : Kernel) (p i e : Nat) : Kernel :=
  { k with mem := k.mem.write (entryAddr p i) 8 e }

/-- **Writing the entry of a page** changes that entry alone. -/
theorem updates_setLeaf {x p i e : Nat} (ht : Tree k.mem root)
    (hp : nodeAt (child k.mem) 512 root 3 x = some p) (hi : i < 512) (he : e < 2 ^ 64)
    (hlow : e &&& PTE_PAMASK < 2 ^ 32) :
    Updates L k (k.setEntry p i e) root []
      (Function.update (leaf k.mem root) (512 * x + i) e) := by
  have htable : IsTable k.mem root p := ⟨3, Nat.le_refl 3, x, hp⟩
  have hpal := ht.table_aligned htable
  have hstep : WriteStep k.mem (k.setEntry p i e).mem root x p i e :=
    writeStep_store ht.aligned hp hi he
  have htaken : Taken L k (k.setEntry p i e) [] := ⟨.nil, by simp, fun _ _ => rfl⟩
  refine ⟨⟨hstep.distinct ht.distinct, ht.aligned, ?_, hstep.fullLinks ht.distinct ht.linkPerm⟩,
    hstep.noLarge ht.distinct, hstep.leaf_eq ht.distinct, ?_, ?_, htaken, ?_, rfl, rfl⟩
  · -- low
    intro r hr j hj
    have hr' := (hstep.isTable_iff ht.distinct r).mp hr
    by_cases hrj : r ≠ p ∨ j ≠ i
    · rw [hstep.others r hr' j hj hrj]
      exact ht.low r hr' j hj
    · obtain ⟨hrp, hji⟩ := not_or.mp hrj
      rw [not_not.mp hrp, not_not.mp hji, hstep.written]
      exact hlow
  · intro r
    rw [hstep.isTable_iff ht.distinct]
    simp
  · intro d hd y r hr
    rw [hstep.nodeAt_eq ht.distinct hd]
    exact hr
  · intro r hr hnot
    refine samePage_write hr hpal ?_ hi
    rintro rfl
    exact hnot ((hstep.isTable_iff ht.distinct r).mpr htable)

/-- Without fresh pages no page-table page moves. -/
theorem Updates.nodes_nil (h : Updates L k k' root [] lf) {d : Nat} (hd : d ≤ 3) (x : Nat) :
    nodeAt (child k'.mem) 512 root d x = nodeAt (child k.mem) 512 root d x := by
  cases hp : nodeAt (child k.mem) 512 root d x with
  | some p => exact h.grows d hd x p hp
  | none =>
    cases hp' : nodeAt (child k'.mem) 512 root d x with
    | none => rfl
    | some p =>
      have htable := (h.tables p).mp ⟨d, hd, x, hp'⟩
      simp only [List.not_mem_nil, or_false] at htable
      obtain ⟨e, he, y, hy⟩ := htable
      obtain ⟨rfl, rfl⟩ := h.tree.distinct d hd e he x y p hp' (h.grows e he y p hy)
      exact absurd hy (by rw [hp]; exact Option.some_ne_none p |>.symm)

/-! ## `try_map` -/

namespace VmIter

/-- What the loop of `try_map` did from depth `d` on: it linked the
page-table pages `fresh` below each other on the path of `va`, down to
depth 3 or until `kalloc` failed. -/
structure Linked (L : Layout) (k k' : Kernel) (root va d : Nat) (fresh : List Nat) (r : Int) :
    Prop where
  updates : Updates L k k' root fresh (WeensyOS.leaf k.mem root)
  path : ∀ e ≤ 3, ∀ y p, nodeAt (child k'.mem) 512 root e y = some p →
    nodeAt (child k.mem) 512 root e y = some p ∨ y = slot e va
  result : r = 0 ∧ fresh.length = 3 - d ∨ r = -1 ∧ fresh.length < 3 - d ∧ OutOfPages L k'

theorem tryMapLoop_spec {perm va d p rounds : Nat} (hperm : d < 3 → perm ≠ 0)
    (ht : Tree k.mem root) (hplain : d < 3 → NoLarge k.mem root)
    (hfree : d < 3 → ∀ q, Free L k q → ¬ IsTable k.mem root q) (hstop : Stops k.mem root va d p)
    (hrounds : 3 - d < rounds) :
    ∃ r it k' fresh, tryMapLoop L perm rounds (iterAt root va d p) k = .ok (r, it, k') ∧
      Linked L k k' root va d fresh r ∧
      (r = 0 → ∃ p', Stops k'.mem root va 3 p' ∧ it = iterAt root va 3 p') := by
  induction rounds generalizing k d p with
  | zero => omega
  | succ rounds ih =>
    obtain ⟨hd, hnode, hlast⟩ := hstop
    rw [tryMapLoop]
    by_cases hlt : d < 3
    · have hlbits : (iterAt root va d p).lbits_ > PAGEOFFBITS ∧ perm ≠ 0 :=
        ⟨show 39 - 9 * d > 12 by omega, hperm hlt⟩
      rw [if_pos hlbits]
      have habsent := hlast hlt
      have hpe : (iterAt root va d p).pe k.mem &&& PTE_P = 0 :=
        hplain hlt d hlt _ p hnode _ (entryIndex_lt va (39 - 9 * d)) habsent
      rw [assert, if_pos hpe]
      rcases kalloc_cases L k with ⟨hk, hout⟩ | ⟨q, hq, -, hk⟩
      · -- no page for the page-table page
        refine ⟨-1, _, k, [], by rw [hk]; rfl, ⟨.refl ht, fun e he y p h => .inl h,
          .inr ⟨rfl, ?_, hout⟩⟩, fun h => by cases h⟩
        show 0 < 3 - d
        omega
      · obtain ⟨hup, hnode', hempty⟩ :=
          updates_link (L := L) ht hnode hlt (entryIndex_lt va _) habsent hq (hfree hlt q hq)
        have hslot : 512 * slot d va + entryIndex va (39 - 9 * d) = slot (d + 1) va :=
          (slot_succ hd va).symm
        have hq' : nodeAt (child
          (k.linkTable p (entryIndex va (39 - 9 * d)) q).mem) 512 root (d + 1)
            (slot (d + 1) va) = some q := by
          rw [hnode' (d + 1) (by omega), if_pos ⟨rfl, hslot.symm⟩]
        have hold : nodeAt (child (k.linkTable p (entryIndex va (39 - 9 * d)) q).mem) 512 root d
            (slot d va) = some p := hup.grows d hd _ p hnode
        have hstop' : Stops (k.linkTable p (entryIndex va (39 - 9 * d)) q).mem root va (d + 1) q :=
          ⟨by omega, hq', fun hlt' => by rw [child, hempty _ (entryIndex_lt _ _), link_zero]⟩
        obtain ⟨d', p', hdown', hdown⟩ := down_iterAt hup.tree hd hold
        obtain ⟨rfl, rfl⟩ := hdown'.unique hstop'
        obtain ⟨r, it, k', fresh, hloop, hlinked, hdone⟩ := ih (fun _ => hperm hlt) hup.tree
          (fun _ => hup.noLarge (hplain hlt)) (fun _ q hq => hup.free_not_table (hfree hlt) hq)
          hstop' (by omega)
        refine ⟨r, it, k', p' :: fresh, ?_, ⟨?_, fun e he y s hs => ?_, ?_⟩, hdone⟩
        · rw [hk]
          show (down (k.linkTable p (entryIndex va (39 - 9 * d)) p').mem
            (iterAt root va d p) >>= _) = _
          rw [hdown]
          exact hloop
        · have := hup.trans hlinked.updates
          rwa [funext hup.leaf] at this
        · rcases hlinked.path e he y s hs with hs | rfl
          · rw [hnode' e he] at hs
            split at hs
            · rename_i hnew
              exact .inr (by rw [hnew.2, hnew.1, hslot])
            · exact .inl hs
          · exact .inr rfl
        · rw [List.length_cons]
          rcases hlinked.result with ⟨rfl, hlen⟩ | ⟨rfl, hlen, hout⟩
          · exact .inl ⟨rfl, by omega⟩
          · exact .inr ⟨rfl, by omega, hout⟩
    · obtain rfl : d = 3 := by omega
      have hlbits : ¬ ((iterAt root va 3 p).lbits_ > PAGEOFFBITS ∧ perm ≠ 0) := by
        rintro ⟨hgt, -⟩
        have hgt : 39 - 9 * 3 > 12 := hgt
        omega
      rw [if_neg hlbits]
      refine ⟨0, _, k, [], rfl, ⟨.refl ht, fun e he y p h => .inl h, .inl ⟨rfl, rfl⟩⟩, fun _ => ?_⟩
      exact ⟨p, ⟨hd, hnode, hlast⟩, rfl⟩

/-- `try_map` returned 0: the entry of `va` is `e`, under the page-table
pages that were missing from depth `d + 1` on. -/
structure Installed (L : Layout) (k k' : Kernel) (root va e d : Nat) (fresh : List Nat) : Prop where
  updates : Updates L k k' root fresh (Function.update (WeensyOS.leaf k.mem root) (slot 4 va) e)
  path : ∀ d ≤ 3, ∀ y p, nodeAt (child k'.mem) 512 root d y = some p →
    nodeAt (child k.mem) 512 root d y = some p ∨ y = slot d va
  length : fresh.length = 3 - d
  covered : ∃ p, nodeAt (child k'.mem) 512 root 3 (slot 3 va) = some p

/-- `try_map` returned -1: a page-table page could not be allocated. -/
structure Exhausted (L : Layout) (k k' : Kernel) (root d : Nat) (fresh : List Nat) : Prop where
  updates : Updates L k k' root fresh (WeensyOS.leaf k.mem root)
  short : fresh.length < 3 - d
  out : OutOfPages L k'

/-- The arguments of `try_map` that its assertions let through. -/
structure Mappable (va pa perm : Nat) : Prop where
  canonical : vaIsCanonical va = true
  va_aligned : va % 4096 = 0
  pa_aligned : pa % 4096 = 0
  pa_low : pa < 2 ^ 32
  perm_lt : perm < 4096

theorem Mappable.entry_lt {va pa perm : Nat} (h : Mappable va pa perm) : pa ||| perm < 2 ^ 64 := by
  have := h.pa_low
  have := h.perm_lt
  rw [or_eq_add h.pa_aligned h.perm_lt]
  omega

theorem Mappable.entry_low {va pa perm : Nat} (h : Mappable va pa perm) :
    (pa ||| perm) &&& PTE_PAMASK < 2 ^ 32 := by
  have := h.pa_low
  rw [or_and_pamask h.pa_aligned (by omega) h.perm_lt]
  exact h.pa_low

/-- Past its assertions `try_map` is the loop and one store. -/
theorem tryMap_run {va pa perm d p : Nat} (hm : Mappable va pa perm) :
    tryMap L pa perm (iterAt root va d p) k = (do
      let out ← tryMapLoop L perm (iterAt root va d p).lbits_ (iterAt root va d p) k
      if out.1 < 0 then
        return out
      if out.2.1.lbits_ = PAGEOFFBITS then
        let k ← out.2.1.setPe (pa ||| perm) out.2.2
        return (0, out.2.1, k)
      return (0, out.2)) := by
  have hlow := hm.pa_low
  have hpa' : pa ≠ 2 ^ 64 - 1 := by omega
  have hpa : ¬ (pa = 2 ^ 64 - 1 ∧ perm = 0) := fun h => hpa' h.1
  have hmask : pa &&& PTE_PAMASK = pa := pamask_of_page hm.pa_aligned (by omega)
  have hperms : perm &&& (2 ^ 64 - 1 - (iterAt root va d p).perm_) &&&
    (PTE_P ||| PTE_W ||| PTE_U) = 0 := by
    show perm &&& (2 ^ 64 - 1 - 0xFFF) &&& 7 = 0
    rw [Nat.and_assoc]
    exact Nat.and_zero perm
  rw [tryMap]
  simp only [if_neg hpa, assert]
  rw [if_pos (show (iterAt root va d p).va_ % PAGESIZE = 0 from hm.va_aligned), if_pos hpa',
    if_pos hmask, if_pos (and_perm_of_aligned hm.pa_aligned (by decide)), if_pos hperms]
  by_cases hpresent : perm &&& PTE_P ≠ 0
  · rw [if_pos hpresent]
    rfl
  · rw [if_neg hpresent]
    rfl

/-- At the entry of a page it is the store alone. -/
theorem tryMap_entry {va pa perm p : Nat} (hm : Mappable va pa perm) :
    tryMap L pa perm (iterAt root va 3 p) k =
      .ok (0, iterAt root va 3 p, k.setEntry p (entryIndex va 12) (pa ||| perm)) := by
  rw [tryMap_run hm, show (iterAt root va 3 p).lbits_ = 12 from rfl, tryMapLoop,
    if_neg fun h => absurd (show 12 > 12 from h.1) (Nat.lt_irrefl 12)]
  rfl

theorem tryMap_spec {va pa perm d p : Nat} (hm : Mappable va pa perm) (hperm : d < 3 → perm ≠ 0)
    (ht : Tree k.mem root) (hplain : d < 3 → NoLarge k.mem root)
    (hfree : d < 3 → ∀ q, Free L k q → ¬ IsTable k.mem root q) (hstop : Stops k.mem root va d p) :
    (∃ it k' fresh, tryMap L pa perm (iterAt root va d p) k = .ok (0, it, k') ∧
      Installed L k k' root va (pa ||| perm) d fresh) ∨
    ∃ it k' fresh, tryMap L pa perm (iterAt root va d p) k = .ok (-1, it, k') ∧
      Exhausted L k k' root d fresh := by
  have hd := hstop.depth
  obtain ⟨r, it, k', fresh, hloop, hlinked, hdone⟩ := tryMapLoop_spec hperm ht hplain hfree hstop
    (show 3 - d < (iterAt root va d p).lbits_ by show 3 - d < 39 - 9 * d; omega)
  rw [tryMap_run hm, hloop]
  rcases hlinked.result with ⟨rfl, hlen⟩ | ⟨rfl, hlen, hout⟩
  · obtain ⟨p', hstop', rfl⟩ := hdone rfl
    have hup := updates_setLeaf (L := L) hlinked.updates.tree hstop'.node (entryIndex_lt va 12)
      hm.entry_lt hm.entry_low
    have hslot : 512 * slot 3 va + entryIndex va 12 = slot 4 va := (slot_succ (by decide) va).symm
    rw [hslot, funext hlinked.updates.leaf] at hup
    have hall := hlinked.updates.trans hup
    rw [List.append_nil] at hall
    refine .inl ⟨_, k'.setEntry p' (entryIndex va 12) (pa ||| perm), fresh, rfl, hall, ?_, hlen, ?_⟩
    · intro e he y q hq
      rw [hup.nodes_nil he] at hq
      exact hlinked.path e he y q hq
    · exact ⟨p', hup.grows 3 (Nat.le_refl 3) _ p' hstop'.node⟩
  · exact .inr ⟨it, k', fresh, rfl, hlinked.updates, hlen, hout⟩

end VmIter


end

end SystemsProjects.WeensyOS
