/-
SystemsProjects.WeensyOS.LoadingGaps — a gap between a segment's frames
always shows.

Frames are taken in ascending order, so a gap puts the segment's last byte
behind the range that is copied: it keeps the 0xCC that `kalloc` left
there. Only the page-table page for addresses from 2 MB on can lie in a
gap; the copy then cuts entries out of it, which shows as well. For a
program of zero bytes both are seen to be wrong, whatever else the copy
hits.
-/
import SystemsProjects.WeensyOS.Startup

namespace SystemsProjects.WeensyOS

open SystemsProjects.Base
open SystemsProjects.Base.RadixTree

/-! ## The order of the frames -/

section

variable {as free : List Nat} {a p : Nat}

theorem frameOf_mem {high : Bool} (h : frameOf a high as free = some p) : p ∈ free := by
  induction as generalizing high free with
  | nil => simp [frameOf] at h
  | cons b as ih =>
    cases free with
    | nil => simp [frameOf] at h
    | cons q free =>
      rw [frameOf] at h
      split at h
      · cases h
        exact List.mem_cons_self
      · exact List.mem_cons_of_mem _ (List.mem_of_mem_drop (ih h))

/-- Pages that are mapped later get higher frames. -/
theorem frameOf_pairwise (high : Bool) (hsorted : free.Pairwise (· < ·)) (hnodup : as.Nodup) :
    as.Pairwise fun a b => ∀ p q, frameOf a high as free = some p →
      frameOf b high as free = some q → p < q := by
  induction as generalizing high free with
  | nil => exact .nil
  | cons a as ih =>
    rw [List.nodup_cons] at hnodup
    cases free with
    | nil =>
      refine List.pairwise_of_forall fun b c p q hp => ?_
      simp [frameOf] at hp
    | cons r free =>
      rw [List.pairwise_cons] at hsorted
      have hne : ∀ b ∈ as, frameOf b high (a :: as) (r :: free) =
          frameOf b (high || decide (0x200000 ≤ a)) as (free.drop (lacking high a)) := by
        intro b hb
        rw [frameOf, if_neg]
        rintro rfl
        exact hnodup.1 hb
      refine List.pairwise_cons.mpr ⟨fun b hb p q hp hq => ?_, ?_⟩
      · rw [frameOf, if_pos rfl] at hp
        cases hp
        rw [hne b hb] at hq
        exact hsorted.1 q (List.mem_of_mem_drop (frameOf_mem hq))
      · have hdrop : (free.drop (lacking high a)).Pairwise (· < ·) := hsorted.2.drop
        refine (ih (high || decide (0x200000 ≤ a)) hdrop hnodup.2).imp_of_mem fun hb hc h => ?_
        rw [hne _ hb, hne _ hc]
        exact h

end

section

variable {L : Layout} {k k' : Kernel} {pt : Nat} {lf : Nat → Nat} {segs : List Segment}
  {s t : Segment} {a b : Nat}

theorem SetUp.ordered (h : SetUp L k k' pt lf segs) (hload : Loadable segs) :
    (∀ s ∈ segs, s.pages.Pairwise fun a b => frameIn L k segs a < frameIn L k segs b) ∧
      segs.Pairwise fun s t => ∀ a ∈ s.pages, ∀ b ∈ t.pages,
        frameIn L k segs a < frameIn L k segs b := by
  have hsorted : ((freePages L k).drop 4).Pairwise (· < ·) := (freePages_sorted L k).drop
  have hframes : (segs.flatMap Segment.pages).Pairwise fun a b =>
      frameIn L k segs a < frameIn L k segs b := by
    refine (frameOf_pairwise false hsorted hload.nodup_pages).imp_of_mem fun ha hb hab => ?_
    obtain ⟨s, hs, ha⟩ := List.mem_flatMap.mp ha
    obtain ⟨t, ht, hb⟩ := List.mem_flatMap.mp hb
    exact hab _ _ (h.frame hs ha).1 (h.frame ht hb).1
  exact List.pairwise_flatMap.mp hframes

/-- The frames of a segment are at least as far apart as its pages. -/
theorem SetUp.spread (h : SetUp L k k' pt lf segs) (hload : Loadable segs) (hs : s ∈ segs)
    (ha : a ∈ s.pages) (hb : b ∈ s.pages) (hab : a ≤ b) :
    frameIn L k segs a + (b - a) ≤ frameIn L k segs b := by
  -- the order of the list is that of the pages
  have hlt : ∀ {a b}, a ∈ s.pages → b ∈ s.pages → a < b →
      frameIn L k segs a < frameIn L k segs b := by
    let R : Nat → Nat → Prop := fun a b => (a < b → frameIn L k segs a < frameIn L k segs b) ∧
      (b < a → frameIn L k segs b < frameIn L k segs a)
    have hsymm : Std.Symm R := ⟨fun _ _ h => ⟨h.2, h.1⟩⟩
    have hsorted : s.pages.Pairwise (· < ·) := by
      refine List.pairwise_map.mpr (List.pairwise_lt_range.imp fun {i j} hij => ?_)
      show s.base + i * 4096 < s.base + j * 4096
      omega
    have hpairs : s.pages.Pairwise R := by
      refine ((h.ordered hload).1 s hs).imp₂ (fun a b h1 h2 => ?_) hsorted
      exact ⟨fun _ => h1, fun h => absurd h (Nat.lt_asymm h2)⟩
    intro a b ha hb hab
    exact (hpairs.forall ha hb (Nat.ne_of_lt hab)).1 hab
  obtain ⟨n, rfl⟩ : ∃ n, b = a + n * 4096 := by
    have hal := (mem_pages.mp ha).1
    have hbl := (mem_pages.mp hb).1
    exact ⟨(b - a) / 4096, by omega⟩
  clear hab
  have hstep : ∀ n, a + (n + 1) * 4096 ∈ s.pages → a + n * 4096 ∈ s.pages := by
    intro n hn
    have hn := mem_pages.mp hn
    have ha := mem_pages.mp ha
    exact mem_pages.mpr ⟨by omega, by omega, by omega⟩
  have hnext : ∀ n, a + (n + 1) * 4096 ∈ s.pages →
      frameIn L k segs (a + n * 4096) + 4096 ≤ frameIn L k segs (a + (n + 1) * 4096) := by
    intro n hn
    have hlt := hlt (hstep n hn) hn (by omega)
    have hal := (h.frame hs (hstep n hn)).2.1.1.aligned
    have hbl := (h.frame hs hn).2.1.1.aligned
    omega
  induction n with
  | zero =>
    show frameIn L k segs a + (a - a) ≤ frameIn L k segs a
    omega
  | succ n ih =>
    have hle := ih (hstep n hb)
    have hnext := hnext n hb
    rw [Nat.add_sub_cancel_left] at hle ⊢
    calc frameIn L k segs a + (n + 1) * 4096
        = frameIn L k segs a + n * 4096 + 4096 := by rw [Nat.succ_mul, Nat.add_assoc]
      _ ≤ frameIn L k segs (a + n * 4096) + 4096 := Nat.add_le_add_right hle _
      _ ≤ frameIn L k segs (a + (n + 1) * 4096) := hnext

/-- A segment's copy stays between its first and its last frame. -/
theorem SetUp.home_range (h : SetUp L k k' pt lf segs) (hload : Loadable segs) (ht : t ∈ segs)
    {b : Nat} (h1 : t.home (frameIn L k segs) ≤ b) (h2 : b < t.home (frameIn L k segs) + t.size) :
    0 < t.size ∧ frameIn L k segs t.base ≤ b ∧
      b < frameIn L k segs (t.pageOf (t.size - 1)) + 4096 := by
  have hsize : 0 < t.size := by omega
  have hbase := base_eq t
  have hle : t.base ≤ t.pageOf (t.size - 1) := by
    rw [Segment.pageOf]
    omega
  have hspread := h.spread hload ht (base_mem hsize)
    (pageOf_mem (show t.size - 1 < t.size by omega))
    hle
  have hlast : t.pageOf (t.size - 1) = (t.va + (t.size - 1)) / 4096 * 4096 := rfl
  rw [Segment.home] at h1 h2
  exact ⟨hsize, by omega, by omega⟩

end

/-! ## Copies of zeros -/

/-- The ranges of the segments `done` have become zero; the addresses at
the end of the address space do not matter. -/
structure Zeroed (fr : Nat → Nat) (done : List Segment) (mem mem' : ByteMem) : Prop where
  hit : ∀ t ∈ done, ∀ b, t.home fr ≤ b → b < t.home fr + t.size → mem' b = 0
  miss : ∀ b < 2 ^ 64 - 1, (∀ t ∈ done, b < t.home fr ∨ t.home fr + t.size ≤ b) → mem' b = mem b

section

variable {L : Layout} {k k' : Kernel} {pt : Nat} {lf : Nat → Nat} {segs done : List Segment}
  {mem : ByteMem} {t : Segment} {b p d x i : Nat}

theorem Zeroed.byte (hz : Zeroed (frameIn L k segs) done k'.mem mem) (hb : b < 2 ^ 64 - 1) :
    mem b = k'.mem b ∨ mem b = 0 := by
  by_cases hhit : ∃ t ∈ done, t.home (frameIn L k segs) ≤ b ∧ b < t.home (frameIn L k segs) + t.size
  · obtain ⟨t, ht, h1, h2⟩ := hhit
    exact .inr (hz.hit t ht b h1 h2)
  · refine .inl (hz.miss b hb fun t ht => ?_)
    by_contra hin
    exact hhit ⟨t, ht, by omega, by omega⟩

/-- The first four pages keep their bytes. -/
theorem Zeroed.first (hz : Zeroed (frameIn L k segs) done k'.mem mem) (h : SetUp L k k' pt lf segs)
    (hload : Loadable segs) (hdone : ∀ t ∈ done, t ∈ segs) (hp : p ∈ (freePages L k).take 4) :
    SamePage k'.mem mem p := by
  intro j hj
  have hpage : Free L k p := mem_freePages.mp (List.mem_of_mem_take hp)
  have hpal := hpage.1.aligned
  have hpb := hpage.1.bounds
  refine hz.miss (p + j) (by omega) fun t ht => ?_
  by_contra hin
  obtain ⟨hsize, hle, -⟩ := h.home_range hload (hdone t ht) (b := p + j) (by omega) (by omega)
  obtain ⟨hframe, hfree, -⟩ := h.frame (hdone t ht) (base_mem hsize)
  have hsorted := freePages_sorted L k
  rw [← List.take_append_drop 4 (freePages L k), List.pairwise_append] at hsorted
  have hlt := hsorted.2.2 p hp _ (frameOf_mem hframe)
  have hal := hfree.1.aligned
  omega

/-- An entry of a last page-table page keeps its bytes, or becomes absent. -/
theorem Zeroed.last (hz : Zeroed (frameIn L k segs) done k'.mem mem) (h : SetUp L k k' pt lf segs)
    (hload : Loadable segs) (hdone : ∀ t ∈ done, t ∈ segs) (hp : IsTable k'.mem pt p)
    (hi : i < 512) :
    entry mem p i = entry k'.mem p i ∨
      entry mem p i &&& PTE_P = 0 ∧ entry mem p i ≤ entry k'.mem p i := by
  have hpage := h.building.tables p hp
  have hpal := hpage.1.aligned
  have hpb := hpage.1.bounds
  by_cases hhit : ∃ t ∈ done, ∃ j < 8, t.home (frameIn L k segs) ≤ entryAddr p i + j ∧
      entryAddr p i + j < t.home (frameIn L k segs) + t.size
  · -- the copy began in front of the page, so it has cleared the first byte as well
    right
    obtain ⟨t, ht, j, hj, h1, h2⟩ := hhit
    obtain ⟨hsize, hle, -⟩ := h.home_range hload (hdone t ht) h1 h2
    have hmem := base_mem hsize
    obtain ⟨-, hfree, hentry, -⟩ := h.frame (hdone t ht) hmem
    have hne : frameIn L k segs t.base ≠ p := by
      rintro rfl
      exact (h.building.mapped (hload.inUserRange (hdone t ht) hmem) hfree.1 hentry).2 hp
    have hal := hfree.1.aligned
    have hzero : mem (entryAddr p i) = 0 := by
      refine hz.hit t ht _ ?_ ?_
      · rw [Segment.home]
        rw [entryAddr] at hle ⊢
        omega
      · omega
    refine ⟨?_, ByteMem.read_le fun j hj => ?_⟩
    · rw [show PTE_P = 1 from rfl, Nat.and_one_is_mod, entry, ByteMem.read, hzero]
      show (0 + 256 * _) % 2 = 0
      omega
    · rcases hz.byte (b := entryAddr p i + j) (by rw [entryAddr]; omega) with hbyte | hbyte
      · rw [hbyte]
      · rw [hbyte]
        exact Nat.zero_le _
  · refine .inl (ByteMem.read_congr fun j hj => ?_)
    refine hz.miss _ (by rw [entryAddr]; omega) fun t ht => ?_
    by_contra hin
    exact hhit ⟨t, ht, j, hj, by omega, by omega⟩

theorem leaf_digits {root x : Nat} (hp : nodeAt (child mem) 512 root 3 x = some p) (hi : i < 512) :
    leaf mem root (512 * x + i) = entry mem p i := by
  rw [leaf, digits_div hi, hp, digits_mod hi]

/-- The entries of the table are small. -/
theorem SetUp.leaf_lt (h : SetUp L k k' pt lf segs) (vpn : Nat) :
    leaf k'.mem pt vpn < 2 ^ 32 := by
  rw [h.building.leaf]
  by_cases hseg : ∃ seg ∈ segs, ∃ a ∈ seg.pages, a / 4096 = vpn
  · obtain ⟨seg, hseg, a, ha, rfl⟩ := hseg
    obtain ⟨-, hfree, hentry, -⟩ := h.frame hseg ha
    have hb := hfree.1.bounds
    have hperm := framePerm_lt seg.writable
    rw [hentry, frameEntry, or_eq_add hfree.1.aligned hperm]
    omega
  · rw [h.others vpn fun seg hs a ha heq => hseg ⟨seg, hs, a, ha, heq⟩, kernelEntry]
    split
    · rename_i hk
      have hlt : vpn < 0x80 := hk.2
      rw [or_eq_add (Nat.mul_mod_left _ _) (by decide)]
      show vpn * 4096 + 3 < 2 ^ 32
      omega
    · split <;> decide

/-- **What copies of zeros leave of the table**: all of it but for entries
that became absent. -/
theorem Zeroed.tree (hz : Zeroed (frameIn L k segs) done k'.mem mem) (h : SetUp L k k' pt lf segs)
    (hload : Loadable segs) (hdone : ∀ t ∈ done, t ∈ segs) :
    (∀ d ≤ 3, ∀ x, nodeAt (child mem) 512 pt d x = nodeAt (child k'.mem) 512 pt d x) ∧
      Tree mem pt ∧ NoLarge mem pt ∧
      ∀ vpn, leaf mem pt vpn = lf vpn ∨
        leaf mem pt vpn &&& PTE_P = 0 ∧ leaf mem pt vpn ≤ lf vpn := by
  have habove : ∀ d < 3, ∀ x p, nodeAt (child k'.mem) 512 pt d x = some p →
      SamePage k'.mem mem p := by
    intro d hd x p hp
    obtain ⟨high, hl, -⟩ := h.tables
    obtain rfl := hl.narrow d (by omega) x p hp
    exact hz.first h hload hdone (h.first d (by omega) p hp)
  have hentry : ∀ x p, nodeAt (child k'.mem) 512 pt 3 x = some p → ∀ i < 512,
      entry mem p i = entry k'.mem p i ∨
        entry mem p i &&& PTE_P = 0 ∧ entry mem p i ≤ entry k'.mem p i := fun x p hp i hi =>
    hz.last h hload hdone ⟨3, Nat.le_refl 3, x, hp⟩ hi
  have hnode : ∀ d ≤ 3, ∀ x,
      nodeAt (child mem) 512 pt d x = nodeAt (child k'.mem) 512 pt d x := fun d hd x =>
    nodeAt_of_above habove hd x
  have htree : Tree mem pt := by
    refine h.building.tree.of_above habove fun x p hp i hi => ?_
    have hlt := h.leaf_lt (512 * x + i)
    rw [leaf_digits hp hi] at hlt
    have hle : entry mem p i ≤ entry k'.mem p i := by
      rcases hentry x p hp i hi with heq | ⟨-, hle⟩
      · exact Nat.le_of_eq heq
      · exact hle
    exact Nat.lt_of_le_of_lt Nat.and_le_left (Nat.lt_of_le_of_lt hle hlt)
  refine ⟨hnode, htree, fun d hd x p hp i hi hnone => ?_, fun vpn => ?_⟩
  · rw [hnode d (Nat.le_of_lt hd)] at hp
    have hsame := (habove d hd x p hp).entry hi
    rw [child, hsame] at hnone
    rw [hsame]
    exact h.building.noLarge d hd x p hp i hi hnone
  · rw [← h.building.leaf, leaf, leaf, hnode 3 (Nat.le_refl 3)]
    cases hp : nodeAt (child k'.mem) 512 pt 3 (vpn / 512) with
    | none => exact .inl rfl
    | some p => exact hentry _ p hp _ (Nat.mod_lt _ (by decide))

/-- The physical address that a new iterator shows. -/
theorem new_pa {root va : Nat} (ht : Tree mem root) (hc : VmIter.Covered mem root va)
    (hva : va < MEMSIZE_VIRTUAL) :
    ∃ it, VmIter.new mem root va = .ok it ∧ it.pa mem =
      if leaf mem root (va / 4096) &&& PTE_P ≠ 0 then
        (leaf mem root (va / 4096) &&& PTE_PAMASK) + va % 4096
      else 2 ^ 64 - 1 := by
  obtain ⟨d, p, hstop, hnew⟩ := VmIter.new_spec ht (VmIter.canonical_of_lt (Nat.le_of_lt hva))
  obtain rfl := hstop.depth_eq hc
  have hsees := hstop.sees (fun h => absurd h (Nat.lt_irrefl 3))
  rw [← slot_page hva]
  refine ⟨_, hnew, ?_⟩
  by_cases hp : leaf mem root (slot 4 va) &&& PTE_P ≠ 0
  · rw [if_pos hp]
    exact hsees.pa_eq hp
  · have hpe : (VmIter.iterAt root va 3 p).pe mem = leaf mem root (slot 4 va) :=
      (leaf_slot va hstop.node).symm
    rw [if_neg hp, VmIter.pa, hpe, if_neg hp]

/-- The page-table pages for the pages of the segments. -/
theorem SetUp.covered (h : SetUp L k k' pt lf segs) (ht : t ∈ segs) (hload : Loadable segs)
    (hsize : 0 < t.size) : VmIter.Covered k'.mem pt t.va := by
  obtain ⟨-, hfree, hentry, -⟩ := h.frame ht (base_mem hsize)
  rw [base_div, ← h.building.leaf] at hentry
  rw [VmIter.Covered]
  cases hnode : nodeAt (child k'.mem) 512 pt 3 (slot 3 t.va) with
  | some p => exact ⟨p, rfl⟩
  | none =>
    have hva : t.va < MEMSIZE_VIRTUAL := by
      have hhigh : t.va + t.size ≤ 0x300000 - 0x1000 := hload.high t ht
      show t.va < 0x300000
      omega
    rw [← slot_page hva, leaf_slot_none _ hnode] at hentry
    have hal := userEntry_frameEntry hfree.1.aligned t.writable
    rw [← hentry] at hal
    exact absurd hal (by decide)

/-- One segment of zeros. -/
theorem Zeroed.step (hz : Zeroed (frameIn L k segs) done k'.mem mem) (h : SetUp L k k' pt lf segs)
    (hload : Loadable segs) (hdone : ∀ t ∈ done, t ∈ segs) (ht : t ∈ segs)
    (hzero : ∀ i, t.data.getD i 0 = 0) :
    ∃ mem' done', loadSegment pt { k' with mem := mem } t = .ok { k' with mem := mem' } ∧
      (∀ t ∈ done', t ∈ segs) ∧ Zeroed (frameIn L k segs) done' k'.mem mem' := by
  obtain ⟨hnode, htree, hplain, hleaf⟩ := hz.tree h hload hdone
  have hlow : 0x100000 ≤ t.va := hload.low t ht
  have hhigh : t.va + t.size ≤ 0x300000 - 0x1000 := hload.high t ht
  have hva : t.va < MEMSIZE_VIRTUAL := show t.va < 0x300000 by omega
  have hdata := hload.data t ht
  have hrun : ∀ {it}, VmIter.new mem pt t.va = .ok it →
      loadSegment pt { k' with mem := mem } t =
        .ok { k' with mem := (mem.fill (it.pa mem) t.size 0).store (it.pa mem) t.data } := by
    intro it hnew
    rw [loadSegment, hnew, ok_bind]
    rfl
  rcases Nat.eq_zero_or_pos t.size with hsize | hsize
  · obtain ⟨it, hnew, -⟩ := VmIter.new_sees htree (.inl hplain)
      (VmIter.canonical_of_lt (Nat.le_of_lt hva))
    refine ⟨_, done, hrun hnew, hdone, ?_⟩
    have hsame : (mem.fill (it.pa mem) t.size 0).store (it.pa mem) t.data = mem := by
      funext b
      exact (loadSegment_store mem _ hdata).2 b (by omega)
    rw [hsame]
    exact hz
  · have hcov : VmIter.Covered mem pt t.va := by
      obtain ⟨p, hp⟩ := h.covered ht hload hsize
      exact ⟨p, (hnode 3 (Nat.le_refl 3) _).trans hp⟩
    obtain ⟨it, hnew, hpa⟩ := new_pa htree hcov hva
    obtain ⟨hin, hout⟩ := loadSegment_store mem (it.pa mem) hdata
    rcases hleaf (t.va / 4096) with hentry | ⟨habsent, -⟩
    · -- the entry is there, and the copy goes where the first frame is
      obtain ⟨-, hfree, hframe, -⟩ := h.frame ht (base_mem hsize)
      rw [base_div] at hframe
      have hhome : it.pa mem = t.home (frameIn L k segs) := by
        rw [hpa, hentry, hframe, if_pos (userEntry_frameEntry hfree.1.aligned _).present,
          hfree.1.frameEntry_and_pamask]
        rfl
      rw [hhome] at hin hout
      refine ⟨_, t :: done, by rw [hrun hnew, hhome], fun s hs => ?_, fun s hs b h1 h2 => ?_,
        fun b hb hmiss => ?_⟩
      · rcases List.mem_cons.mp hs with rfl | hs
        · exact ht
        · exact hdone s hs
      · by_cases hb : t.home (frameIn L k segs) ≤ b ∧ b < t.home (frameIn L k segs) + t.size
        · have hbyte := hin (b - t.home (frameIn L k segs)) (by omega)
          rw [Nat.add_sub_cancel' hb.1, hzero] at hbyte
          exact hbyte
        · rw [hout b (by omega)]
          rcases List.mem_cons.mp hs with rfl | hs
          · exact absurd ⟨h1, h2⟩ hb
          · exact hz.hit s hs b h1 h2
      · rw [hout b (hmiss t List.mem_cons_self)]
        exact hz.miss b hb fun s hs => hmiss s (List.mem_cons_of_mem _ hs)
    · -- the copy goes astray
      rw [if_neg (not_not_intro habsent)] at hpa
      rw [hpa] at hout
      refine ⟨_, done, by rw [hrun hnew, hpa], hdone, fun s hs b h1 h2 => ?_, fun b hb hmiss => ?_⟩
      · obtain ⟨hpos, -, hlt⟩ := h.home_range hload (hdone s hs) h1 h2
        obtain ⟨-, hfree, -⟩ := h.frame (hdone s hs)
          (pageOf_mem (show s.size - 1 < s.size by omega))
        have hbounds := hfree.1.bounds
        rw [hout b (.inl (by omega))]
        exact hz.hit s hs b h1 h2
      · rw [hout b (.inl hb)]
        exact hz.miss b hb hmiss

/-- All segments of zeros. -/
theorem Zeroed.run (h : SetUp L k k' pt lf segs) (hload : Loadable segs)
    (hzero : ∀ t ∈ segs, ∀ i, t.data.getD i 0 = 0) {rest : List Segment}
    (hrest : ∀ t ∈ rest, t ∈ segs) (hdone : ∀ t ∈ done, t ∈ segs)
    (hz : Zeroed (frameIn L k segs) done k'.mem mem) :
    ∃ mem' done', rest.foldlM (loadSegment pt) { k' with mem := mem } =
    .ok { k' with mem := mem' } ∧
      (∀ t ∈ done', t ∈ segs) ∧ Zeroed (frameIn L k segs) done' k'.mem mem' := by
  induction rest generalizing mem done with
  | nil => exact ⟨mem, done, rfl, hdone, hz⟩
  | cons t rest ih =>
    have ht := hrest t List.mem_cons_self
    obtain ⟨mem₁, done₁, hrun₁, hdone₁, hz₁⟩ := hz.step h hload hdone ht (hzero t ht)
    obtain ⟨mem', done', hrun, hdone', hz'⟩ :=
      ih (fun s hs => hrest s (List.mem_cons_of_mem _ hs)) hdone₁ hz₁
    exact ⟨mem', done', by rw [List.foldlM_cons, hrun₁]; exact hrun, hdone', hz'⟩

/-- The table is still one under construction; what it no longer maps is
spare. -/
theorem Zeroed.building (hz : Zeroed (frameIn L k segs) done k'.mem mem)
    (h : SetUp L k k' pt lf segs) (hload : Loadable segs) (hdone : ∀ t ∈ done, t ∈ segs) :
    ∃ spare, Building L { k with mem := mem } { k' with mem := mem } pt (leaf mem pt) spare := by
  obtain ⟨hnode, htree, hplain, hleaf⟩ := hz.tree h hload hdone
  have hb := h.building
  have htable : ∀ p, IsTable mem pt p ↔ IsTable k'.mem pt p := by
    intro p
    constructor <;> rintro ⟨d, hd, x, hp⟩
    · exact ⟨d, hd, x, (hnode d hd x).symm.trans hp⟩
    · exact ⟨d, hd, x, (hnode d hd x).trans hp⟩
  have hholds : ∀ p, holds mem pt p ≤ holds k'.mem pt p := by
    intro p
    rw [holds, holds, tableRef_congr (htable p)]
    refine Nat.add_le_add_right (frameCount_le fun vpn _ => ?_) _
    rcases hleaf vpn with heq | ⟨habsent, -⟩
    · rw [heq, hb.leaf]
    · rw [frameRef_of_not_user fun huser => huser.present habsent]
      exact Nat.zero_le _
  refine ⟨fun p => holds k'.mem pt p - holds mem pt p, htree, hplain, rfl,
    fun p hp => hb.tables p ((htable p).mp hp), fun p hp => ⟨(hb.isFresh p hp).1, ?_⟩,
    fun p hp => ?_, hb.grown, fun p _ _ => .refl _ _, hb.ptable, hb.current⟩
  · have hle := hholds p
    omega
  · have hrefs := hb.refs p hp
    show (k'.refs p : Int) = k.refs p + holds mem pt p + (holds k'.mem pt p - holds mem pt p)
    omega

/-- The only copy that reaches a segment's last byte is its own, and only if
its frames follow each other. -/
theorem SetUp.last_byte (h : SetUp L k k' pt lf segs) (hload : Loadable segs) {s : Segment}
    (hs : s ∈ segs) (ht : t ∈ segs) (hsize : 0 < s.size)
    (h1 : t.home (frameIn L k segs) ≤
      frameIn L k segs (s.pageOf (s.size - 1)) + (s.va + (s.size - 1)) % 4096)
    (h2 : frameIn L k segs (s.pageOf (s.size - 1)) + (s.va + (s.size - 1)) % 4096 <
      t.home (frameIn L k segs) + t.size) :
    frameIn L k segs (s.pageOf (s.size - 1)) + s.base ≤
      frameIn L k segs s.base + s.pageOf (s.size - 1) := by
  have hlast := pageOf_mem (show s.size - 1 < s.size by omega)
  have hpage : s.pageOf (s.size - 1) = (s.va + (s.size - 1)) / 4096 * 4096 := rfl
  by_cases hst : s = t
  · subst hst
    have hbase := base_eq s
    rw [Segment.home] at h2
    omega
  · -- the frames of another segment are all lower or all higher
    exfalso
    let R : Segment → Segment → Prop := fun s t =>
      (∀ a ∈ s.pages, ∀ b ∈ t.pages, frameIn L k segs a < frameIn L k segs b) ∨
        ∀ a ∈ t.pages, ∀ b ∈ s.pages, frameIn L k segs a < frameIn L k segs b
    have hsymm : Std.Symm R := ⟨fun _ _ h => h.symm⟩
    have hpairs : segs.Pairwise R := (h.ordered hload).2.imp fun h => .inl h
    obtain ⟨htsize, hlow, hhigh⟩ := h.home_range hload ht h1 h2
    have htlast := pageOf_mem (show t.size - 1 < t.size by omega)
    have hal := (h.frame hs hlast).2.1.1.aligned
    have hal₁ := (h.frame ht (base_mem htsize)).2.1.1.aligned
    have hal₂ := (h.frame ht htlast).2.1.1.aligned
    rcases hpairs.forall hs ht hst with hlt | hlt
    · have hlt := hlt _ hlast _ (base_mem htsize)
      omega
    · have hlt := hlt _ htlast _ hlast
      omega

end

section

variable {L : Layout} {k k' : Kernel} {P : Programs} {name : String} {pid : Nat}

/-- **A program of zeros that is loaded right** has its segments in
contiguous frames. -/
theorem contiguous_of_loaded (hk : KernelTable L k.mem) (hload : Loadable (P.segments name))
    (hroom : ((P.segments name).flatMap Segment.pages).length + 6 ≤ (freePages L k).length)
    (hzero : ∀ t ∈ P.segments name, ∀ i, t.data.getD i 0 = 0)
    (hrun : processSetup L P pid name k = .ok k')
    (hloaded : Loaded L (P.segments name) k k' (k'.root pid)) :
    Contiguous L k (P.segments name) := by
  obtain ⟨pt, k₁, lf, hset, hmaps⟩ := processSetup_maps hk hload hroom pid
  have hstart : Zeroed (frameIn L k (P.segments name)) [] k₁.mem k₁.mem :=
    ⟨fun t ht => absurd ht List.not_mem_nil, fun _ _ _ => rfl⟩
  obtain ⟨mem, done, hcopy, hdone, hz⟩ := Zeroed.run hset hload hzero (fun _ ht => ht)
    (fun t ht => absurd ht List.not_mem_nil) hstart
  obtain ⟨hnode, htree, hplain, hleaf⟩ := hz.tree hset hload hdone
  obtain ⟨spare, hb⟩ := hz.building hset hload hdone
  have hstackEntry : leaf mem pt (0x2FF000 / 4096) = lf (0x2FF000 / 4096) := by
    rcases hleaf (0x2FF000 / 4096) with heq | ⟨-, hle⟩
    · exact heq
    · rw [hset.stack_empty hload] at hle ⊢
      exact Nat.eq_zero_of_le_zero hle
  obtain ⟨q, k₂, hstack, hb₂, hkept, -⟩ :=
    hset.mapStack hload hroom hstackEntry (fun _ hl => hl.congr hnode) hb
  -- what the finished process reads
  have hmem : k'.mem = k₂.mem ∧ k'.root pid = pt := by
    rw [hmaps, finishSetup, hcopy, ok_bind, hstack] at hrun
    cases hrun
    exact ⟨rfl, by simp only [Kernel.root, Function.update_self]⟩
  intro s hs a ha f p hf hp
  have hbasemem : s.base ∈ s.pages := by
    have ha := mem_pages.mp ha
    have hbase := base_eq s
    exact mem_pages.mpr ⟨by omega, Nat.le_refl _, by omega⟩
  rw [(hset.frame hs hbasemem).1] at hf
  rw [(hset.frame hs ha).1] at hp
  cases hf
  cases hp
  rcases Nat.eq_zero_or_pos s.size with hsize | hsize
  · have hrange := mem_pages.mp ha
    have hbase := base_eq s
    obtain rfl : a = s.base := by omega
    omega
  · have hlast := pageOf_mem (show s.size - 1 < s.size by omega)
    have hpage : s.pageOf (s.size - 1) = (s.va + (s.size - 1)) / 4096 * 4096 := rfl
    have hle : a ≤ s.pageOf (s.size - 1) := by
      have ha := mem_pages.mp ha
      omega
    have hfirst := hset.spread hload hs hbasemem ha (mem_pages.mp ha).2.1
    have hrest := hset.spread hload hs ha hlast hle
    suffices hback : frameIn L k (P.segments name) (s.pageOf (s.size - 1)) + s.base ≤
        frameIn L k (P.segments name) s.base + s.pageOf (s.size - 1) by
      have hlow := (mem_pages.mp ha).2.1
      omega
    obtain ⟨pa, perm, hlook, huser, hbyte⟩ := hloaded.bytes s hs (s.size - 1) (by omega)
    rw [hmem.1, hmem.2] at hlook
    rw [hmem.1, hzero s hs] at hbyte
    obtain ⟨-, hfree, hentry, hfill⟩ := hset.frame hs hlast
    have hdiv : s.pageOf (s.size - 1) / 4096 = (s.va + (s.size - 1)) / 4096 :=
      Nat.mul_div_cancel _ (by decide)
    have hrange := hload.inUserRange hs hlast
    have hva : s.va + (s.size - 1) < 0x2FF000 := by
      have hlt := (hload.range hs hlast).2
      omega
    have hother : (s.va + (s.size - 1)) / 4096 ≠ 0x2FF000 / 4096 := by omega
    have hlow : s.va + (s.size - 1) < MEMSIZE_VIRTUAL :=
      show s.va + (s.size - 1) < 0x300000 by omega
    have hleaf₂ : Function.update (leaf mem pt) (0x2FF000 / 4096) (frameEntry q true)
        ((s.va + (s.size - 1)) / 4096) = leaf mem pt ((s.va + (s.size - 1)) / 4096) :=
      Function.update_of_ne hother _ _
    rw [hdiv] at hentry hrange
    rcases hleaf ((s.va + (s.size - 1)) / 4096) with heq | ⟨habsent, -⟩
    · rw [heq, hentry] at hleaf₂
      rw [hb₂.look hlow hfree.1 hleaf₂] at hlook
      cases hlook
      obtain ⟨hused, hnot⟩ := hb.mapped hrange hfree.1 (heq.trans hentry)
      have hoff := Nat.mod_lt (s.va + (s.size - 1)) (by decide : 0 < 4096)
      have hbounds := hfree.1.bounds
      rw [hkept.mem _ hfree.1.aligned hused hnot _ hoff] at hbyte
      -- the byte is zero now, so a copy has reached it
      by_contra hback
      have hmiss := hz.miss (frameIn L k (P.segments name) (s.pageOf (s.size - 1)) +
        (s.va + (s.size - 1)) % 4096) (by omega) fun t ht => by
          by_contra hin
          exact hback (hset.last_byte hload hs (hdone t ht) hsize (by omega) (by omega))
      rw [hfill _ hoff] at hmiss
      exact absurd (hbyte.symm.trans hmiss) (by decide)
    · obtain ⟨pa', hlook'⟩ := hb₂.look_absent hlow (by rw [hleaf₂]; exact habsent)
      rw [hlook'] at hlook
      cases hlook
      exact absurd huser (by decide)

end

/-! ## Exactly when -/

/-- A segment with zeros for its data. -/
def Segment.blank (seg : Segment) : Segment :=
  { seg with data := List.replicate seg.data.length 0 }

/-- Two programs that differ in the contents of their segments at most. -/
def SameShape (segs segs' : List Segment) : Prop :=
  segs'.map Segment.blank = segs.map Segment.blank

section

variable {L : Layout} {k : Kernel} {segs segs' : List Segment} {P : Programs} {name : String}

theorem blank_blank (seg : Segment) : seg.blank.blank = seg.blank := by
  simp [Segment.blank]

theorem blank_data (seg : Segment) (i : Nat) : seg.blank.data.getD i 0 = 0 := by
  rw [Segment.blank, List.getD_eq_getElem?_getD, List.getElem?_replicate]
  split <;> rfl

theorem flatMap_blank (segs : List Segment) :
    (segs.map Segment.blank).flatMap Segment.pages = segs.flatMap Segment.pages := by
  rw [List.flatMap_map]
  rfl

theorem loadable_blank : Loadable (segs.map Segment.blank) ↔ Loadable segs := by
  constructor
  · intro h
    refine ⟨fun s hs => h.low s.blank (List.mem_map_of_mem hs),
      fun s hs => h.high s.blank (List.mem_map_of_mem hs), fun s hs => ?_,
      List.pairwise_map.mp h.apart⟩
    have hdata := h.data s.blank (List.mem_map_of_mem hs)
    rwa [Segment.blank, List.length_replicate] at hdata
  · intro h
    refine ⟨fun t ht => ?_, fun t ht => ?_, fun t ht => ?_, List.pairwise_map.mpr h.apart⟩ <;>
      obtain ⟨s, hs, rfl⟩ := List.mem_map.mp ht
    · exact h.low s hs
    · exact h.high s hs
    · rw [Segment.blank, List.length_replicate]
      exact h.data s hs

theorem contiguous_blank : Contiguous L k (segs.map Segment.blank) ↔ Contiguous L k segs := by
  have hframe : ∀ a, frameAt L k (segs.map Segment.blank) a = frameAt L k segs a := fun a => by
    rw [frameAt, frameAt, flatMap_blank]
  constructor
  · intro h s hs a ha f p hf hp
    exact h s.blank (List.mem_map_of_mem hs) a ha f p ((hframe _).trans hf) ((hframe _).trans hp)
  · intro h t ht a ha f p hf hp
    obtain ⟨s, hs, rfl⟩ := List.mem_map.mp ht
    rw [hframe] at hf hp
    exact h s hs a ha f p hf hp

theorem SameShape.flatMap (h : SameShape segs segs') :
    segs'.flatMap Segment.pages = segs.flatMap Segment.pages := by
  rw [← flatMap_blank, h, flatMap_blank]

theorem SameShape.loadable (h : SameShape segs segs') : Loadable segs' ↔ Loadable segs := by
  rw [← loadable_blank, h, loadable_blank]

theorem SameShape.contiguous (h : SameShape segs segs') :
    Contiguous L k segs' ↔ Contiguous L k segs := by
  rw [← contiguous_blank, h, contiguous_blank]

/-- The programs with zeros in their segments. -/
def Programs.blank (P : Programs) : Programs :=
  { P with image := fun name => (P.image name).map fun img =>
      { img with segments := img.segments.map Segment.blank } }

theorem segments_blank (P : Programs) (name : String) :
    P.blank.segments name = (P.segments name).map Segment.blank := by
  rw [Programs.segments, Programs.segments]
  cases h : P.image name <;> simp [Programs.blank, h]

/-- **`process_setup` loads a program right, whatever its contents,
exactly if** the frames of each segment follow each other. -/
theorem loads_iff_contiguous (hk : KernelTable L k.mem) (hload : Loadable (P.segments name))
    (hroom : ((P.segments name).flatMap Segment.pages).length + 6 ≤ (freePages L k).length)
    (pid : Nat) :
    (∀ P' : Programs, SameShape (P.segments name) (P'.segments name) →
      ∃ k', processSetup L P' pid name k = .ok k' ∧
        Loaded L (P'.segments name) k k' (k'.root pid)) ↔
      Contiguous L k (P.segments name) := by
  constructor
  · intro h
    have hblank : SameShape (P.segments name) (P.blank.segments name) := by
      rw [SameShape, segments_blank, List.map_map]
      exact List.map_congr_left fun seg _ => blank_blank seg
    obtain ⟨k', hrun, hloaded⟩ := h P.blank hblank
    refine hblank.contiguous.mp (contiguous_of_loaded hk (hblank.loadable.mpr hload)
      (by rw [hblank.flatMap]; exact hroom) (fun t ht i => ?_) hrun hloaded)
    rw [segments_blank] at ht
    obtain ⟨s, -, rfl⟩ := List.mem_map.mp ht
    exact blank_data s i
  · intro hcont P' hshape
    exact processSetup_loads hk (hshape.loadable.mpr hload) (by rw [hshape.flatMap]; exact hroom)
      (hshape.contiguous.mpr hcont) pid

end

/-! ## A gap at boot -/

/-- Two pages, whose frames follow each other. -/
theorem loads_iff_contiguous_booted :
    ∃ k, bootKernel smallLayout zeroed = .ok k ∧
      ((∀ P' : Programs, SameShape ((emptySegment 0x100000 0x2000).segments "program")
          (P'.segments "program") →
        ∃ k', processSetup smallLayout P' 1 "program" k = .ok k' ∧
          Loaded smallLayout (P'.segments "program") k k' (k'.root 1)) ↔
        Contiguous smallLayout k ((emptySegment 0x100000 0x2000).segments "program")) := by
  obtain ⟨k, hrun, hboot⟩ := bootKernel_spec smallLayout zeroed
  refine ⟨k, hrun, loads_iff_contiguous hboot.table
    ⟨by decide, by decide, by decide, by simp [emptySegment, Programs.segments]⟩ ?_ 1⟩
  rw [hboot.freePages]
  decide +kernel

/-- 64 pages do not fit below the kernel: the last byte of the program is
0xCC, not zero. -/
theorem loads_wrong_across_kernel :
    ∃ k, bootKernel smallLayout zeroed = .ok k ∧
      KernelTable smallLayout k.mem ∧
      Loadable ((emptySegment 0x100000 0x40000).segments "program") ∧
      (((emptySegment 0x100000 0x40000).segments "program").flatMap Segment.pages).length + 6 ≤
        (freePages smallLayout k).length ∧
      ¬ ∃ k', processSetup smallLayout (emptySegment 0x100000 0x40000) 1 "program" k = .ok k' ∧
        Loaded smallLayout ((emptySegment 0x100000 0x40000).segments "program") k k'
        (k'.root 1) := by
  obtain ⟨k, hrun, hboot⟩ := bootKernel_spec smallLayout zeroed
  have hload : Loadable ((emptySegment 0x100000 0x40000).segments "program") :=
    ⟨by decide, by decide, by decide, by simp [emptySegment, Programs.segments]⟩
  have hroom :
      (((emptySegment 0x100000 0x40000).segments "program").flatMap Segment.pages).length + 6 ≤
        (freePages smallLayout k).length := by
    rw [hboot.freePages]
    decide +kernel
  refine ⟨k, hrun, hboot.table, hload, hroom, ?_⟩
  rintro ⟨k', hsetup, hloaded⟩
  have hcont := contiguous_of_loaded hboot.table hload hroom (fun s hs i => by
    obtain rfl := List.mem_singleton.mp hs
    rfl) hsetup hloaded
  have hframe : ∀ a, frameAt smallLayout k ((emptySegment 0x100000 0x40000).segments "program") a =
      frameAt smallLayout (initialKernel zeroed)
        ((emptySegment 0x100000 0x40000).segments "program") a := by
    intro a
    rw [frameAt, frameAt, hboot.freePages]
  -- the 60th page gets the first frame behind the kernel
  exact absurd (hcont _ (List.mem_singleton_self _) 0x13B000 (by decide +kernel) 0x5000 0x46000
    ((hframe _).trans (by decide +kernel)) ((hframe _).trans (by decide +kernel))) (by decide)

end SystemsProjects.WeensyOS
