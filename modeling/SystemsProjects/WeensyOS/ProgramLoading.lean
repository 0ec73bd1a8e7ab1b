/-
SystemsProjects.WeensyOS.ProgramLoading — where `process_setup` loads a
program, and when it loads it right.

The pages of a segment get the frames that happen to be free, but the copy
goes to one range of physical memory, from the frame of the segment's
first page on. A program is loaded right if the frames of each segment
follow each other there (`Contiguous`).
-/
import SystemsProjects.WeensyOS.ProcessSetup
import SystemsProjects.WeensyOS.ExactMap

namespace SystemsProjects.WeensyOS

open SystemsProjects.Base
open SystemsProjects.Base.RadixTree

/-! ## Programs -/

/-- The address of a segment's first page. -/
def Segment.base (seg : Segment) : Nat := roundDown seg.va PAGESIZE

/-- The segments lie in the process's memory below its stack, share no
page, and hold their data. -/
structure Loadable (segs : List Segment) : Prop where
  low : ∀ seg ∈ segs, PROC_START_ADDR ≤ seg.va
  high : ∀ seg ∈ segs, seg.va + seg.size ≤ MEMSIZE_VIRTUAL - PAGESIZE
  data : ∀ seg ∈ segs, seg.data.length ≤ seg.size
  apart : segs.Pairwise fun s t => ∀ a ∈ s.pages, a ∉ t.pages

/-- The frame `process_setup` gives to the page at `a`; the first four
free pages become page-table pages. -/
def frameAt (L : Layout) (k : Kernel) (segs : List Segment) (a : Nat) : Option Nat :=
  frameOf a false (segs.flatMap Segment.pages) ((freePages L k).drop 4)

/-- The same for a page that has one. -/
def frameIn (L : Layout) (k : Kernel) (segs : List Segment) (a : Nat) : Nat :=
  (frameAt L k segs a).getD 0

/-- The frames of each segment follow each other. -/
def Contiguous (L : Layout) (k : Kernel) (segs : List Segment) : Prop :=
  ∀ seg ∈ segs, ∀ a ∈ seg.pages, ∀ f p, frameAt L k segs seg.base = some f →
    frameAt L k segs a = some p → p = f + (a - seg.base)

section

variable {seg : Segment} {segs : List Segment} {a : Nat}

theorem base_eq (seg : Segment) : seg.base = seg.va / 4096 * 4096 := rfl

theorem base_div (seg : Segment) : seg.base / 4096 = seg.va / 4096 :=
  Nat.mul_div_cancel _ (by decide)

theorem mem_pages : a ∈ seg.pages ↔ a % 4096 = 0 ∧ seg.base ≤ a ∧ a < seg.va + seg.size := by
  have hbase := base_eq seg
  rw [Segment.pages, List.mem_map]
  constructor
  · rintro ⟨i, hi, rfl⟩
    have hi : i < (seg.va + seg.size - seg.base + 4096 - 1) / 4096 := List.mem_range.mp hi
    show (seg.base + i * 4096) % 4096 = 0 ∧ seg.base ≤ seg.base + i * 4096 ∧
      seg.base + i * 4096 < seg.va + seg.size
    omega
  · rintro ⟨hal, hle, hlt⟩
    refine ⟨(a - seg.base) / 4096, List.mem_range.mpr ?_, ?_⟩
    · show (a - seg.base) / 4096 < (seg.va + seg.size - seg.base + 4096 - 1) / 4096
      omega
    · show seg.base + (a - seg.base) / 4096 * 4096 = a
      omega

theorem base_mem (hsize : 0 < seg.size) : seg.base ∈ seg.pages := by
  have hbase := base_eq seg
  rw [mem_pages]
  omega

theorem nodup_pages (seg : Segment) : seg.pages.Nodup := by
  refine List.nodup_range.map fun i j hij => ?_
  have hij : seg.base + i * 4096 = seg.base + j * 4096 := hij
  omega

theorem Loadable.range (h : Loadable segs) (hseg : seg ∈ segs) (ha : a ∈ seg.pages) :
    0x100000 ≤ a ∧ a < 0x2FF000 := by
  obtain ⟨hal, hle, hlt⟩ := mem_pages.mp ha
  have hlow : 0x100000 ≤ seg.va := h.low seg hseg
  have hhigh : seg.va + seg.size ≤ 0x300000 - 0x1000 := h.high seg hseg
  have hbase := base_eq seg
  omega

theorem Loadable.inUserRange (h : Loadable segs) (hseg : seg ∈ segs) (ha : a ∈ seg.pages) :
    InUserRange (a / 4096) := by
  have hrange := h.range hseg ha
  exact ⟨show 0x100 ≤ a / 4096 by omega, show a / 4096 < 0x300 by omega⟩

theorem requests_fst (segs : List Segment) :
    (requests segs).map Prod.fst = segs.flatMap Segment.pages := by
  simp [requests, List.map_flatMap, Function.comp_def]

theorem mem_requests {r : Nat × Bool} :
    r ∈ requests segs ↔ ∃ seg ∈ segs, r.1 ∈ seg.pages ∧ r.2 = seg.writable := by
  simp only [requests, List.mem_flatMap, List.mem_map]
  refine exists_congr fun seg => and_congr_right fun _ => ?_
  constructor
  · rintro ⟨a, ha, rfl⟩
    exact ⟨ha, rfl⟩
  · rintro ⟨ha, hw⟩
    exact ⟨r.1, ha, by rw [← hw]⟩

theorem Loadable.nodup_pages (h : Loadable segs) : (segs.flatMap Segment.pages).Nodup := by
  refine List.nodup_flatMap.mpr ⟨fun seg _ => WeensyOS.nodup_pages seg, h.apart.imp fun hst a => ?_⟩
  exact hst a

/-- No page is asked for twice. -/
theorem Loadable.nodup (h : Loadable segs) : ((requests segs).map fun r => r.1 / 4096).Nodup := by
  rw [show (fun r : Nat × Bool => r.1 / 4096) = (· / 4096) ∘ Prod.fst from rfl, ← List.map_map,
    requests_fst]
  refine h.nodup_pages.map_on fun a ha b hb hab => ?_
  obtain ⟨s, -, ha⟩ := List.mem_flatMap.mp ha
  obtain ⟨t, -, hb⟩ := List.mem_flatMap.mp hb
  have hal := (mem_pages.mp ha).1
  have hbl := (mem_pages.mp hb).1
  omega

end

/-! ## One segment -/

section

variable {L : Layout} {k₀ k : Kernel} {pt f : Nat} {lf : Nat → Nat} {spare : Nat → Int}
  {seg : Segment} {w : Bool}

/-- A segment's bytes, stored from `pa` on. -/
theorem loadSegment_store (mem : ByteMem) (pa : Nat) (hdata : seg.data.length ≤ seg.size) :
    (∀ i < seg.size, (mem.fill pa seg.size 0).store pa seg.data (pa + i) = seg.data.getD i 0) ∧
      ∀ b, b < pa ∨ pa + seg.size ≤ b → (mem.fill pa seg.size 0).store pa seg.data b = mem b := by
  refine ⟨fun i hi => ?_, fun b hb => ?_⟩
  · by_cases hlt : i < seg.data.length
    · rw [ByteMem.store, ByteMem.update_offset hlt]
    · rw [ByteMem.store_outside (by omega), ByteMem.fill, ByteMem.update_offset hi,
        List.getD_eq_default _ _ (Nat.le_of_not_lt hlt)]
  · rw [ByteMem.store_outside (by omega), ByteMem.fill_outside hb]

/-- **A segment** is loaded from its first frame on. -/
theorem loadSegment_spec (hb : Building L k₀ k pt lf spare) (hrange : InUserRange (seg.va / 4096))
    (hf : IsPage L f) (hentry : lf (seg.va / 4096) = frameEntry f w)
    (hdata : seg.data.length ≤ seg.size) :
    ∃ mem, loadSegment pt k seg = .ok { k with mem := mem } ∧
      (∀ i < seg.size, mem (f + seg.va % 4096 + i) = seg.data.getD i 0) ∧
      ∀ b, b < f + seg.va % 4096 ∨ f + seg.va % 4096 + seg.size ≤ b → mem b = k.mem b := by
  have hlow : seg.va < MEMSIZE_VIRTUAL := by
    have hrange : seg.va / 4096 < 0x300 := hrange.2
    show seg.va < 0x300000
    omega
  obtain ⟨it, hnew, hsees⟩ := VmIter.new_sees hb.tree (.inl hb.noLarge)
    (VmIter.canonical_of_lt (Nat.le_of_lt hlow))
  have hpresent : leaf k.mem pt (slot 4 seg.va) &&& PTE_P ≠ 0 := by
    rw [slot_page hlow, hb.leaf, hentry]
    exact (userEntry_frameEntry hf.aligned w).present
  have hpa : it.pa k.mem = f + seg.va % 4096 := by
    rw [hsees.pa_eq hpresent, slot_page hlow, hb.leaf, hentry, hf.frameEntry_and_pamask]
  obtain ⟨hin, hout⟩ := loadSegment_store k.mem (f + seg.va % 4096) hdata
  refine ⟨_, ?_, hin, hout⟩
  rw [loadSegment, hnew, ok_bind, hpa]
  rfl

/-- An empty segment changes nothing. -/
theorem loadSegment_empty (hb : Building L k₀ k pt lf spare) (hva : seg.va < MEMSIZE_VIRTUAL)
    (hsize : seg.size = 0) (hdata : seg.data.length ≤ seg.size) : loadSegment pt k seg = .ok k := by
  obtain ⟨it, hnew, -⟩ := VmIter.new_sees hb.tree (.inl hb.noLarge)
    (VmIter.canonical_of_lt (Nat.le_of_lt hva))
  have hnil : seg.data.length = 0 := by omega
  have hsame : (k.mem.fill (it.pa k.mem) seg.size 0).store (it.pa k.mem) seg.data = k.mem := by
    funext b
    exact (loadSegment_store k.mem _ hdata).2 b (by omega)
  rw [loadSegment, hnew, ok_bind]
  show Except.ok
    { k with mem := (k.mem.fill (it.pa k.mem) seg.size 0).store (it.pa k.mem) seg.data } = _
  rw [hsame]

end

/-! ## All segments -/

/-- Where the first byte of a segment is loaded. -/
def Segment.home (fr : Nat → Nat) (seg : Segment) : Nat := fr seg.base + seg.va % 4096

/-- The pages of the segments are mapped to the frames `fr`, those of one
segment in a row. -/
structure Placed (L : Layout) (k₀ : Kernel) (lf fr : Nat → Nat) (segs : List Segment) : Prop where
  frame : ∀ seg ∈ segs, ∀ a ∈ seg.pages, Free L k₀ (fr a) ∧
    lf (a / 4096) = frameEntry (fr a) seg.writable
  follows : ∀ seg ∈ segs, ∀ a ∈ seg.pages, fr a = fr seg.base + (a - seg.base)

section

variable {L : Layout} {k₀ k : Kernel} {pt : Nat} {lf fr : Nat → Nat} {spare : Nat → Int}
  {seg : Segment} {segs : List Segment}

/-- The page of byte `i` of a segment. -/
def Segment.pageOf (seg : Segment) (i : Nat) : Nat := (seg.va + i) / 4096 * 4096

theorem pageOf_mem {i : Nat} (hi : i < seg.size) : seg.pageOf i ∈ seg.pages := by
  have hbase := base_eq seg
  rw [mem_pages, Segment.pageOf]
  omega

/-- Byte `i` is loaded into the frame of its page. -/
theorem Placed.home_add (h : Placed L k₀ lf fr segs) (hseg : seg ∈ segs) {i : Nat}
    (hi : i < seg.size) : seg.home fr + i = fr (seg.pageOf i) + (seg.va + i) % 4096 := by
  have hfollows := h.follows seg hseg _ (pageOf_mem hi)
  have hbase := base_eq seg
  rw [Segment.home, hfollows, Segment.pageOf]
  omega

/-- The frame that contains it. -/
theorem Placed.frame_page (h : Placed L k₀ lf fr segs) (hseg : seg ∈ segs) {i : Nat}
    (hi : i < seg.size) : (seg.home fr + i) / 4096 * 4096 = fr (seg.pageOf i) := by
  have hal := (h.frame seg hseg _ (pageOf_mem hi)).1.1.aligned
  rw [h.home_add hseg hi]
  omega

/-- Segments are loaded into disjoint ranges. -/
theorem Placed.disjoint (h : Placed L k₀ lf fr segs) (hload : Loadable segs)
    (hb : Building L k₀ k pt lf spare) {s t : Segment} (hs : s ∈ segs) (ht : t ∈ segs)
    (hst : ∀ a ∈ s.pages, a ∉ t.pages) {i : Nat} (hi : i < s.size) :
    s.home fr + i < t.home fr ∨ t.home fr + t.size ≤ s.home fr + i := by
  by_contra hin
  obtain ⟨j, hj, hij⟩ : ∃ j < t.size, s.home fr + i = t.home fr + j :=
    ⟨s.home fr + i - t.home fr, by omega, by omega⟩
  have hps := pageOf_mem hi
  have hpt := pageOf_mem hj
  -- the two bytes are in one frame, so their pages are one
  have hframe : fr (s.pageOf i) = fr (t.pageOf j) := by
    rw [← h.frame_page hs hi, ← h.frame_page ht hj, hij]
  obtain ⟨hfree, hentry⟩ := h.frame s hs _ hps
  obtain ⟨-, hentry'⟩ := h.frame t ht _ hpt
  rw [← hframe] at hentry'
  have hvpn := hb.mapped_once (hload.inUserRange hs hps) (hload.inUserRange ht hpt) hfree hentry
    hentry'
  have hal := (mem_pages.mp hps).1
  have hal' := (mem_pages.mp hpt).1
  have heq : s.pageOf i = t.pageOf j := by omega
  rw [← heq] at hpt
  exact hst _ hps hpt

theorem Loadable.tail (h : Loadable (seg :: segs)) : Loadable segs where
  low := fun s hs => h.low s (List.mem_cons_of_mem _ hs)
  high := fun s hs => h.high s (List.mem_cons_of_mem _ hs)
  data := fun s hs => h.data s (List.mem_cons_of_mem _ hs)
  apart := (List.pairwise_cons.mp h.apart).2

theorem Placed.tail (h : Placed L k₀ lf fr (seg :: segs)) : Placed L k₀ lf fr segs where
  frame := fun s hs => h.frame s (List.mem_cons_of_mem _ hs)
  follows := fun s hs => h.follows s (List.mem_cons_of_mem _ hs)

/-- One segment in its place. -/
theorem loadPlaced_spec (hload : Loadable (seg :: segs)) (hp : Placed L k₀ lf fr (seg :: segs))
    (hb : Building L k₀ k pt lf spare) :
    ∃ mem, loadSegment pt k seg = .ok { k with mem := mem } ∧
      (∀ i < seg.size, mem (seg.home fr + i) = seg.data.getD i 0) ∧
      (∀ b, b < seg.home fr ∨ seg.home fr + seg.size ≤ b → mem b = k.mem b) ∧
      SameTables k.mem mem pt ∧ Building L k₀ { k with mem := mem } pt lf spare := by
  have hmem : seg ∈ seg :: segs := List.mem_cons_self
  have hdata := hload.data seg hmem
  have hlow : 0x100000 ≤ seg.va := hload.low seg hmem
  have hhigh : seg.va + seg.size ≤ 0x300000 - 0x1000 := hload.high seg hmem
  rcases Nat.eq_zero_or_pos seg.size with hsize | hsize
  · refine ⟨k.mem, loadSegment_empty hb (show seg.va < 0x300000 by omega) hsize hdata,
      fun i hi => ?_, fun b _ => rfl, .refl _ _, hb⟩
    omega
  · obtain ⟨hfree, hentry⟩ := hp.frame seg hmem seg.base (base_mem hsize)
    rw [base_div] at hentry
    obtain ⟨mem, hrun, hin, hout⟩ := loadSegment_spec hb
      ⟨show 0x100 ≤ seg.va / 4096 by omega,
      show seg.va / 4096 < 0x300 by omega⟩ hfree.1 hentry hdata
    have hsame : ∀ p, p % 4096 = 0 → (Free L k₀ p → ¬ Free L k p → IsTable k.mem pt p) →
        SamePage k.mem mem p := by
      intro p hpal hkept i hi
      refine hout (p + i) ?_
      by_contra hin
      obtain ⟨j, hj, hpj⟩ : ∃ j < seg.size, p + i = seg.home fr + j :=
        ⟨p + i - seg.home fr, by rw [Segment.home]; omega, by rw [Segment.home]; omega⟩
      -- the page written to is a frame of the segment
      have hframe := hp.frame_page hmem hj
      have hpeq : p = fr (seg.pageOf j) := by
        rw [← hframe, ← hpj]
        omega
      obtain ⟨hfree', hentry'⟩ := hp.frame seg hmem _ (pageOf_mem hj)
      rw [← hpeq] at hfree' hentry'
      obtain ⟨hused, hnot⟩ := hb.mapped (hload.inUserRange hmem (pageOf_mem hj)) hfree'.1 hentry'
      exact hnot (hkept hfree' hused)
    exact ⟨mem, hrun, hin, hout, fun p hp => hsame p (hb.tree.table_aligned hp) fun _ _ => hp,
      hb.store hsame⟩

/-- **All segments** in their places. -/
theorem loadSegments_spec (hload : Loadable segs) (hp : Placed L k₀ lf fr segs)
    (hb : Building L k₀ k pt lf spare) :
    ∃ mem, segs.foldlM (loadSegment pt) k = .ok { k with mem := mem } ∧
      (∀ seg ∈ segs, ∀ i < seg.size, mem (seg.home fr + i) = seg.data.getD i 0) ∧
      (∀ b, (∀ seg ∈ segs, b < seg.home fr ∨ seg.home fr + seg.size ≤ b) → mem b = k.mem b) ∧
      SameTables k.mem mem pt ∧ Building L k₀ { k with mem := mem } pt lf spare := by
  induction segs generalizing k with
  | nil =>
    exact ⟨k.mem, rfl, fun _ h => absurd h List.not_mem_nil, fun _ _ => rfl, .refl _ _, hb⟩
  | cons seg segs ih =>
    obtain ⟨mem₁, hrun₁, hin₁, hout₁, hsame₁, hb₁⟩ := loadPlaced_spec hload hp hb
    obtain ⟨mem, hrun, hin, hout, hsame, hb'⟩ := ih hload.tail hp.tail hb₁
    refine ⟨mem, by rw [List.foldlM_cons, hrun₁]; exact hrun, fun s hs i hi => ?_, fun b hb => ?_,
      hsame₁.trans hsame, hb'⟩
    · rcases List.mem_cons.mp hs with rfl | hs
      · -- the others are loaded elsewhere
        rw [hout _ fun t ht => hp.disjoint hload hb List.mem_cons_self (List.mem_cons_of_mem _ ht)
          ((List.pairwise_cons.mp hload.apart).1 t ht) hi]
        exact hin₁ i hi
      · exact hin s hs i hi
    · rw [hout b fun t ht => hb t (List.mem_cons_of_mem _ ht)]
      exact hout₁ b (hb seg List.mem_cons_self)

end

/-! ## `process_setup` -/

/-- What the table under construction maps once all segments have their
pages. -/
structure SetUp (L : Layout) (k k' : Kernel) (pt : Nat) (lf : Nat → Nat) (segs : List Segment) :
    Prop where
  building : Building L k k' pt lf fun _ => 0
  tables : ∃ high, LowTables k'.mem pt high ∧
    (freePages L k).length + 1 + lacking high (MEMSIZE_VIRTUAL - PAGESIZE) ≤
      (freePages L k').length + ((segs.flatMap Segment.pages).length + 6)
  frames : ∀ seg ∈ segs, ∀ a ∈ seg.pages, ∃ q, frameAt L k segs a = some q ∧ Free L k q ∧
    lf (a / 4096) = frameEntry q seg.writable ∧ ∀ i < 4096, k'.mem (q + i) = 0xCC
  others : ∀ vpn, (∀ seg ∈ segs, ∀ a ∈ seg.pages, a / 4096 ≠ vpn) → lf vpn = kernelEntry vpn
  first : ∀ d ≤ 3, ∀ p, nodeAt (child k'.mem) 512 pt d 0 = some p → p ∈ (freePages L k).take 4

section

variable {L : Layout} {k k' : Kernel} {pt : Nat} {lf : Nat → Nat} {P : Programs} {name : String}

/-- `process_setup` after the pages of the segments are mapped. -/
def finishSetup (L : Layout) (P : Programs) (pid : Nat) (program_name : String) (pt : Nat)
    (k : Kernel) : Except Fault Kernel := do
  let k ← (P.segments program_name).foldlM (loadSegment pt) k
  let k ← mapNewPage L pt (MEMSIZE_VIRTUAL - PAGESIZE) (framePerm true) k
  let regs := { initProcess with rip := P.entry program_name, rsp := MEMSIZE_VIRTUAL }
  let p := { k.ptable pid with pagetable := pt, state := .runnable, regs := regs }
  return { k with ptable := Function.update k.ptable pid p }

/-- The path to the tables for low addresses. -/
theorem LowTables.exists_node {mem : ByteMem} {high : Bool} (h : LowTables mem pt high) {d : Nat}
    (hd : d ≤ 3) : ∃ p, nodeAt (child mem) 512 pt d 0 = some p := by
  obtain ⟨p, hp⟩ := h.low
  rw [show slot 3 0 = 0 from rfl] at hp
  induction hd using Nat.decreasingInduction with
  | self => exact ⟨p, hp⟩
  | of_succ d hd ih =>
    obtain ⟨q, hq⟩ := ih
    rw [nodeAt, Nat.zero_div, Option.bind_eq_some_iff] at hq
    obtain ⟨r, hr, -⟩ := hq
    exact ⟨r, hr⟩

/-- **The pages** of a new process, mapped with enough pages left. -/
theorem processSetup_maps (hk : KernelTable L k.mem) (hload : Loadable (P.segments name))
    (hroom : ((P.segments name).flatMap Segment.pages).length + 6 ≤ (freePages L k).length)
    (pid : Nat) :
    ∃ pt k' lf, SetUp L k k' pt lf (P.segments name) ∧
      processSetup L P pid name k = finishSetup L P pid name pt k' := by
  cases hfree : freePages L k with
  | nil => simp [hfree] at hroom
  | cons pt l =>
    rw [hfree, List.length_cons] at hroom
    obtain ⟨k₁, hroot, hfree₁, honly, hb₁⟩ := kallocPagetable_cons hfree
    obtain ⟨k₂, hkernel, hb₂, hl₂, hfree₂⟩ :=
      setupKernelPages_spec hk hb₁ honly (by rw [hfree₁]; omega)
    obtain ⟨k₃, hconsole, hb₃, hl₃, hfree₃⟩ := hb₂.tryMapConsole hl₂
    have hfree₃ : freePages L k₃ = (freePages L k).drop 4 := by
      rw [hfree₃, hfree₂, hfree₁, hfree, List.drop_succ_cons]
    have hlen : (freePages L k₃).length = l.length - 3 := by
      rw [hfree₃, hfree, List.drop_succ_cons, List.length_drop]
    -- the stack page included, one page-table page more is needed
    have hneeded := needed_le false ((P.segments name).flatMap Segment.pages ++
      [MEMSIZE_VIRTUAL - PAGESIZE])
    rw [needed_append, needed, needed, List.length_append, List.length_singleton, Bool.false_or]
      at hneeded
    have hvalid : ∀ r ∈ requests (P.segments name), r.1 % 4096 = 0 ∧ InUserRange (r.1 / 4096) := by
      intro r hr
      obtain ⟨seg, hseg, ha, -⟩ := mem_requests.mp hr
      exact ⟨(mem_pages.mp ha).1, hload.inUserRange hseg ha⟩
    obtain ⟨k₄, lf, hpages, hb₄, has⟩ := mapRequests_spec hb₃ hl₃ hvalid hload.nodup
      (fun r hr => kernelEntry_of_user (hvalid r hr).2) (by rw [requests_fst]; omega)
    have htables := has.tables
    have hfree₄ := has.free
    rw [requests_fst] at hfree₄
    have hany : (requests (P.segments name)).any (fun r => decide (0x200000 ≤ r.1)) =
        ((P.segments name).flatMap Segment.pages).any fun a => decide (0x200000 ≤ a) := by
      rw [← requests_fst, List.any_map]
      rfl
    rw [Bool.false_or, hany] at htables
    have hfirst : ∀ q, Free L k₃ q → Free L k q := by
      intro q hq
      rw [← mem_freePages, hfree₃] at hq
      exact mem_freePages.mp (List.mem_of_mem_drop hq)
    refine ⟨pt, k₄, lf, ⟨hb₄, ⟨_, htables, ?_⟩, fun seg hseg a ha => ?_, fun vpn hvpn => ?_,
      fun d hd p hp => ?_⟩, ?_⟩
    · rw [hfree₄, List.length_drop, hfree, List.length_cons]
      omega
    · obtain ⟨q, hframe, hq, hentry, hfill⟩ := has.frames (a, seg.writable)
        (mem_requests.mpr ⟨seg, hseg, ha, rfl⟩)
      rw [requests_fst, hfree₃] at hframe
      exact ⟨q, hframe, hfirst q hq, hentry, hfill⟩
    · refine has.others vpn fun r hr => ?_
      obtain ⟨seg, hseg, ha, -⟩ := mem_requests.mp hr
      exact hvpn seg hseg r.1 ha
    · -- the page was there before the segments were mapped
      obtain ⟨r, hr⟩ := hl₃.exists_node hd
      have hrp := has.kept.grows d hd 0 r hr
      rw [hp] at hrp
      cases hrp
      have htable : IsTable k₃.mem pt p := ⟨d, hd, 0, hr⟩
      have hmem := mem_freePages.mpr (hb₃.tables p htable)
      rw [← List.take_append_drop 4 (freePages L k), ← hfree₃] at hmem
      rcases List.mem_append.mp hmem with hmem | hmem
      · exact hmem
      · exact absurd htable (hb₃.free_not_table (mem_freePages.mp hmem))
    · rw [processSetup, hroot]
      simp only [Option.getD_some, hkernel, ok_bind, mapAt_of_tryMapAt hconsole, if_true,
        mapSegments_eq, hpages]
      rfl

/-- The frame of a segment's page. -/
theorem SetUp.frame {segs : List Segment} {seg : Segment} {a : Nat} (h : SetUp L k k' pt lf segs)
    (hseg : seg ∈ segs) (ha : a ∈ seg.pages) :
    frameAt L k segs a = some (frameIn L k segs a) ∧ Free L k (frameIn L k segs a) ∧
      lf (a / 4096) = frameEntry (frameIn L k segs a) seg.writable ∧
      ∀ i < 4096, k'.mem (frameIn L k segs a + i) = 0xCC := by
  obtain ⟨q, hq, hframe⟩ := h.frames seg hseg a ha
  have hin : frameIn L k segs a = q := by
    rw [frameIn, hq]
    rfl
  rw [hin]
  exact ⟨hq, hframe⟩

/-- Contiguous frames are where the copy goes. -/
theorem SetUp.placed {segs : List Segment} (h : SetUp L k k' pt lf segs)
    (hcont : Contiguous L k segs) :
    Placed L k lf (frameIn L k segs) segs where
  frame := by
    intro seg hseg a ha
    obtain ⟨-, hfree, hentry, -⟩ := h.frame hseg ha
    exact ⟨hfree, hentry⟩
  follows := by
    intro seg hseg a ha
    have hbase : seg.base ∈ seg.pages := by
      have ha := mem_pages.mp ha
      have hbase := base_eq seg
      rw [mem_pages]
      omega
    exact hcont seg hseg a ha _ _ (h.frame hseg hbase).1 (h.frame hseg ha).1

/-- An absent entry maps nothing for the process. -/
theorem Building.look_absent {k₀ : Kernel} {spare : Nat → Int} {va : Nat}
    (h : Building L k₀ k pt lf spare) (hva : va < MEMSIZE_VIRTUAL)
    (habsent : lf (va / 4096) &&& PTE_P = 0) : ∃ pa, look k.mem pt va = .ok (pa, 0) := by
  obtain ⟨it, hnew, hsees⟩ := VmIter.new_sees h.tree (.inl h.noLarge)
    (VmIter.canonical_of_lt (Nat.le_of_lt hva))
  have hperm : it.perm k.mem = 0 := by
    rw [hsees.perm_eq, slot_page hva, h.leaf, entryPerm, if_neg (not_not_intro habsent)]
  refine ⟨it.pa k.mem, ?_⟩
  rw [WeensyOS.look, hnew, ok_bind, hperm]
  rfl

/-- What an address is mapped to whose entry is a frame. -/
theorem look_frame {mem : ByteMem} {root va q : Nat} {w : Bool} (ht : Tree mem root)
    (hplain : NoLarge mem root) (hva : va < MEMSIZE_VIRTUAL) (hq : IsPage L q)
    (hentry : leaf mem root (va / 4096) = frameEntry q w) :
    look mem root va = .ok (q + va % 4096, framePerm w) := by
  obtain ⟨it, hnew, hsees⟩ := VmIter.new_sees ht (.inl hplain)
    (VmIter.canonical_of_lt (Nat.le_of_lt hva))
  have hpresent := (userEntry_frameEntry hq.aligned w).present
  have hleaf : leaf mem root (slot 4 va) = frameEntry q w := by rw [slot_page hva, hentry]
  have hpa : it.pa mem = q + va % 4096 := by
    rw [hsees.pa_eq (by rw [hleaf]; exact hpresent), hleaf, hq.frameEntry_and_pamask]
  have hperm : it.perm mem = framePerm w := by
    rw [hsees.perm_eq, hleaf, entryPerm, if_pos hpresent, frameEntry,
      or_and_perm hq.aligned (by decide)]
    cases w <;> rfl
  rw [look, hnew, ok_bind, hpa, hperm]
  rfl

theorem Building.look {k₀ : Kernel} {spare : Nat → Int} {va q : Nat} {w : Bool}
    (h : Building L k₀ k pt lf spare) (hva : va < MEMSIZE_VIRTUAL) (hq : IsPage L q)
    (hentry : lf (va / 4096) = frameEntry q w) :
    look k.mem pt va = .ok (q + va % 4096, framePerm w) :=
  look_frame h.tree h.noLarge hva hq (by rw [h.leaf, hentry])

theorem framePerm_user (w : Bool) : framePerm w &&& (PTE_P ||| PTE_U) = PTE_P ||| PTE_U := by
  cases w <;> rfl

end

/-- A program is loaded right: through the page table at `pt` every byte
of its segments reads as in its file, or as zero behind the file's data,
and no page has changed but those that were taken. -/
structure Loaded (L : Layout) (segs : List Segment) (k k' : Kernel) (pt : Nat) : Prop where
  bytes : ∀ seg ∈ segs, ∀ i < seg.size, ∃ pa perm, look k'.mem pt (seg.va + i) = .ok (pa, perm) ∧
    perm &&& (PTE_P ||| PTE_U) = PTE_P ||| PTE_U ∧ k'.mem pa = seg.data.getD i 0
  others : ∀ p, p % 4096 = 0 → ¬ (Free L k p ∧ ¬ Free L k' p) → SamePage k.mem k'.mem p

section

variable {L : Layout} {k k' : Kernel} {pt : Nat} {lf : Nat → Nat} {P : Programs} {name : String}

/-- No segment has the stack page. -/
theorem SetUp.stack_empty (h : SetUp L k k' pt lf (P.segments name))
    (hload : Loadable (P.segments name)) : lf (0x2FF000 / 4096) = 0 := by
  rw [h.others _ fun seg hseg a ha => ?_]
  · rfl
  · have hlt := (hload.range hseg ha).2
    omega

/-- The stack page, mapped last. -/
theorem SetUp.mapStack {mem : ByteMem} {k₀ : Kernel} {lf' : Nat → Nat} {spare : Nat → Int}
    (h : SetUp L k k' pt lf (P.segments name)) (hload : Loadable (P.segments name))
    (hroom : ((P.segments name).flatMap Segment.pages).length + 6 ≤ (freePages L k).length)
    (hlf : lf' (0x2FF000 / 4096) = lf (0x2FF000 / 4096))
    (hl : ∀ high, LowTables k'.mem pt high → LowTables mem pt high)
    (hb : Building L k₀ { k' with mem := mem } pt lf' spare) :
    ∃ q k'', mapNewPage L pt (MEMSIZE_VIRTUAL - PAGESIZE) (framePerm true) { k' with mem := mem } =
        .ok k'' ∧
      Building L k₀ k'' pt (Function.update lf' (0x2FF000 / 4096) (frameEntry q true)) spare ∧
      Extends L { k' with mem := mem } k'' pt ∧ Free L k' q ∧ LowTables k''.mem pt true ∧
      (freePages L k).length ≤
        (freePages L k'').length + (((P.segments name).flatMap Segment.pages).length + 6) := by
  obtain ⟨high, hl', hcount⟩ := h.tables
  have hempty : lf' (0x2FF000 / 4096) = 0 := hlf.trans (h.stack_empty hload)
  cases hfree : freePages L k' with
  | nil =>
    rw [hfree, List.length_nil] at hcount
    omega
  | cons q rest =>
    rw [hfree, List.length_cons] at hcount
    have hcount : (freePages L k).length + 1 + lacking high 0x2FF000 ≤
      rest.length + 1 + (((P.segments name).flatMap Segment.pages).length + 6) := hcount
    obtain ⟨k'', hrun, hb', htables, hrest, -, hkept⟩ := hb.newPage (hl high hl')
      (show 0x2FF000 % 4096 = 0 from rfl) ⟨by decide, by decide⟩ hempty hfree (by omega) true
    rw [decide_eq_true (by decide), Bool.or_true] at htables
    refine ⟨q, k'', hrun, hb', hkept, mem_freePages.mp (hfree ▸ List.mem_cons_self), htables, ?_⟩
    rw [hrest, List.length_drop]
    omega

/-- What `process_setup` leaves: the table at `pt` maps the segments, with
their bytes, and the stack, all to new frames. -/
structure Built (L : Layout) (segs : List Segment) (k k' : Kernel) (pt : Nat) (lf : Nat → Nat) :
    Prop where
  building : Building L k k' pt lf fun _ => 0
  tables : LowTables k'.mem pt true
  frames : ∀ vpn, lf vpn = kernelEntry vpn ∨
    InUserRange vpn ∧ ∃ q w, Free L k q ∧ lf vpn = frameEntry q w
  bytes : ∀ seg ∈ segs, ∀ i < seg.size, ∃ q, Free L k q ∧
    lf ((seg.va + i) / 4096) = frameEntry q seg.writable ∧
    k'.mem (q + (seg.va + i) % 4096) = seg.data.getD i 0
  stack : ∃ q, Free L k q ∧ lf (0x2FF000 / 4096) = frameEntry q true
  others : ∀ vpn, (∀ seg ∈ segs, ∀ a ∈ seg.pages, a / 4096 ≠ vpn) → vpn ≠ 0x2FF000 / 4096 →
    lf vpn = kernelEntry vpn
  room : (freePages L k).length ≤
    (freePages L k').length + ((segs.flatMap Segment.pages).length + 6)

/-- The process that `process_setup` makes of slot `pid`. -/
def newProcess (P : Programs) (program_name : String) (pid pt : Nat) (k : Kernel) : Kernel :=
  let regs := { initProcess with rip := P.entry program_name, rsp := MEMSIZE_VIRTUAL }
  let p := { k.ptable pid with pagetable := pt, state := .runnable, regs := regs }
  { k with ptable := Function.update k.ptable pid p }

/-- **`process_setup`** builds the table of its process, if the frames of
each segment follow each other. -/
theorem processSetup_builds (hk : KernelTable L k.mem) (hload : Loadable (P.segments name))
    (hroom : ((P.segments name).flatMap Segment.pages).length + 6 ≤ (freePages L k).length)
    (hcont : Contiguous L k (P.segments name)) (pid : Nat) :
    ∃ pt k' lf, processSetup L P pid name k = .ok (newProcess P name pid pt k') ∧
      Built L (P.segments name) k k' pt lf := by
  obtain ⟨pt, k₁, lf, hset, hrun⟩ := processSetup_maps hk hload hroom pid
  have hplaced := hset.placed hcont
  obtain ⟨mem, hload₁, hin, -, hsame, hb⟩ := loadSegments_spec hload hplaced hset.building
  obtain ⟨q, k₂, hstack, hb₂, hkept, hq, hl, hcount⟩ :=
    hset.mapStack hload hroom rfl (fun _ => hsame.lowTables) hb
  refine ⟨pt, k₂, _, by rw [hrun, finishSetup, hload₁, ok_bind, hstack]; rfl, hb₂, hl,
    fun vpn => ?_,
    fun seg hseg i hi => ?_, ⟨q, hset.building.free_of hq, Function.update_self _ _ _⟩,
    fun vpn hpages hne => ?_, hcount⟩
  · rw [Function.update_apply]
    split
    · rename_i heq
      exact .inr ⟨by rw [heq]; exact ⟨by decide, by decide⟩, q, true, hset.building.free_of hq, rfl⟩
    · by_cases hpage : ∃ seg ∈ P.segments name, ∃ a ∈ seg.pages, a / 4096 = vpn
      · obtain ⟨seg, hseg, a, ha, rfl⟩ := hpage
        obtain ⟨hfree, hentry⟩ := hplaced.frame seg hseg a ha
        exact .inr ⟨hload.inUserRange hseg ha, _, _, hfree, hentry⟩
      · exact .inl (hset.others vpn fun seg hseg a ha heq => hpage ⟨seg, hseg, a, ha, heq⟩)
  · have hpage := pageOf_mem hi
    obtain ⟨hlow, hhigh⟩ := hload.range hseg hpage
    obtain ⟨hfree, hentry⟩ := hplaced.frame seg hseg _ hpage
    have hdiv : seg.pageOf i / 4096 = (seg.va + i) / 4096 := Nat.mul_div_cancel _ (by decide)
    have hother : (seg.va + i) / 4096 ≠ 0x2FF000 / 4096 := by
      rw [Segment.pageOf] at hhigh
      omega
    obtain ⟨hused, hnot⟩ := hb.mapped (hload.inUserRange hseg hpage) hfree.1 hentry
    rw [hdiv] at hentry
    refine ⟨_, hfree, by rw [Function.update_of_ne hother, hentry], ?_⟩
    rw [hkept.mem _ hfree.1.aligned hused hnot _ (Nat.mod_lt _ (by decide)),
      ← hplaced.home_add hseg hi]
    exact hin seg hseg i hi
  · rw [Function.update_of_ne hne]
    exact hset.others vpn hpages

/-- **`process_setup` loads a program right** if the frames of each
segment follow each other. -/
theorem processSetup_loads (hk : KernelTable L k.mem) (hload : Loadable (P.segments name))
    (hroom : ((P.segments name).flatMap Segment.pages).length + 6 ≤ (freePages L k).length)
    (hcont : Contiguous L k (P.segments name)) (pid : Nat) :
    ∃ k', processSetup L P pid name k = .ok k' ∧ Loaded L (P.segments name) k k' (k'.root pid) := by
  obtain ⟨pt, k₁, lf, hrun, hbuilt⟩ := processSetup_builds hk hload hroom hcont pid
  refine ⟨_, hrun, ?_⟩
  simp only [Kernel.root, newProcess, Function.update_self]
  refine ⟨fun seg hseg i hi => ?_, fun p hp hnot => hbuilt.building.mem p hp fun hfree => ?_⟩
  · obtain ⟨q, hfree, hentry, hbyte⟩ := hbuilt.bytes seg hseg i hi
    have hlow : seg.va + i < MEMSIZE_VIRTUAL := by
      have hhigh : seg.va + seg.size ≤ 0x300000 - 0x1000 := hload.high seg hseg
      show seg.va + i < 0x300000
      omega
    exact ⟨_, _, hbuilt.building.look hlow hfree.1 hentry, framePerm_user _, hbyte⟩
  · by_contra hused
    exact hnot ⟨hfree, hused⟩

end

end SystemsProjects.WeensyOS
