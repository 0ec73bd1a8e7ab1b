/-
SystemsProjects.Dmalloc.Diagnosis — what `dfree` says of a write past
the ends of a block, and of a pointer into the middle of one.

Behind a block lies its footer, which `dfree` compares; in front of it
lies the `line` field of its header, which `dfree` does not look at.
`Guarded` is what is left of `Sound` when a client also writes into the
eight bytes on either side of one block: every other block is intact, and
so is that block's header up to its last fields.

A pointer into a block passes for a header only through the client's own
bytes in front of it. `dfree_interior` goes through the tests of `dfree`
in their order; two of them answer before the search for the enclosing
block is reached.
-/
import SystemsProjects.Dmalloc.Accounting

namespace SystemsProjects.Dmalloc

open SystemsProjects.Base ByteMem

/-! ## Writes at the ends of a block -/

/-- A write into the eight bytes in front of a block's region, or into
the eight bytes behind it. -/
def BoundaryWrite (blk : Block) (w : World) : Op → Prop
  | .write addr data => blk ∈ w.live ∧
    (blk.ptr - 8 ≤ addr ∧ addr + data.length ≤ blk.ptr ∨
      blk.ptr + blk.size ≤ addr ∧ addr + data.length ≤ blk.ptr + blk.size + 8)
  | .dmalloc _ _ _ _ | .dcalloc _ _ _ _ _ | .dfree _ _ _ => False

/-- A client that keeps the rules, but for the ends of one block. -/
def Overrunning (blk : Block) (w : World) (op : Op) : Prop :=
  WellBehaved w op ∨ BoundaryWrite blk w op

/-- What holds whatever is written at the ends of `blk`. -/
structure Guarded (blk : Block) (w : World) : Prop where
  books : Books w
  others : ∀ old ∈ w.live, old ≠ blk → Intact w.s.mem old
  stamped : blk ∈ w.live → Stamped w.s.mem blk

theorem Stamped.congr {mem mem' : ByteMem} {blk : Block} (h : Stamped mem blk)
    (hroom : 64 ≤ blk.ptr) (hhdr : ∀ a, blk.ptr - 48 ≤ a → a < blk.ptr - 8 → mem' a = mem a) :
    Stamped mem' blk := by
  have hfield : ∀ off n, off + n ≤ 40 →
      mem'.read (blk.ptr - 48 + off) n = mem.read (blk.ptr - 48 + off) n := by
    intro off n hn
    exact read_congr fun i hi => hhdr _ (by omega) (by omega)
  exact ⟨(hfield 0 8 (by omega)).trans h.ptrVal, (hfield 8 8 (by omega)).trans h.allocSize,
    (hfield 16 4 (by omega)).trans h.isAllocated, (hfield 24 8 (by omega)).trans h.padding⟩

section

variable {blk : Block} {w w' : World} {op : Op}

theorem guarded_initial (blk : Block) (mem : ByteMem) : Guarded blk (World.initial mem) where
  books := books_initial mem
  others := by simp [World.initial]
  stamped := by simp [World.initial]

theorem Guarded.wellBehaved (h : Guarded blk w) (hok : WellBehaved w op)
    (hstep : StepKind w w' op) : Guarded blk w' := by
  refine ⟨books_step h.books hstep, fun old hold hne => ?_, fun hblk => ?_⟩
  · rcases hstep.live_cases hold with hlive | hnew
    · refine (h.others old hlive hne).congr (h.books.placed old hlive) (fun a h1 h2 => ?_)
        fun a h1 h2 => ?_
      · exact h.books.frame hok hstep hlive hold h1 (by omega) (.inl h2)
      · exact h.books.frame hok hstep hlive hold (by omega) h2 (.inr h1)
    · exact hnew
  · rcases hstep.live_cases hblk with hlive | hnew
    · refine (h.stamped hlive).congr (h.books.placed blk hlive).room fun a h1 h2 => ?_
      exact h.books.frame hok hstep hlive hblk h1 (by omega) (.inl (by omega))
    · exact hnew.stamped

/-- A boundary write misses every other block, and the header of its own
up to the last eight bytes. -/
theorem Guarded.boundaryWrite (h : Guarded blk w) (hwrite : BoundaryWrite blk w op)
    (hw : w.step op = some w') : Guarded blk w' := by
  cases op with
  | dmalloc sz file line b => exact hwrite.elim
  | dcalloc nmemb sz file line b => exact hwrite.elim
  | dfree ptr file line => exact hwrite.elim
  | write addr data =>
    obtain ⟨hblk, hrange⟩ := hwrite
    have hroom := (h.books.placed blk hblk).room
    have hkind : StepKind w w' (.write addr data) := step_cases trivial hw
    have hbooks := books_step h.books hkind
    cases hw
    refine ⟨hbooks, fun old hold hne => ?_, fun _ => ?_⟩
    · have hapart := h.books.apart_of_mem hold hblk hne
      have hroom' := (h.books.placed old hold).room
      unfold Apart ByteMem.Disjoint at hapart
      refine (h.others old hold hne).congr (h.books.placed old hold) (fun a h1 h2 => ?_)
        fun a h1 h2 => ?_
      · exact store_outside (by omega)
      · exact store_outside (by omega)
    · exact (h.stamped hblk).congr hroom fun a h1 h2 => store_outside (by omega)

theorem Guarded.step (h : Guarded blk w) (hadm : op.Admissible w) (hok : Overrunning blk w op)
    (hw : w.step op = some w') : Guarded blk w' :=
  hok.elim (fun hrules => h.wellBehaved hrules (step_cases hadm hw)) fun hb => h.boundaryWrite hb hw

theorem guarded_of_reaches {mem : ByteMem} (h : Reaches (Overrunning blk) mem w) :
    Guarded blk w := by
  induction h with
  | refl => exact guarded_initial blk mem
  | tail _ hstep ih =>
    obtain ⟨op, hadm, hok, hw⟩ := hstep
    exact ih.step hadm hok hw

end

/-! ## What `dfree` detects -/

/-- The lines that begin with `MEMORY BUG`. -/
def Message.isMemoryBug : Message → Bool
  | .insideRegion _ _ _ _ _ => false
  | .notAllocated _ _ _ | .notInHeap _ _ _ | .doubleFree _ _ _ | .wildWrite _ _ _ => true

/-- Prints the wild-write line, or aborts with a `MEMORY BUG` line. -/
def Detected (file line ptr : Nat) : FreeOutcome → Prop
  | .returned msgs _ => .wildWrite file line ptr ∈ msgs
  | .aborted msgs _ => ∃ msg ∈ msgs, msg.isMemoryBug

/-- Some byte of the footer is not the boundary value's. -/
def FooterChanged (mem : ByteMem) (blk : Block) : Prop :=
  ∃ i < 8, mem (blk.ptr + blk.size + i) ≠ byteAt BOUND_VAL i

theorem footerChanged_iff {mem : ByteMem} {blk : Block} :
    FooterChanged mem blk ↔ mem.read (blk.ptr + blk.size) 8 ≠ BOUND_VAL := by
  constructor
  · rintro ⟨i, hi, hne⟩ hread
    exact hne (byte_of_read hread hi)
  · intro hne
    by_contra hsame
    refine hne ((read_of_bytes (v := BOUND_VAL) fun i hi => ?_).trans (by decide))
    by_contra hbyte
    exact hsame ⟨i, hi, hbyte⟩

theorem Guarded.detected_iff {blk : Block} {w : World} (h : Guarded blk w) (hblk : blk ∈ w.live)
    (file line : Nat) : Detected file line blk.ptr (dfree blk.ptr file line w.s) ↔
      FooterChanged w.s.mem blk ∨ ∀ old ∈ w.returned, old.ptr + old.size ≤ blk.ptr := by
  have hbelow : blk.ptr ≥ w.s.stats.heapMax ↔
      ∀ old ∈ w.returned, old.ptr + old.size ≤ blk.ptr := by
    rw [ge_iff_le, ← Nat.not_lt, h.books.below_heapMax]
    constructor
    · intro hnone old hold
      exact Nat.not_lt.mp fun hlt => hnone ⟨old, hold, hlt⟩
    · rintro hall ⟨old, hold, hlt⟩
      exact absurd (hall old hold) (Nat.not_le.mpr hlt)
  rw [dfree_stamped (h.books.placed blk hblk) (h.stamped hblk)
    ((h.books.active _).mpr (List.mem_map_of_mem hblk))
    (h.books.heapMin blk (h.books.liveReturned blk hblk)), footerChanged_iff, ← hbelow]
  by_cases htop : blk.ptr ≥ w.s.stats.heapMax
  · rw [if_pos htop]
    exact iff_of_true ⟨_, List.mem_singleton_self _, rfl⟩ (.inr htop)
  · rw [if_neg htop, or_iff_left htop]
    by_cases hread : w.s.mem.read (blk.ptr + blk.size) 8 ≠ BOUND_VAL
    · rw [if_pos hread]
      exact iff_of_true (List.mem_singleton_self _) hread
    · rw [if_neg hread]
      exact iff_of_false List.not_mem_nil hread

/-- **Which boundary writes `dfree` detects**: in every world reached by a
client that keeps the rules but for writes into the eight bytes on either
side of one block, freeing that block raises an alarm exactly when a byte
behind the block is not as `dmalloc` left it, or no block ever returned
ends above the pointer. -/
theorem dfree_detects_iff {mem : ByteMem} {blk : Block} {w : World}
    (hreach : Reaches (Overrunning blk) mem w) (hblk : blk ∈ w.live) (file line : Nat) :
    Detected file line blk.ptr (dfree blk.ptr file line w.s) ↔
      FooterChanged w.s.mem blk ∨ ∀ old ∈ w.returned, old.ptr + old.size ≤ blk.ptr :=
  (guarded_of_reaches hreach).detected_iff hblk file line

theorem Reaches.mono {ok ok' : World → Op → Prop} {mem : ByteMem} {w : World}
    (h : Reaches ok mem w) (hok : ∀ w op, ok w op → ok' w op) : Reaches ok' mem w := by
  induction h with
  | refl => exact .refl
  | tail _ hstep ih =>
    obtain ⟨op, hadm, hop, hw⟩ := hstep
    exact ih.tail ⟨op, hadm, hok _ _ hop, hw⟩

/-- A block of 24 bytes at 64, and one byte written at `addr`. -/
theorem reaches_overrun (addr : Nat) (haddr : 56 ≤ addr ∧ addr < 64 ∨ 88 ≤ addr ∧ addr < 96) :
    Reaches (Overrunning ⟨64, 24⟩) (fun _ => 0)
      ⟨{ (oneBlock 24).s with mem := (oneBlock 24).s.mem.store addr [1] }, (oneBlock 24).live,
        (oneBlock 24).returned⟩ := by
  have halloc : Reaches (Overrunning ⟨64, 24⟩) (fun _ => 0) (oneBlock 24) :=
    (reaches_oneBlock (by decide)).mono fun _ _ hok => .inl hok
  refine halloc.tail ⟨.write addr [1], trivial, .inr ⟨List.mem_cons_self, ?_⟩, rfl⟩
  simp only [List.length_singleton]
  omega

/-- A byte behind the block. -/
theorem dfree_detects_iff_behind :
    ∃ w, Reaches (Overrunning ⟨64, 24⟩) (fun _ => 0) w ∧ FooterChanged w.s.mem ⟨64, 24⟩ ∧
      (Detected 0 0 64 (dfree 64 0 0 w.s) ↔
        FooterChanged w.s.mem ⟨64, 24⟩ ∨ ∀ old ∈ w.returned, old.ptr + old.size ≤ 64) :=
  ⟨_, reaches_overrun 88 (by decide), ⟨0, by decide, by decide⟩,
    dfree_detects_iff (reaches_overrun 88 (by decide)) List.mem_cons_self 0 0⟩

/-- **A write that goes unnoticed**: the byte in front of the region is
changed, and `dfree` prints nothing. -/
theorem write_in_front_undetected :
    ∃ w w', Reaches WellBehaved (fun _ => 0) w ∧ ⟨64, 24⟩ ∈ w.live ∧
      w.step (.write 63 [1]) = some w' ∧ w'.s.mem 63 ≠ w.s.mem 63 ∧
      ¬ Detected 0 0 64 (dfree 64 0 0 w'.s) := by
  refine ⟨oneBlock 24, _, reaches_oneBlock (by decide), List.mem_cons_self, rfl, by decide, ?_⟩
  have hg := guarded_of_reaches (reaches_overrun 63 (by decide))
  rw [hg.detected_iff List.mem_cons_self, footerChanged_iff]
  rintro (hfooter | habove)
  · exact hfooter (by decide)
  · exact absurd (habove ⟨64, 24⟩ List.mem_cons_self) (by decide)

/-! ## Pointers into a block -/

/-- In an ascending map the last key not above `key` is the largest. -/
theorem ActiveMap.prevUpperBound_eq {active : ActiveMap} {key : Nat} {item : Nat × Nat}
    (hs : active.Sorted) (hitem : item ∈ active) (hle : item.1 ≤ key)
    (hmax : ∀ other ∈ active, other.1 ≤ key → other.1 ≤ item.1) :
    active.prevUpperBound key = some item := by
  have hmem : item ∈ active.filter fun other => other.1 ≤ key :=
    List.mem_filter.mpr ⟨hitem, decide_eq_true hle⟩
  have hasc : (active.filter fun other => other.1 ≤ key).Pairwise fun a b => a.1 < b.1 :=
    hs.ascending.filter _
  obtain ⟨front, last, hsplit⟩ := List.eq_nil_or_concat'
    (active.filter fun other => other.1 ≤ key) |>.resolve_left (List.ne_nil_of_mem hmem)
  have hlast : last ∈ active.filter fun other => other.1 ≤ key := by
    rw [hsplit]
    exact List.mem_append_right _ (List.mem_singleton_self last)
  rw [ActiveMap.prevUpperBound, hsplit, List.getLast?_concat]
  rw [hsplit] at hmem hasc
  rcases List.mem_append.mp hmem with hfront | heq
  · -- an entry before the last has a smaller key
    have hlt := (List.pairwise_append.mp hasc).2.2 item hfront last (List.mem_singleton_self last)
    have hge := List.mem_filter.mp hlast
    have := hmax last hge.1 (of_decide_eq_true hge.2)
    omega
  · rw [List.mem_singleton.mp heq]

/-- The client's bytes in front of the pointer read as the header of a
block that was freed. -/
def LooksFreed (mem : ByteMem) (ptr : Nat) : Prop :=
  (readInfo mem (ptr - 48)).ptrVal = ptr ∧ (readInfo mem (ptr - 48)).isAllocated ≠ IS_ALLOC

instance (mem : ByteMem) (ptr : Nat) : Decidable (LooksFreed mem ptr) :=
  inferInstanceAs (Decidable (_ ∧ _))

section

variable {mem : ByteMem} {w : World} {log : List Site} {site : Site} {p : Nat}

/-- No live block starts inside another, past its start. -/
theorem Sound.not_live (h : Sound w) {blk : Block} (hblk : blk ∈ w.live)
    (hhigh : p < blk.ptr + blk.size) : ∀ old ∈ w.live, old.ptr ≤ p → old.ptr ≤ blk.ptr := by
  intro old hold hle
  by_cases he : old = blk
  · rw [he]
  · have hapart := h.books.apart_of_mem hold hblk he
    have hroom := (h.books.placed old hold).room
    have hroom' := (h.books.placed blk hblk).room
    unfold Apart ByteMem.Disjoint at hapart
    omega

/-- The search finds the block around the pointer. -/
theorem insideReport_eq (hacc : Accounts w log) (hs : Sound w) (hsite : site ∈ log)
    (hlow : site.block.ptr < p) (hhigh : p < site.block.ptr + site.block.size) :
    insideReport w.s p = [.insideRegion site.file site.line p (p - site.block.ptr)
      site.block.size] := by
  have hlive := hacc.mem_live hsite
  have hitem := (hacc.mem_active hs.books).mpr ⟨site, hsite, rfl⟩
  have hprev : w.s.active.prevUpperBound p = some (site.block.ptr, site.block.ptr - 48) := by
    refine ActiveMap.prevUpperBound_eq hacc.sorted hitem
      (Nat.le_of_lt hlow) fun other hother hle => ?_
    obtain ⟨site', hsite', rfl⟩ := (hacc.mem_active hs.books).mp hother
    exact hs.not_live hlive hhigh _ (hacc.mem_live hsite') hle
  have hsize := (hs.intact _ hlive).allocSize
  have hfits := (hs.books.placed _ hlive).fits
  obtain ⟨hfile, hline⟩ := hacc.headers site hsite
  have hin : p > site.block.ptr ∧ p < wrap (site.block.ptr + site.block.size) := by
    rw [wrap_of_lt (by omega)]
    exact ⟨hlow, hhigh⟩
  simp only [insideReport, hprev, hsize, hfile, hline, if_pos hin]

/-- What `dfree` says of a pointer strictly inside a live block. -/
theorem dfree_interior (h : Logged mem w log) (hsite : site ∈ log) (hlow : site.block.ptr < p)
    (hhigh : p < site.block.ptr + site.block.size) (file line : Nat) :
    dfree p file line w.s =
      if p % 16 ≠ 0 then .aborted [.notAllocated file line p] w.s
      else if LooksFreed w.s.mem p then .aborted [.doubleFree file line p] w.s
      else .aborted [.notAllocated file line p,
        .insideRegion site.file site.line p (p - site.block.ptr) site.block.size] w.s := by
  have hs := sound_of_reaches h.reaches
  have hacc := accounts_of_logged h
  have hlive := hacc.mem_live hsite
  have hroom := (hs.books.placed _ hlive).room
  have hfits := (hs.books.placed _ hlive).fits
  have hmin := hs.books.heapMin _ (hs.books.liveReturned _ hlive)
  have hmax := hs.books.heapMax _ (hs.books.liveReturned _ hlive)
  have hpos := hdrPos_eq (show 48 ≤ p by omega) (by omega)
  have hnot : w.s.active.count p = false := by
    refine Bool.eq_false_iff.mpr fun hcount => ?_
    obtain ⟨old, hold, hptr⟩ := List.mem_map.mp ((hs.books.active p).mp hcount)
    have := hs.not_live hlive hhigh old hold (Nat.le_of_eq hptr)
    omega
  have hbounds : ¬ (p < w.s.stats.heapMin ∨ p ≥ w.s.stats.heapMax) := by omega
  have haligned : (p - 48) % 16 ≠ 0 ↔ p % 16 ≠ 0 := by omega
  simp only [dfree, if_neg (show p ≠ 0 by omega), hpos, haligned, if_neg hbounds, hnot, or_true,
    if_true, insideReport_eq hacc hs hsite hlow hhigh, LooksFreed]
  rfl

/-- **When `dfree` names the block around a pointer**: in every world a
well-behaved client reaches, freeing a pointer strictly inside a live
block aborts with the line that it is not allocated, and the line with
the block's file, line, size and the offset, exactly when the pointer is
16-byte aligned and the bytes in front of it do not read as the header of
a freed block at the pointer. -/
theorem interior_diagnosed_iff (h : Logged mem w log) (hsite : site ∈ log)
    (hlow : site.block.ptr < p) (hhigh : p < site.block.ptr + site.block.size)
    (file line : Nat) :
    dfree p file line w.s = .aborted [.notAllocated file line p,
        .insideRegion site.file site.line p (p - site.block.ptr) site.block.size] w.s ↔
      p % 16 = 0 ∧ ¬ LooksFreed w.s.mem p := by
  rw [dfree_interior h hsite hlow hhigh]
  by_cases halign : p % 16 ≠ 0
  · rw [if_pos halign]
    refine iff_of_false (fun he => ?_) fun hc => halign hc.1
    have hmsgs := (FreeOutcome.aborted.inj he).1
    simp at hmsgs
  · rw [if_neg halign]
    by_cases hfreed : LooksFreed w.s.mem p
    · rw [if_pos hfreed]
      refine iff_of_false (fun he => ?_) fun hc => hc.2 hfreed
      have hmsgs := (FreeOutcome.aborted.inj he).1
      simp at hmsgs
    · rw [if_neg hfreed]
      exact iff_of_true rfl ⟨not_not.mp halign, hfreed⟩

end

/-- A block of 200 bytes at 64, allocated in line 8. -/
def twoHundredBytes : Op := .dmalloc 200 5 8 ⟨16, fun _ => 0⟩

theorem logged_twoHundredBytes :
    Logged (fun _ => 0)
      ((World.initial fun _ => 0).allocated
        (dmalloc 200 5 8 ⟨16, fun _ => 0⟩ (initialState fun _ => 0)) 200)
      [⟨⟨64, 200⟩, 5, 8⟩] :=
  Logged.start.step (show twoHundredBytes.Admissible _ from
    .inr ⟨by decide, by decide, fun _ h => absurd h List.not_mem_nil⟩) trivial rfl

/-- The pointer 128 bytes in. -/
theorem interior_diagnosed_iff_128 :
    ∃ w, Logged (fun _ => 0) w [⟨⟨64, 200⟩, 5, 8⟩] ∧
      (dfree 192 5 9 w.s =
          .aborted [.notAllocated 5 9 192, .insideRegion 5 8 192 128 200] w.s ↔
        192 % 16 = 0 ∧ ¬ LooksFreed w.s.mem 192) :=
  ⟨_, logged_twoHundredBytes,
    interior_diagnosed_iff logged_twoHundredBytes (List.mem_singleton_self _) (by decide)
      (by decide) 5 9⟩

/-- **A pointer into a block reported as a double free**: the client's
own bytes hold the pointer where `dfree` looks for `ptr_val`. -/
theorem interior_double_free :
    ∃ w log site p, Logged (fun _ => 0) w log ∧ site ∈ log ∧ site.block.ptr < p ∧
      p < site.block.ptr + site.block.size ∧
      dfree p 5 9 w.s = .aborted [.doubleFree 5 9 p] w.s := by
  have hwrite := logged_twoHundredBytes.step
    (show (Op.write 80 [128, 0, 0, 0, 0, 0, 0, 0]).Admissible _ from trivial)
    ⟨⟨64, 200⟩, by decide, by decide, by decide⟩ rfl
  refine ⟨_, _, ⟨⟨64, 200⟩, 5, 8⟩, 128, hwrite, List.mem_singleton_self _, by decide, by decide, ?_⟩
  rw [dfree_interior hwrite (List.mem_singleton_self _) (by decide) (by decide),
    if_neg (by decide), if_pos (by decide)]

end SystemsProjects.Dmalloc
