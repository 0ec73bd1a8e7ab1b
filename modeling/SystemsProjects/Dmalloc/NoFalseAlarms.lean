/-
SystemsProjects.Dmalloc.NoFalseAlarms — what `dfree` reports to a client
that keeps the rules.

The headers and footers of a well-behaved client's blocks stay intact
(`Sound`), so of the five tests of `dfree` only the bounds test can fail.
`heap_max` is the largest end of a block ever returned, and the test asks
for a pointer strictly below it: a block of size 0 above every other
block's end is refused.
-/
import SystemsProjects.Dmalloc.Runs

namespace SystemsProjects.Dmalloc

open SystemsProjects.Base ByteMem

/-! ## Blocks stay intact -/

/-- The books are right and every live block is as `dmalloc` left it. -/
structure Sound (w : World) : Prop where
  books : Books w
  intact : ∀ blk ∈ w.live, Intact w.s.mem blk

theorem sound_initial (mem : ByteMem) : Sound (World.initial mem) where
  books := books_initial mem
  intact := by simp [World.initial]

/-- A block that is live after a step was live before it, or the step
handed it out. -/
theorem StepKind.live_cases {w w' : World} {op : Op} (hstep : StepKind w w' op) {blk : Block}
    (hblk : blk ∈ w'.live) : blk ∈ w.live ∨ Intact w'.s.mem blk := by
  cases hstep with
  | failed hs hlive hret => exact .inl (hlive ▸ hblk)
  | freedNull hs hlive hret => exact .inl (List.mem_of_mem_filter (hlive ▸ hblk))
  | freed n hne hactive hs hlive hret => exact .inl (List.mem_of_mem_filter (hlive ▸ hblk))
  | wrote hs hlive hret => exact .inl (hlive ▸ hblk)
  | handedOut new hs hlive hret =>
    cases List.mem_cons.mp (hlive ▸ hblk) with
    | inl he => rw [he]; exact .inr hs.intact
    | inr hold => exact .inl hold

/-- A step of a well-behaved client leaves the header and footer alone of
every block that is live before it and after. -/
theorem Books.frame {w w' : World} {op : Op} (h : Books w) (hok : WellBehaved w op)
    (hstep : StepKind w w' op) {blk : Block} (hblk : blk ∈ w.live) (hblk' : blk ∈ w'.live) {a : Nat}
    (hlow : blk.ptr - 48 ≤ a) (hhigh : a < blk.ptr + blk.size + 8)
    (hout : a < blk.ptr ∨ blk.ptr + blk.size ≤ a) : w'.s.mem a = w.s.mem a := by
  have hroom := (h.placed blk hblk).room
  cases hstep with
  | failed hs hlive hret =>
    obtain ⟨nfail, failSize, hs⟩ := hs
    rw [hs]
  | freedNull hs hlive hret => rw [hs]
  | handedOut new hs hlive hret =>
    -- the new block is fresh, so the writes to it miss the old ones
    have hapart : Apart new blk := hs.fresh _ (h.blocks blk hblk)
    have hroom' := hs.placed.room
    unfold Apart ByteMem.Disjoint at hapart
    exact hs.outside a (by omega)
  | freed n hne hactive hs hlive hret =>
    obtain ⟨gone, hgone, rfl⟩ := List.mem_map.mp ((h.active _).mp hactive)
    rw [hlive, List.mem_filter, decide_eq_true_eq] at hblk'
    have hapart := h.apart_of_mem hgone hblk fun he => hblk'.2 (he ▸ rfl)
    have hroom' := (h.placed gone hgone).room
    rw [(h.hdrPos (List.mem_map_of_mem hgone)).2] at hs
    rw [hs, (release_releases w.s gone.ptr n).mem]
    unfold Apart ByteMem.Disjoint at hapart
    exact write_outside (by omega)
  | wrote hs hlive hret =>
    obtain ⟨target, htarget, hstart, hend⟩ := hok
    rw [hs]
    by_cases he : target = blk
    · subst he
      exact store_outside (by omega)
    · have hapart := h.apart_of_mem htarget hblk he
      have hroom' := (h.placed target htarget).room
      unfold Apart ByteMem.Disjoint at hapart
      exact store_outside (by omega)

/-- A step of a well-behaved client keeps headers and footers. -/
theorem sound_step {w w' : World} {op : Op} (h : Sound w) (hok : WellBehaved w op)
    (hstep : StepKind w w' op) : Sound w' := by
  refine ⟨books_step h.books hstep, fun blk hblk' => ?_⟩
  rcases hstep.live_cases hblk' with hblk | hnew
  · refine (h.intact blk hblk).congr (h.books.placed blk hblk) (fun a h1 h2 => ?_) fun a h1 h2 => ?_
    · exact h.books.frame hok hstep hblk hblk' h1 (by omega) (.inl h2)
    · exact h.books.frame hok hstep hblk hblk' (by omega) h2 (.inr h1)
  · exact hnew

theorem sound_of_reaches {mem : ByteMem} {w : World} (h : Reaches WellBehaved mem w) :
    Sound w := by
  induction h with
  | refl => exact sound_initial mem
  | tail _ hstep ih =>
    obtain ⟨op, hadm, hok, hw⟩ := hstep
    exact sound_step ih hok (step_cases hadm hw)

/-! ## What `dfree` reports -/

/-- Returns and prints nothing. -/
def Silent (out : FreeOutcome) : Prop := ∃ s, out = .returned [] s

/-- The bounds test passes exactly when some block ever returned ends
above the pointer. -/
theorem Books.below_heapMax {w : World} (h : Books w) {ptr : Nat} :
    ptr < w.s.stats.heapMax ↔ ∃ blk ∈ w.returned, ptr < blk.ptr + blk.size := by
  constructor
  · intro hlt
    obtain hzero | ⟨blk, hblk, heq⟩ := h.heapTop
    · omega
    · exact ⟨blk, hblk, heq ▸ hlt⟩
  · rintro ⟨blk, hblk, hlt⟩
    exact Nat.lt_of_lt_of_le hlt (h.heapMax blk hblk)

/-- **When `dfree` raises no alarm**: in every world a well-behaved client
reaches, freeing null or a block it holds is silent exactly when the
pointer is null or some block ever returned ends above it. -/
theorem dfree_silent_iff {mem : ByteMem} {w : World} (hreach : Reaches WellBehaved mem w)
    {ptr : Nat} (hptr : ptr = 0 ∨ ptr ∈ w.livePtrs) (file line : Nat) :
    Silent (dfree ptr file line w.s) ↔
      (ptr = 0 ∨ ∃ blk ∈ w.returned, ptr < blk.ptr + blk.size) := by
  have hsound := sound_of_reaches hreach
  rcases hptr with rfl | hptr
  · exact iff_of_true ⟨w.s, rfl⟩ (.inl rfl)
  · obtain ⟨blk, hblk, rfl⟩ := List.mem_map.mp hptr
    have hroom := (hsound.books.placed blk hblk).room
    rw [← hsound.books.below_heapMax, or_iff_right (by omega)]
    constructor
    · rintro ⟨s, hfree⟩
      refine Nat.lt_of_not_le fun hle => ?_
      obtain ⟨msgs, habort⟩ := dfree_above file line (by omega) hle
      rw [habort] at hfree
      cases hfree
    · intro hlt
      exact dfree_intact (hsound.books.placed blk hblk) (hsound.intact blk hblk)
        ((hsound.books.active _).mpr hptr)
        (hsound.books.heapMin blk (hsound.books.liveReturned blk hblk)) hlt

/-- A world with one block, of `sz` bytes at 64. -/
def oneBlock (sz : Nat) : World :=
  (World.initial fun _ => 0).allocated
    (dmalloc sz 0 0 ⟨16, fun _ => 0⟩ (initialState fun _ => 0)) sz

theorem reaches_oneBlock {sz : Nat} (hsz : sz < 100) :
    Reaches WellBehaved (fun _ => 0) (oneBlock sz) := by
  refine .single ⟨.dmalloc sz 0 0 ⟨16, fun _ => 0⟩, ?_, trivial, rfl⟩
  refine .inr ⟨by decide, ?_, fun _ h => absurd h List.not_mem_nil⟩
  rw [wrap_of_lt (by simp only [hdrSz_eq, ftrSz_eq]; omega)]
  simp only [hdrSz_eq, ftrSz_eq]
  omega

theorem dfree_silent_oneBlock :
    Silent (dfree 64 0 0 (oneBlock 24).s) ↔
      (64 = 0 ∨ ∃ blk ∈ (oneBlock 24).returned, 64 < blk.ptr + blk.size) :=
  dfree_silent_iff (reaches_oneBlock (by decide)) (.inr (by decide)) 0 0

/-- **A false alarm**: freeing a block of size 0, the first ever returned,
aborts. -/
theorem dfree_zero_alarm :
    ¬ ∀ (mem : ByteMem) (w : World), Reaches WellBehaved mem w →
      ∀ ptr, (ptr = 0 ∨ ptr ∈ w.livePtrs) → ∀ file line, Silent (dfree ptr file line w.s) := by
  intro hclaim
  obtain ⟨s, hfree⟩ := hclaim _ _ (reaches_oneBlock (show 0 < 100 by decide)) 64
    (.inr (by decide)) 0 0
  have habove : (oneBlock 0).s.stats.heapMax ≤ 64 := by decide
  obtain ⟨msgs, habort⟩ := dfree_above 0 0 (by decide) habove
  rw [habort] at hfree
  cases hfree

end SystemsProjects.Dmalloc
