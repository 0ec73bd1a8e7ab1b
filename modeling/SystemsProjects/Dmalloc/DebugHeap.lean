/-
SystemsProjects.Dmalloc.DebugHeap — dmalloc.cc on top of basealloc.cc.

The runs of `Runs` take the answers of `base_malloc` from outside, within
its contract. Here they are those of basealloc.cc, which gets its blocks
from the system. A run of both together is a run of each
(`debugHeap_layers`), so what is true of the debugging allocator over any
base allocator is true of this program.

basealloc.cc promises not to overwrite freed allocations, and that is what
makes `dfree` find out about them: a header stays as the release left it
until its block is handed out again. So a pointer that has been returned is
active or is refused as freed twice (`freed_pointer_refused`), as long as
the client writes into its own blocks only.
-/
import SystemsProjects.Dmalloc.BaseAlloc
import SystemsProjects.Dmalloc.Runs

namespace SystemsProjects.Dmalloc

open SystemsProjects.Base ByteMem

/-! ## Both allocators -/

structure DebugHeap where
  upper : World
  lower : BaseAlloc.World

/-- What comes from outside in an allocation: random numbers, the block that
the system's `malloc` returns if it is called, and the bytes in it. -/
structure Outside where
  rand : Nat → Nat
  system : BaseAlloc.SystemResult
  contents : Nat → UInt8

inductive Call where
  | dmalloc (sz file line : Nat) (outside : Outside)
  | dcalloc (nmemb sz file line : Nat) (outside : Outside)
  | dfree (ptr file line : Nat)
  | write (addr : Nat) (data : List UInt8)

namespace Call

/-- The size that `dmalloc` is called with, if it is. -/
def size : Call → Option (Nat × Outside)
  | dmalloc sz _ _ outside => some (sz, outside)
  | dcalloc nmemb sz _ _ outside =>
    if ¬ (nmemb = 0 ∨ sz = 0) ∧ sz > SIZE_MAX / nmemb then none
    else some (wrap (nmemb * sz), outside)
  | dfree _ _ _ => none
  | write _ _ => none

/-- How many bytes `base_malloc` is asked for, if it is called. -/
def asked (c : Call) : Option (Nat × Outside) :=
  match c.size with
  | none => none
  | some (sz, outside) =>
    if sz > SIZE_MAX - hdrSz - ftrSz then none else some (wrap (hdrSz + sz + ftrSz), outside)

end Call

namespace DebugHeap

def initial (mem : ByteMem) : DebugHeap := ⟨World.initial mem, BaseAlloc.World.initial⟩

/-- What `base_malloc` returns. In a block that is handed out again are the
bytes that have been there. -/
def answer (h : DebugHeap) (c : Call) : BaseResult :=
  match c.asked with
  | none => ⟨0, fun _ => 0⟩
  | some (total, outside) =>
    let raw := (BaseAlloc.baseMalloc total outside.rand outside.system h.lower.s).1
    if raw ∈ h.lower.s.frees.map Prod.fst then ⟨raw, fun i => h.upper.s.mem (raw + i)⟩
    else ⟨raw, outside.contents⟩

/-- The call as one of the upper allocator alone. -/
def above (h : DebugHeap) (c : Call) : Op :=
  match c with
  | .dmalloc sz file line _ => .dmalloc sz file line (h.answer c)
  | .dcalloc nmemb sz file line _ => .dcalloc nmemb sz file line (h.answer c)
  | .dfree ptr file line => .dfree ptr file line
  | .write addr data => .write addr data

/-- What `dfree` passes to `base_free`, if it comes to that. -/
def givesBack (h : DebugHeap) (ptr file line : Nat) : Option Nat :=
  if ptr = 0 then none
  else
    match Dmalloc.dfree ptr file line h.upper.s with
    | .aborted _ _ => none
    | .returned _ _ => some (wrap (ptr + (2 ^ 64 - hdrSz)))

/-- The call of the lower allocator that belongs to it, if there is one. -/
def below (h : DebugHeap) (c : Call) : Option BaseAlloc.Op :=
  match c with
  | .dfree ptr file line => (h.givesBack ptr file line).map .free
  | c => c.asked.map fun request => .malloc request.1 request.2.rand request.2.system

/-- One step; `none` when `dfree` aborts. -/
def step (h : DebugHeap) (c : Call) : Option DebugHeap :=
  (h.upper.step (h.above c)).map fun upper =>
    ⟨upper,
      match h.below c with
      | none => h.lower
      | some op => h.lower.step op⟩

end DebugHeap

/-- The system's `malloc` keeps its contract: a block of its own that is
aligned and ends within the address space. -/
def Call.Admissible (h : DebugHeap) (c : Call) : Prop :=
  match c.asked with
  | none => True
  | some (total, outside) => outside.system.Fresh h.lower.s total ∧
      (outside.system.addr ≠ 0 → 16 ∣ outside.system.addr ∧
        outside.system.addr + outside.system.size ≤ 2 ^ 64)

/-- The heaps that a client reaches which takes only steps allowed by
`ok`. -/
inductive DebugHeap.Reaches (ok : World → Op → Prop) (mem : ByteMem) : DebugHeap → Prop
  | initial : Reaches ok mem (.initial mem)
  | step {h h' : DebugHeap} (c : Call) (hreach : Reaches ok mem h) (hadm : c.Admissible h)
      (hok : ok h.upper (h.above c)) (hstep : h.step c = some h') : Reaches ok mem h'

/-- A client that writes into its own blocks only. It may free anything. -/
def OwnWrites (w : World) : Op → Prop
  | .write addr data =>
    ∃ blk ∈ w.live, blk.ptr ≤ addr ∧ addr + data.length ≤ blk.ptr + blk.size
  | _ => True

/-! ## One step of both -/

section

variable {h h' : DebugHeap} {c : Call} {sz file line : Nat} {b : BaseResult} {s : State}

/-- The blocks handed out grow by what was asked for, if it was granted. -/
theorem dmalloc_base (sz file line : Nat) (b : BaseResult) (s : State) :
    (dmalloc sz file line b s).2.base =
      if sz > SIZE_MAX - hdrSz - ftrSz ∨ b.raw = 0 then s.base
      else s.base.handOut b.raw (wrap (hdrSz + sz + ftrSz)) := by
  by_cases hlarge : sz > SIZE_MAX - hdrSz - ftrSz
  · rw [if_pos (.inl hlarge), show dmalloc sz file line b s = (0, countFailure s sz) from
      if_pos hlarge]
    rfl
  · by_cases hraw : b.raw = 0
    · rw [if_pos (.inr hraw), show dmalloc sz file line b s = (0, countFailure s sz) by
        simp only [dmalloc, if_neg hlarge, baseMalloc, if_pos hraw]]
      rfl
    · rw [if_neg (not_or.mpr ⟨hlarge, hraw⟩)]
      simp only [dmalloc, if_neg hlarge, if_neg hraw, baseMalloc]

theorem dcalloc_base (nmemb sz file line : Nat) (b : BaseResult) (s : State) :
    (dcalloc nmemb sz file line b s).2.base =
      if ¬ (nmemb = 0 ∨ sz = 0) ∧ sz > SIZE_MAX / nmemb then s.base
      else (dmalloc (wrap (nmemb * sz)) file line b s).2.base := by
  rw [dcalloc]
  split
  · rfl
  · dsimp only
    split <;> rfl

/-- What the two records of the base allocator's blocks have in common. -/
theorem live_step_malloc (w : BaseAlloc.World) (frees : List Nat) (total : Nat) (e : Outside) :
    (w.step (.malloc total e.rand e.system)).live =
      (if (BaseAlloc.baseMalloc total e.rand e.system w.s).1 = 0 then ⟨w.live, frees⟩
        else BaseAllocator.handOut ⟨w.live, frees⟩
          (BaseAlloc.baseMalloc total e.rand e.system w.s).1 total).blocks := by
  rw [BaseAlloc.World.step]
  dsimp only
  split <;> rfl

theorem answer_raw {total : Nat} {e : Outside} (hasked : c.asked = some (total, e)) :
    (h.answer c).raw = (BaseAlloc.baseMalloc total e.rand e.system h.lower.s).1 := by
  rw [DebugHeap.answer, hasked]
  dsimp only
  split <;> rfl

theorem answer_none (hasked : c.asked = none) : (h.answer c).raw = 0 := by
  rw [DebugHeap.answer, hasked]

/-- A call of the base allocator that frees no block but a live one. -/
def FreesLive (w : BaseAlloc.World) : BaseAlloc.Op → Prop
  | .malloc _ _ _ => True
  | .free ptr => ptr ∈ w.live.map Prod.fst

/-- The worlds of the base allocator that such calls reach. -/
def ReachesLive (w : BaseAlloc.World) : Prop :=
  Relation.ReflTransGen (fun w w' => ∃ op : BaseAlloc.Op, op.Admissible w ∧ FreesLive w op ∧
    w' = w.step op) BaseAlloc.World.initial w

theorem ReachesLive.reaches {w : BaseAlloc.World} (h : ReachesLive w) : BaseAlloc.Reaches w :=
  Relation.ReflTransGen.mono (fun _ _ ⟨op, hadm, _, hstep⟩ => ⟨op, hadm, hstep⟩) _ _ h

/-- The two layers agree on what the base allocator has handed out. -/
structure Layered (ok : World → Op → Prop) (mem : ByteMem) (h : DebugHeap) : Prop where
  upper : Dmalloc.Reaches ok mem h.upper
  lower : ReachesLive h.lower
  blocks : h.upper.s.base.blocks = h.lower.live
  placed : ∀ a ∈ h.lower.s.system, 16 ∣ a.1 ∧ a.1 + a.2 ≤ 2 ^ 64

variable {ok : World → Op → Prop} {mem : ByteMem}

theorem Layered.reaches (hl : Layered ok mem h) : BaseAlloc.Reaches h.lower := hl.lower.reaches

theorem system_step_malloc {w : BaseAlloc.World} (hw : BaseAlloc.Reaches w) (total : Nat)
    (e : Outside) :
    (w.step (.malloc total e.rand e.system)).s.system = w.s.system ∨
      (e.system.addr ≠ 0 ∧ (w.step (.malloc total e.rand e.system)).s.system =
        (e.system.addr, e.system.size) :: w.s.system) := by
  have hsound := hw.sound.sound
  have hfrees : ∀ f ∈ w.s.frees, f.1 ≠ 0 :=
    fun f hf => hsound.backed_pos (hsound.frees_backed f hf)
  rw [BaseAlloc.World.step]
  rcases BaseAlloc.baseMalloc_cases total e.rand e.system hsound.enabled hfrees with
    ⟨i, f, -, -, hmalloc⟩ | ⟨hb, hmalloc⟩ | ⟨-, hmalloc⟩
  · rw [hmalloc]
    exact .inl rfl
  · rw [hmalloc]
    exact .inr ⟨hb, rfl⟩
  · rw [hmalloc]
    exact .inl rfl

theorem Layered.placed_malloc (hl : Layered ok mem h) (total : Nat) {e : Outside}
    (hplace : e.system.addr ≠ 0 → 16 ∣ e.system.addr ∧ e.system.addr + e.system.size ≤ 2 ^ 64) :
    ∀ a ∈ (h.lower.step (.malloc total e.rand e.system)).s.system,
      16 ∣ a.1 ∧ a.1 + a.2 ≤ 2 ^ 64 := by
  rcases system_step_malloc hl.reaches total e with hsame | ⟨hb, hnew⟩
  · rw [hsame]
    exact hl.placed
  · rw [hnew]
    exact List.forall_mem_cons.mpr ⟨hplace hb, hl.placed⟩

/-- The lower allocator's answer keeps the contract that the upper one
relies on. -/
theorem Layered.answer_admissible (hl : Layered ok mem h) (hadm : c.Admissible h) {total : Nat}
    (hasked : ∀ request, c.asked = some request → request.1 = total) :
    (h.answer c).Admissible h.upper.s.base total := by
  cases hc : c.asked with
  | none => exact .inl (answer_none hc)
  | some request =>
    obtain ⟨total', e⟩ := request
    obtain rfl : total' = total := hasked _ hc
    rw [Call.Admissible, hc] at hadm
    obtain ⟨hfresh, hplace⟩ := hadm
    have hbase : h.upper.s.base = ⟨h.lower.live, h.upper.s.base.frees⟩ := by
      rw [← hl.blocks]
    have hplaced := hl.placed_malloc total' hplace
    have hcontract := BaseAlloc.baseMalloc_admissible hl.reaches hfresh hplaced
      (h.answer c).contents h.upper.s.base.frees
    rw [← hbase, ← answer_raw (h := h) hc] at hcontract
    exact hcontract

theorem Layered.above_admissible (hl : Layered ok mem h) (hadm : c.Admissible h) :
    (h.above c).Admissible h.upper := by
  cases c with
  | dmalloc sz file line e =>
    refine hl.answer_admissible hadm fun request hc => ?_
    rw [Call.asked, Call.size] at hc
    dsimp only at hc
    split at hc
    · cases hc
    · cases hc
      rfl
  | dcalloc nmemb sz file line e =>
    refine hl.answer_admissible hadm fun request hc => ?_
    by_cases hover : ¬ (nmemb = 0 ∨ sz = 0) ∧ sz > SIZE_MAX / nmemb
    · simp only [Call.asked, Call.size, if_pos hover] at hc
      cases hc
    · simp only [Call.asked, Call.size, if_neg hover] at hc
      split at hc
      · cases hc
      · cases hc
        rfl
  | dfree ptr file line => trivial
  | write addr data => trivial

theorem layered_initial : Layered ok mem (DebugHeap.initial mem) where
  upper := .refl
  lower := .refl
  blocks := rfl
  placed := List.forall_mem_nil _

/-- An allocation adds the same block to both records. -/
theorem Layered.blocks_alloc (hl : Layered ok mem h) {s' : State}
    (hbase : s'.base =
      match c.asked with
      | none => h.upper.s.base
      | some (total, _) =>
        if (h.answer c).raw = 0 then h.upper.s.base
        else h.upper.s.base.handOut (h.answer c).raw total) :
    s'.base.blocks =
      (match c.asked.map fun request : Nat × Outside =>
          BaseAlloc.Op.malloc request.1 request.2.rand request.2.system with
        | none => h.lower
        | some op => h.lower.step op).live := by
  rw [hbase]
  cases hc : c.asked with
  | none => exact hl.blocks
  | some request =>
    obtain ⟨total, e⟩ := request
    have hsame : h.upper.s.base = ⟨h.lower.live, h.upper.s.base.frees⟩ := by rw [← hl.blocks]
    dsimp only [Option.map_some]
    rw [live_step_malloc h.lower h.upper.s.base.frees total e, ← answer_raw hc, ← hsame]

theorem World.allocated_base (w : World) (out : Nat × State) (sz : Nat) :
    (w.allocated out sz).s.base = out.2.base := by
  rw [allocated_s]

theorem Layered.blocks_dmalloc (hl : Layered ok mem h) {upper : World} {e : Outside}
    (hupper : h.upper.step (h.above (.dmalloc sz file line e)) = some upper) :
    upper.s.base.blocks = (match h.below (.dmalloc sz file line e) with
      | none => h.lower
      | some op => h.lower.step op).live := by
  refine hl.blocks_alloc (c := .dmalloc sz file line e) ?_
  cases hupper
  rw [World.allocated_base, dmalloc_base]
  by_cases hlarge : sz > SIZE_MAX - hdrSz - ftrSz
  · simp only [Call.asked, Call.size, hlarge, true_or, if_true]
  · simp only [Call.asked, Call.size, hlarge, false_or, if_false]

theorem Layered.blocks_dcalloc (hl : Layered ok mem h) {upper : World} {nmemb : Nat} {e : Outside}
    (hupper : h.upper.step (h.above (.dcalloc nmemb sz file line e)) = some upper) :
    upper.s.base.blocks = (match h.below (.dcalloc nmemb sz file line e) with
      | none => h.lower
      | some op => h.lower.step op).live := by
  refine hl.blocks_alloc (c := .dcalloc nmemb sz file line e) ?_
  cases hupper
  rw [World.allocated_base, dcalloc_base, dmalloc_base]
  by_cases hover : ¬ (nmemb = 0 ∨ sz = 0) ∧ sz > SIZE_MAX / nmemb
  · simp only [Call.asked, Call.size, if_pos hover]
  · by_cases hlarge : wrap (nmemb * sz) > SIZE_MAX - hdrSz - ftrSz
    · simp only [Call.asked, Call.size, if_neg hover, hlarge, true_or, if_true]
    · simp only [Call.asked, Call.size, if_neg hover, hlarge, false_or, if_false]

/-- What `dfree` gives back is the header of an active pointer. -/
theorem givesBack_cases (ptr file line : Nat) (h : DebugHeap) :
    (h.givesBack ptr file line = none ∧
      ∀ upper, h.upper.step (.dfree ptr file line) = some upper → upper.s = h.upper.s) ∨
    (ptr ≠ 0 ∧ h.upper.s.active.count ptr = true ∧
      h.givesBack ptr file line = some (wrap (ptr + (2 ^ 64 - hdrSz))) ∧
      ∀ upper, h.upper.step (.dfree ptr file line) = some upper →
        ∃ n, upper.s = release h.upper.s ptr (wrap (ptr + (2 ^ 64 - hdrSz))) n) := by
  by_cases hptr : ptr = 0
  · subst hptr
    refine .inl ⟨rfl, fun upper hupper => ?_⟩
    cases hupper
    rfl
  · rcases dfree_cases hptr file line h.upper.s with ⟨msgs, hfree⟩ | ⟨hactive, msgs, n, hfree⟩
    · refine .inl ⟨?_, fun upper hupper => ?_⟩
      · rw [DebugHeap.givesBack, if_neg hptr, hfree]
      · rw [World.step, hfree] at hupper
        cases hupper
    · refine .inr ⟨hptr, hactive, ?_, fun upper hupper => ⟨n, ?_⟩⟩
      · rw [DebugHeap.givesBack, if_neg hptr, hfree]
      · rw [World.step, hfree] at hupper
        cases hupper
        rfl

theorem Layered.blocks_dfree (hl : Layered ok mem h) {upper : World} {ptr : Nat}
    (hupper : h.upper.step (h.above (.dfree ptr file line)) = some upper) :
    upper.s.base.blocks = (match h.below (.dfree ptr file line) with
      | none => h.lower
      | some op => h.lower.step op).live := by
  rw [DebugHeap.below]
  rcases givesBack_cases ptr file line h with ⟨hnone, hsame⟩ | ⟨-, -, hsome, hrelease⟩
  · rw [hnone, hsame upper hupper]
    exact hl.blocks
  · obtain ⟨n, hs⟩ := hrelease upper hupper
    rw [hsome, hs]
    show (h.upper.s.base.takeBack _).blocks = _
    rw [BaseAllocator.takeBack, hl.blocks]
    rfl

/-- The three things that a call can be for the lower allocator. -/
inductive Below (h : DebugHeap) (c : Call) : Prop
  | nothing (hbelow : h.below c = none)
  | free {p : Nat} (hbelow : h.below c = some (.free p))
  | malloc {total : Nat} {e : Outside} (hasked : c.asked = some (total, e))
      (hbelow : h.below c = some (.malloc total e.rand e.system))

theorem below_asked (h : DebugHeap) {c : Call}
    (hbelow : h.below c = c.asked.map fun request : Nat × Outside =>
      .malloc request.1 request.2.rand request.2.system) : Below h c := by
  cases hc : c.asked with
  | none => exact .nothing (by rw [hbelow, hc]; rfl)
  | some request => exact .malloc hc (by rw [hbelow, hc]; rfl)

theorem below_cases (h : DebugHeap) (c : Call) : Below h c := by
  cases c with
  | dmalloc sz file line e => exact below_asked h rfl
  | dcalloc nmemb sz file line e => exact below_asked h rfl
  | dfree ptr file line =>
    cases hgive : h.givesBack ptr file line with
    | none => exact .nothing (by rw [DebugHeap.below, hgive]; rfl)
    | some p => exact .free (p := p) (by rw [DebugHeap.below, hgive]; rfl)
  | write addr data => exact .nothing rfl

theorem system_step_free {w : BaseAlloc.World} (hw : BaseAlloc.Reaches w) (p : Nat) :
    ∀ a ∈ (w.step (.free p)).s.system, a ∈ w.s.system := by
  intro a ha
  rw [BaseAlloc.World.step] at ha
  rcases BaseAlloc.baseFree_cases p hw.sound.sound.enabled with
    ⟨-, hfree⟩ | ⟨-, hfree⟩ | ⟨sz, -, hfree⟩
  · rw [hfree] at ha
    exact List.mem_of_mem_filter ha
  · rwa [hfree] at ha
  · rwa [hfree] at ha

/-- What is passed to `base_free` is the block of an active pointer. -/
theorem Layered.frees_live (hl : Layered ok mem h) {p : Nat}
    (hbelow : h.below c = some (.free p)) : p ∈ h.lower.live.map Prod.fst := by
  have hmalloc : ∀ {q : Nat}, (c.asked.map fun request : Nat × Outside =>
      BaseAlloc.Op.malloc request.1 request.2.rand request.2.system) ≠ some (.free q) := by
    intro q
    cases c.asked <;> nofun
  cases c with
  | dmalloc sz file line e => exact absurd hbelow hmalloc
  | dcalloc nmemb sz file line e => exact absurd hbelow hmalloc
  | write addr data => cases hbelow
  | dfree ptr file line =>
    rcases givesBack_cases ptr file line h with ⟨hnone, -⟩ | ⟨-, hactive, hsome, -⟩
    · rw [DebugHeap.below, hnone] at hbelow
      cases hbelow
    · rw [DebugHeap.below, hsome, Option.map_some] at hbelow
      obtain rfl := BaseAlloc.Op.free.inj (Option.some.inj hbelow)
      have hbooks := books_of_reaches hl.upper
      have hp := (hbooks.active ptr).mp hactive
      obtain ⟨blk, hblk, rfl⟩ := List.mem_map.mp hp
      have hheld := hbooks.blocks blk hblk
      rw [hl.blocks] at hheld
      rw [(hbooks.hdrPos hp).2]
      exact List.mem_map.mpr ⟨_, hheld, rfl⟩

/-- One step of both is a step of each. -/
theorem Layered.step (hl : Layered ok mem h) (hadm : c.Admissible h)
    (hok : ok h.upper (h.above c)) (hstep : h.step c = some h') : Layered ok mem h' := by
  obtain ⟨upper, hupper, rfl⟩ := Option.map_eq_some_iff.mp hstep
  have hreach : Dmalloc.Reaches ok mem upper :=
    hl.upper.tail ⟨h.above c, hl.above_admissible hadm, hok, hupper⟩
  have hblocks : upper.s.base.blocks = (match h.below c with
      | none => h.lower
      | some op => h.lower.step op).live := by
    cases c with
    | dmalloc sz file line e => exact hl.blocks_dmalloc hupper
    | dcalloc nmemb sz file line e => exact hl.blocks_dcalloc hupper
    | dfree ptr file line => exact hl.blocks_dfree hupper
    | write addr data =>
      cases hupper
      exact hl.blocks
  cases below_cases h c with
  | nothing hbelow =>
    rw [hbelow] at hblocks ⊢
    exact ⟨hreach, hl.lower, hblocks, hl.placed⟩
  | @free p hbelow =>
    rw [hbelow] at hblocks ⊢
    exact ⟨hreach, hl.lower.tail ⟨.free p, trivial, hl.frees_live hbelow, rfl⟩, hblocks,
      fun a ha => hl.placed a (system_step_free hl.reaches p a ha)⟩
  | @malloc total e hasked hbelow =>
    rw [hbelow] at hblocks ⊢
    rw [Call.Admissible, hasked] at hadm
    exact ⟨hreach, hl.lower.tail ⟨.malloc total e.rand e.system, hadm.1, trivial, rfl⟩, hblocks,
      hl.placed_malloc _ hadm.2⟩

theorem DebugHeap.Reaches.layered (hreach : DebugHeap.Reaches ok mem h) : Layered ok mem h := by
  induction hreach with
  | initial => exact layered_initial
  | step c _ hadm hok hstep ih => exact ih.step hadm hok hstep

/-! ## Freed blocks -/

/-- The header of a freed block, as the release left it. -/
structure Released (mem : ByteMem) (f : BaseAlloc.BaseAllocation) : Prop where
  ptrVal : (readInfo mem f.1).ptrVal = f.1 + 48
  isAllocated : (readInfo mem f.1).isAllocated ≠ IS_ALLOC
  large : 56 ≤ f.2

/-- Every pointer ever returned is active, or its block is in the lower
allocator with the header of a freed one. -/
structure Remembered (h : DebugHeap) : Prop where
  freed : ∀ f ∈ h.lower.s.frees, Released h.upper.s.mem f
  active : ∀ r ∈ h.lower.live, 56 ≤ r.2 ∧ r.1 + 48 ∈ h.upper.livePtrs
  placed : ∀ blk ∈ h.upper.returned, Placed blk
  returned : ∀ blk ∈ h.upper.returned,
    blk.ptr ∈ h.upper.livePtrs ∨ blk.ptr - 48 ∈ h.lower.s.frees.map Prod.fst

theorem remembered_initial : Remembered (DebugHeap.initial mem) where
  freed := List.forall_mem_nil _
  active := List.forall_mem_nil _
  placed := List.forall_mem_nil _
  returned := List.forall_mem_nil _

/-- A block handed out and a freed one share no address. -/
theorem disjoint_freed {w : BaseAlloc.World} (hw : BaseAlloc.Reaches w)
    {f r : BaseAlloc.BaseAllocation} (hf : f ∈ w.s.frees) (hr : r ∈ w.live) :
    ByteMem.Disjoint f.1 f.2 r.1 r.2 := by
  have hsound := hw.sound
  obtain ⟨n, hn, hfits⟩ := hsound.sound.frees_backed f hf
  have hallocs := (hsound.live_iff r.1 r.2).mp hr
  obtain ⟨m, hm, hfits'⟩ := hsound.sound.allocs_backed _ _ hallocs
  have hne : f.1 ≠ r.1 := by
    intro heq
    rw [← heq, hsound.sound.frees_free f hf] at hallocs
    cases hallocs
  have hapart := hsound.sound.disjoint hn hm hne
  unfold ByteMem.Disjoint at hapart ⊢
  omega

/-- A header that no byte changed in still is a freed block's. -/
theorem Released.congr {mem mem' : ByteMem} {f : BaseAlloc.BaseAllocation} (hf : Released mem f)
    (hsame : ∀ a, f.1 ≤ a → a < f.1 + 48 → mem' a = mem a) : Released mem' f := by
  have hinfo := readInfo_congr hsame
  exact ⟨by rw [hinfo]; exact hf.ptrVal, by rw [hinfo]; exact hf.isAllocated, hf.large⟩

/-- Of the freed blocks, those that are handed out again are no longer
freed. -/
structure Reuses (w w' : BaseAlloc.World) : Prop where
  subset : ∀ f ∈ w'.s.frees, f ∈ w.s.frees
  handedOut : ∀ f ∈ w.s.frees, f ∈ w'.s.frees ∨ ∃ n, (f.1, n) ∈ w'.live

theorem reuses_refl (w : BaseAlloc.World) : Reuses w w := ⟨fun _ hf => hf, fun _ hf => .inl hf⟩

theorem reuses_malloc {w : BaseAlloc.World} (hw : BaseAlloc.Reaches w) (total : Nat) (e : Outside) :
    Reuses w (w.step (.malloc total e.rand e.system)) := by
  have hsound := hw.sound.sound
  have hfrees : ∀ f ∈ w.s.frees, f.1 ≠ 0 :=
    fun f hf => hsound.backed_pos (hsound.frees_backed f hf)
  rw [BaseAlloc.World.step]
  rcases BaseAlloc.baseMalloc_cases total e.rand e.system hsound.enabled hfrees with
    ⟨i, f, hf, -, hmalloc⟩ | ⟨-, hmalloc⟩ | ⟨-, hmalloc⟩
  · have hperm := BaseAlloc.perm_removeAt hf
    rw [hmalloc]
    dsimp only
    rw [if_neg (hfrees f (List.mem_of_getElem? hf))]
    refine ⟨fun g hg => hperm.mem_iff.mpr (List.mem_cons_of_mem f hg), fun g hg => ?_⟩
    rcases List.mem_cons.mp (hperm.mem_iff.mp hg) with rfl | hrest
    · exact .inr ⟨total, List.mem_cons_self⟩
    · exact .inl hrest
  · rw [hmalloc]
    exact ⟨fun _ hf => hf, fun _ hf => .inl hf⟩
  · rw [hmalloc]
    exact ⟨fun _ hf => hf, fun _ hf => .inl hf⟩

/-- A pointer returned before an allocation is known after it. -/
theorem Remembered.known (hr : Remembered h) {lower : BaseAlloc.World}
    (hreuses : Reuses h.lower lower) {ptrs : List Nat}
    (hptrs : ∀ p ∈ h.upper.livePtrs, p ∈ ptrs) (hactive : ∀ r ∈ lower.live, r.1 + 48 ∈ ptrs)
    {blk : Block} (hblk : blk ∈ h.upper.returned) :
    blk.ptr ∈ ptrs ∨ blk.ptr - 48 ∈ lower.s.frees.map Prod.fst := by
  have hroom := (hr.placed blk hblk).room
  rcases hr.returned blk hblk with hlive | hfreed
  · exact .inl (hptrs _ hlive)
  · obtain ⟨f, hf, hfst⟩ := List.mem_map.mp hfreed
    rcases hreuses.handedOut f hf with hstill | ⟨n, hn⟩
    · exact .inr (hfst ▸ List.mem_map_of_mem hstill)
    · have hagain := hactive _ hn
      rw [show f.1 + 48 = blk.ptr by omega] at hagain
      exact .inl hagain

/-- A failed allocation. -/
theorem Remembered.failed (hr : Remembered h) (hl : Layered ok mem h) {s' : State}
    {lower : BaseAlloc.World}
    (hl' : Layered ok mem ⟨⟨s', h.upper.live, h.upper.returned⟩, lower⟩)
    (hreuses : Reuses h.lower lower) (hs : Fails h.upper.s s') :
    Remembered ⟨⟨s', h.upper.live, h.upper.returned⟩, lower⟩ := by
  obtain ⟨nfail, failSize, rfl⟩ := hs
  have hlive : lower.live = h.lower.live := hl'.blocks.symm.trans hl.blocks
  have hactive : ∀ r ∈ lower.live, 56 ≤ r.2 ∧ r.1 + 48 ∈ h.upper.livePtrs := by
    rw [hlive]
    exact hr.active
  exact ⟨fun f hf => hr.freed f (hreuses.subset f hf), hactive, hr.placed,
    fun blk hblk => hr.known hreuses (fun _ hp => hp) (fun r hr => (hactive r hr).2) hblk⟩

/-- An allocation writes into its own block only, which is no freed one. -/
theorem Remembered.handedOut (hr : Remembered h) (hl : Layered ok mem h) {s' : State}
    {blk : Block} {lower : BaseAlloc.World}
    (hl' : Layered ok mem ⟨⟨s', blk :: h.upper.live, blk :: h.upper.returned⟩, lower⟩)
    (hreuses : Reuses h.lower lower) (hs : HandsOut h.upper.s s' blk) :
    Remembered ⟨⟨s', blk :: h.upper.live, blk :: h.upper.returned⟩, lower⟩ := by
  have hroom := hs.placed.room
  have hlive : lower.live = (blk.ptr - 48, blk.size + 56) :: h.lower.live := by
    rw [← hl'.blocks, ← hl.blocks]
    show s'.base.blocks = _
    rw [hs.base]
    rfl
  have hactive : ∀ r ∈ lower.live, 56 ≤ r.2 ∧ r.1 + 48 ∈ blk.ptr :: h.upper.livePtrs := by
    rw [hlive]
    refine List.forall_mem_cons.mpr ⟨⟨Nat.le_add_left 56 _, ?_⟩, fun r hold => ?_⟩
    · rw [show blk.ptr - 48 + 48 = blk.ptr by omega]
      exact List.mem_cons_self
    · exact ⟨(hr.active r hold).1, List.mem_cons_of_mem _ (hr.active r hold).2⟩
  refine ⟨fun f hf => ?_, hactive, List.forall_mem_cons.mpr ⟨hs.placed, hr.placed⟩, ?_⟩
  · have hold := hr.freed f (hreuses.subset f hf)
    have hlarge := hold.large
    have hnew : (blk.ptr - 48, blk.size + 56) ∈ lower.live := by
      rw [hlive]
      exact List.mem_cons_self
    have hapart := disjoint_freed hl'.reaches hf hnew
    unfold ByteMem.Disjoint at hapart
    dsimp only at hapart
    exact hold.congr fun a hlow hhigh => hs.outside a (by omega)
  · refine List.forall_mem_cons.mpr ⟨.inl List.mem_cons_self, fun old hold => ?_⟩
    exact hr.known hreuses (fun _ hp => List.mem_cons_of_mem _ hp) (fun r hr => (hactive r hr).2)
      hold

theorem Remembered.allocated (hr : Remembered h) (hl : Layered ok mem h) {out : Nat × State}
    {lower : BaseAlloc.World} (hl' : Layered ok mem ⟨h.upper.allocated out sz, lower⟩)
    (hreuses : Reuses h.lower lower)
    (hout : (out.1 = 0 ∧ Fails h.upper.s out.2) ∨
      (out.1 ≠ 0 ∧ HandsOut h.upper.s out.2 ⟨out.1, sz⟩)) :
    Remembered ⟨h.upper.allocated out sz, lower⟩ := by
  obtain ⟨hzero, hs⟩ | ⟨hne, hs⟩ := hout
  · rw [World.allocated, if_pos hzero] at hl' ⊢
    exact hr.failed hl hl' hreuses hs
  · rw [World.allocated, if_neg hne] at hl' ⊢
    exact hr.handedOut hl hl' hreuses hs

/-- A write into an active block leaves the freed ones alone. -/
theorem Remembered.wrote (hr : Remembered h) (hl : Layered ok mem h) {addr : Nat}
    {data : List UInt8} (hok : OwnWrites h.upper (.write addr data)) :
    Remembered ⟨⟨{ h.upper.s with mem := h.upper.s.mem.store addr data }, h.upper.live,
      h.upper.returned⟩, h.lower⟩ := by
  obtain ⟨blk, hblk, hstart, hend⟩ := hok
  have hbooks := books_of_reaches hl.upper
  have hmem : (blk.ptr - 48, blk.size + 56) ∈ h.lower.live := hl.blocks ▸ hbooks.blocks blk hblk
  refine ⟨fun f hf => ?_, hr.active, hr.placed, hr.returned⟩
  have hold := hr.freed f hf
  have hlarge := hold.large
  have hapart := disjoint_freed hl.reaches hf hmem
  have hroom := (hbooks.placed blk hblk).room
  unfold ByteMem.Disjoint at hapart
  dsimp only at hapart
  exact hold.congr fun a hlow hhigh => store_outside (by omega)

/-- `dfree` returns only if the header has the pointer. -/
theorem dfree_returned_ptrVal {ptr : Nat} {s' : State} {msgs : List Message} (hne : ptr ≠ 0)
    (hfree : dfree ptr file line s = .returned msgs s') :
    (readInfo s.mem (wrap (ptr + (2 ^ 64 - hdrSz)))).ptrVal = ptr := by
  simp only [dfree, if_neg hne] at hfree
  split at hfree
  · cases hfree
  split at hfree
  · cases hfree
  split at hfree
  · cases hfree
  split at hfree
  · cases hfree
  rename_i hheader
  exact not_not.mp fun hother => hheader (.inl hother)

/-- The mark that a release leaves in the header. -/
theorem released_write {mem : ByteMem} {pos n : Nat} (hptr : (readInfo mem pos).ptrVal = pos + 48)
    (hlarge : 56 ≤ n) : Released (mem.write (pos + 16) 4 0) (pos, n) where
  ptrVal := by
    rw [← hptr]
    exact read_update_of_disjoint (.inr (by omega))
  isAllocated := by
    rw [show (readInfo (mem.write (pos + 16) 4 0) pos).isAllocated = 0 from read_write (by decide)]
    decide
  large := hlarge

theorem Remembered.freed_step (hr : Remembered h) (hl : Layered ok mem h) {ptr : Nat} {s' : State}
    {msgs : List Message} (hne : ptr ≠ 0)
    (hfree : dfree ptr file line h.upper.s = .returned msgs s') :
    Remembered ⟨⟨s', h.upper.live.filter fun blk => blk.ptr ≠ ptr, h.upper.returned⟩,
      h.lower.step (.free (wrap (ptr + (2 ^ 64 - hdrSz))))⟩ := by
  have hbooks := books_of_reaches hl.upper
  have hsound := hl.reaches.sound
  have hlive : ptr ∈ h.upper.livePtrs := by
    rcases dfree_cases hne file line h.upper.s with ⟨msgs', habort⟩ | ⟨hactive, -⟩
    · rw [habort] at hfree
      cases hfree
    · exact (hbooks.active ptr).mp hactive
  obtain ⟨hroom, hpos⟩ := hbooks.hdrPos hlive
  have hheader := dfree_returned_ptrVal hne hfree
  have hs := dfree_returned hne hfree
  rw [hpos] at hheader hs ⊢
  have hmem : s'.mem = h.upper.s.mem.write (ptr - 48 + 16) 4 0 := by
    rw [hs, (release_releases _ _ _).mem]
  -- the block is one the lower allocator has handed out
  obtain ⟨sz, hblock⟩ : ∃ sz, (ptr - 48, sz) ∈ h.lower.live := by
    obtain ⟨blk, hblk, rfl⟩ := List.mem_map.mp hlive
    exact ⟨blk.size + 56, hl.blocks ▸ hbooks.blocks blk hblk⟩
  have hlarge := (hr.active _ hblock).1
  have hgive : BaseAlloc.baseFree (ptr - 48) h.lower.s = h.lower.s.givenBack (ptr - 48) sz := by
    have hallocs := (hsound.live_iff _ _).mp hblock
    rcases BaseAlloc.baseFree_cases (ptr - 48) hsound.sound.enabled with
      ⟨hzero, -⟩ | ⟨hnone, -⟩ | ⟨sz', hsome, hgive⟩
    · omega
    · rw [hnone] at hallocs
      cases hallocs
    · rw [hsome] at hallocs
      cases hallocs
      exact hgive
  rw [BaseAlloc.World.step, hgive]
  refine ⟨fun f hf => ?_, fun r hr' => ?_, hr.placed, fun blk hblk => ?_⟩
  · rcases List.mem_append.mp hf with hold | hnew
    · have hapart := disjoint_freed hl.reaches hold hblock
      unfold ByteMem.Disjoint at hapart
      dsimp only at hapart hlarge
      have hold := hr.freed f hold
      have hlarge' := hold.large
      rw [hmem]
      exact hold.congr fun a hlow hhigh => write_outside (by omega)
    · rw [List.mem_singleton.mp hnew, hmem]
      exact released_write (by rw [hheader]; omega) hlarge
  · obtain ⟨hold, hother⟩ := List.mem_filter.mp hr'
    rw [decide_eq_true_eq] at hother
    obtain ⟨hsize, hptr⟩ := hr.active r hold
    refine ⟨hsize, ?_⟩
    obtain ⟨blk, hblk, heq⟩ := List.mem_map.mp hptr
    refine List.mem_map.mpr ⟨blk, List.mem_filter.mpr ⟨hblk, ?_⟩, heq⟩
    rw [decide_eq_true_eq]
    omega
  · rcases hr.returned blk hblk with hstill | hbefore
    · by_cases hself : blk.ptr = ptr
      · refine .inr (List.mem_map.mpr ⟨(ptr - 48, sz), ?_, by rw [hself]⟩)
        exact List.mem_append_right _ List.mem_cons_self
      · obtain ⟨other, hother, heq⟩ := List.mem_map.mp hstill
        refine .inl (List.mem_map.mpr ⟨other, List.mem_filter.mpr ⟨hother, ?_⟩, heq⟩)
        rw [decide_eq_true_eq]
        omega
    · obtain ⟨f, hf, heq⟩ := List.mem_map.mp hbefore
      exact .inr (List.mem_map.mpr ⟨f, List.mem_append_left _ hf, heq⟩)

theorem Layered.reuses (hl : Layered ok mem h)
    (hbelow : h.below c = c.asked.map fun request : Nat × Outside =>
      .malloc request.1 request.2.rand request.2.system) :
    Reuses h.lower (match h.below c with
      | none => h.lower
      | some op => h.lower.step op) := by
  rw [hbelow]
  cases c.asked with
  | none => exact reuses_refl h.lower
  | some request => exact reuses_malloc hl.reaches request.1 request.2

theorem Remembered.dfree_step (hr : Remembered h) (hl : Layered ok mem h) {ptr : Nat}
    {upper : World} (hupper : h.upper.step (.dfree ptr file line) = some upper) :
    Remembered ⟨upper, match h.below (.dfree ptr file line) with
      | none => h.lower
      | some op => h.lower.step op⟩ := by
  by_cases hne : ptr = 0
  · subst hne
    have hbooks := books_of_reaches hl.upper
    have hall : h.upper.live.filter (fun blk => blk.ptr ≠ 0) = h.upper.live := by
      refine List.filter_eq_self.mpr fun blk hblk => ?_
      have hroom := (hbooks.placed blk hblk).room
      rw [decide_eq_true_eq]
      omega
    cases hupper
    rw [hall]
    exact hr
  · rw [World.step] at hupper
    cases hfree : Dmalloc.dfree ptr file line h.upper.s with
    | aborted msgs s' =>
      rw [hfree] at hupper
      cases hupper
    | returned msgs s' =>
      rw [hfree] at hupper
      cases hupper
      have hbelow : h.below (.dfree ptr file line) =
          some (.free (wrap (ptr + (2 ^ 64 - hdrSz)))) := by
        rw [DebugHeap.below, DebugHeap.givesBack, if_neg hne, hfree]
        rfl
      rw [hbelow]
      exact hr.freed_step hl hne hfree

theorem Remembered.step (hr : Remembered h) (hl : Layered OwnWrites mem h) (hadm : c.Admissible h)
    (hok : OwnWrites h.upper (h.above c)) (hstep : h.step c = some h') : Remembered h' := by
  have hl' := hl.step hadm hok hstep
  have habove := hl.above_admissible hadm
  obtain ⟨upper, hupper, rfl⟩ := Option.map_eq_some_iff.mp hstep
  cases c with
  | dmalloc sz file line e =>
    cases hupper
    exact hr.allocated hl hl' (hl.reuses rfl) (dmalloc_cases file line habove)
  | dcalloc nmemb sz file line e =>
    cases hupper
    exact hr.allocated hl hl' (hl.reuses rfl) (dcalloc_cases habove)
  | dfree ptr file line => exact hr.dfree_step hl hupper
  | write addr data =>
    cases hupper
    exact hr.wrote hl hok

theorem DebugHeap.Reaches.remembered (hreach : DebugHeap.Reaches OwnWrites mem h) :
    Remembered h := by
  induction hreach with
  | initial => exact remembered_initial
  | step c hreach hadm hok hstep ih => exact ih.step hreach.layered hadm hok hstep

end

/-! ## Results -/

/-- **Both allocators together**: whatever the client does, a run of
dmalloc.cc on basealloc.cc is a run of dmalloc.cc on a base allocator that
keeps its contract, and a run of basealloc.cc in which only live blocks are
freed; and they agree on the blocks handed out. -/
theorem debugHeap_layers {ok : World → Op → Prop} {mem : ByteMem} {h : DebugHeap}
    (hreach : DebugHeap.Reaches ok mem h) :
    Dmalloc.Reaches ok mem h.upper ∧ ReachesLive h.lower ∧
      h.upper.s.base.blocks = h.lower.live :=
  ⟨hreach.layered.upper, hreach.layered.lower, hreach.layered.blocks⟩

/-- A request of 8 bytes, answered by the system with 64 bytes at 16. -/
def eightBytes : Call := .dmalloc 8 5 1 ⟨fun _ => 0, ⟨16, 64⟩, fun _ => 0⟩

/-- After the request, and after a release of what it returned. -/
def allocatedEight : DebugHeap :=
  (((DebugHeap.initial fun _ => 0).step eightBytes)).getD (DebugHeap.initial fun _ => 0)

def freedEight : DebugHeap := (allocatedEight.step (.dfree 64 5 2)).getD allocatedEight

theorem admissible_eightBytes : eightBytes.Admissible (DebugHeap.initial fun _ => 0) :=
  ⟨.inr ⟨by decide, List.forall_mem_nil _⟩, fun _ => by decide⟩

theorem reaches_freedEight (ok : World → Op → Prop)
    (hok : ok (World.initial fun _ => 0) ((DebugHeap.initial fun _ => 0).above eightBytes))
    (hok' : ok allocatedEight.upper (.dfree 64 5 2)) :
    DebugHeap.Reaches ok (fun _ => 0) freedEight :=
  .step (.dfree 64 5 2) (.step eightBytes .initial admissible_eightBytes hok rfl) trivial hok' rfl

theorem debugHeap_layers_eight :
    Dmalloc.Reaches AnyClient (fun _ => 0) freedEight.upper ∧
      ReachesLive freedEight.lower ∧
      freedEight.upper.s.base.blocks = freedEight.lower.live :=
  debugHeap_layers (reaches_freedEight AnyClient trivial trivial)

/-- **A freed pointer is refused**: whatever a client frees that writes
into its own blocks only, and however the lower allocator reuses blocks,
every pointer ever returned is active now or `dfree` aborts on it in the
state as it is, with the message for a double free. Only above all blocks
ever returned the message is another one. -/
theorem freed_pointer_refused {mem : ByteMem} {h : DebugHeap}
    (hreach : DebugHeap.Reaches OwnWrites mem h) {blk : Block} (hblk : blk ∈ h.upper.returned)
    (file line : Nat) :
    blk.ptr ∈ h.upper.livePtrs ∨
      dfree blk.ptr file line h.upper.s =
        .aborted [if h.upper.s.stats.heapMax ≤ blk.ptr then .notInHeap file line blk.ptr
          else .doubleFree file line blk.ptr] h.upper.s := by
  have hr := hreach.remembered
  have hbooks := books_of_reaches hreach.layered.upper
  have hplaced := hr.placed blk hblk
  have hroom := hplaced.room
  have hfits := hplaced.fits
  rcases hr.returned blk hblk with hlive | hfreed
  · exact .inl hlive
  · obtain ⟨f, hf, hfst⟩ := List.mem_map.mp hfreed
    obtain ⟨hptr, hfree, -⟩ := hr.freed f hf
    rw [hfst, show blk.ptr - 48 + 48 = blk.ptr by omega] at hptr
    rw [hfst] at hfree
    have hpos := hdrPos_eq (show 48 ≤ blk.ptr by omega) (by omega)
    have haligned : ¬ (blk.ptr - 48) % 16 ≠ 0 := by
      have := hplaced.aligned
      omega
    have hmin := hbooks.heapMin blk hblk
    refine .inr ?_
    by_cases hmax : h.upper.s.stats.heapMax ≤ blk.ptr
    · rw [if_pos hmax]
      simp only [dfree, if_neg (show blk.ptr ≠ 0 by omega), hpos, if_neg haligned,
        if_pos (show blk.ptr < h.upper.s.stats.heapMin ∨ blk.ptr ≥ h.upper.s.stats.heapMax from
          .inr hmax)]
    · rw [if_neg hmax]
      simp only [dfree, if_neg (show blk.ptr ≠ 0 by omega), hpos, if_neg haligned,
        if_neg (show ¬ (blk.ptr < h.upper.s.stats.heapMin ∨ blk.ptr ≥ h.upper.s.stats.heapMax) by
          omega), hptr, hfree, ne_eq, not_false_eq_true, and_self, if_true]

theorem freed_pointer_refused_eight :
    64 ∈ freedEight.upper.livePtrs ∨
      dfree 64 5 3 freedEight.upper.s =
        .aborted [if freedEight.upper.s.stats.heapMax ≤ 64 then .notInHeap 5 3 64
          else .doubleFree 5 3 64] freedEight.upper.s :=
  freed_pointer_refused (reaches_freedEight OwnWrites trivial trivial)
    (List.mem_cons_self : (⟨64, 8⟩ : Block) ∈ _) 5 3

end SystemsProjects.Dmalloc
