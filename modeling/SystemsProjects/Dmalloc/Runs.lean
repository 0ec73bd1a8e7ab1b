/-
SystemsProjects.Dmalloc.Runs — runs of a client of the debugging
allocator.

A `World` is the allocator's state beside what the client knows from the
calls themselves: the blocks it was returned, and those it has not freed
since. Each step is one call, or one write of the client into memory. A
run ends when `dfree` aborts.

`Books` is the invariant of every run whatever the client writes: the
map, the bounds and the base allocator agree with the client's blocks.
`books_step` is proved once, from one case per kind of step
(`step_cases`).
-/
import SystemsProjects.Dmalloc.Blocks
import Mathlib.Logic.Relation
import Mathlib.Data.List.Nodup
import Mathlib.Data.List.Pairwise

namespace SystemsProjects.Dmalloc

open SystemsProjects.Base ByteMem

/-! ## Steps -/

structure World where
  s : State
  /-- Returned by `dmalloc` or `dcalloc` and not freed since. -/
  live : List Block
  /-- Ever returned by `dmalloc` or `dcalloc`. -/
  returned : List Block

namespace World

def initial (mem : ByteMem) : World := ⟨initialState mem, [], []⟩

/-- The pointers a client may free. -/
def livePtrs (w : World) : List Nat := w.live.map Block.ptr

/-- After a call of `dmalloc` or `dcalloc` for `sz` bytes. -/
def allocated (w : World) (out : Nat × State) (sz : Nat) : World :=
  if out.1 = 0 then ⟨out.2, w.live, w.returned⟩
  else ⟨out.2, ⟨out.1, sz⟩ :: w.live, ⟨out.1, sz⟩ :: w.returned⟩

end World

inductive Op where
  | dmalloc (sz file line : Nat) (b : BaseResult)
  | dcalloc (nmemb sz file line : Nat) (b : BaseResult)
  | dfree (ptr file line : Nat)
  | write (addr : Nat) (data : List UInt8)

/-- One step; `none` when `dfree` aborts. -/
def World.step (w : World) : Op → Option World
  | .dmalloc sz file line b => some (w.allocated (Dmalloc.dmalloc sz file line b w.s) sz)
  | .dcalloc nmemb sz file line b =>
    some (w.allocated (Dmalloc.dcalloc nmemb sz file line b w.s) (nmemb * sz))
  | .dfree ptr file line =>
    match Dmalloc.dfree ptr file line w.s with
    | .aborted _ _ => none
    | .returned _ s => some ⟨s, w.live.filter fun blk => blk.ptr ≠ ptr, w.returned⟩
  | .write addr data => some ⟨{ w.s with mem := w.s.mem.store addr data }, w.live, w.returned⟩

/-- The base allocator keeps its contract in this call. -/
def Op.Admissible (w : World) : Op → Prop
  | .dmalloc sz _ _ b => b.Admissible w.s.base (wrap (hdrSz + sz + ftrSz))
  | .dcalloc nmemb sz _ _ b => b.Admissible w.s.base (wrap (hdrSz + wrap (nmemb * sz) + ftrSz))
  | .dfree _ _ _ | .write _ _ => True

/-- The worlds a client that takes only steps allowed by `ok` reaches. -/
def Reaches (ok : World → Op → Prop) (mem : ByteMem) (w : World) : Prop :=
  Relation.ReflTransGen
    (fun w w' => ∃ op : Op, op.Admissible w ∧ ok w op ∧ w.step op = some w') (World.initial mem) w

/-- A client that may do anything. -/
def AnyClient (_ : World) (_ : Op) : Prop := True

/-- A client that frees null or what it holds, and writes into its own
blocks only. -/
def WellBehaved (w : World) : Op → Prop
  | .dfree ptr _ _ => ptr = 0 ∨ ptr ∈ w.livePtrs
  | .write addr data =>
    ∃ blk ∈ w.live, blk.ptr ≤ addr ∧ addr + data.length ≤ blk.ptr + blk.size
  | .dmalloc _ _ _ _ | .dcalloc _ _ _ _ _ => True

/-- What a step is, by what it does to the allocator. -/
inductive StepKind (w w' : World) : Op → Prop
  | failed {op : Op} (hs : Fails w.s w'.s) (hlive : w'.live = w.live)
      (hret : w'.returned = w.returned) : StepKind w w' op
  | handedOut {op : Op} (blk : Block) (hs : HandsOut w.s w'.s blk) (hlive : w'.live = blk :: w.live)
      (hret : w'.returned = blk :: w.returned) : StepKind w w' op
  | freedNull {file line : Nat} (hs : w'.s = w.s)
      (hlive : w'.live = w.live.filter fun blk => blk.ptr ≠ 0) (hret : w'.returned = w.returned) :
      StepKind w w' (.dfree 0 file line)
  | freed {ptr file line : Nat} (n : Nat) (hne : ptr ≠ 0) (hactive : w.s.active.count ptr = true)
      (hs : w'.s = release w.s ptr (wrap (ptr + (2 ^ 64 - hdrSz))) n)
      (hlive : w'.live = w.live.filter fun blk => blk.ptr ≠ ptr) (hret : w'.returned = w.returned) :
      StepKind w w' (.dfree ptr file line)
  | wrote {addr : Nat} {data : List UInt8} (hs : w'.s = { w.s with mem := w.s.mem.store addr data })
      (hlive : w'.live = w.live) (hret : w'.returned = w.returned) :
      StepKind w w' (.write addr data)

theorem allocated_s (w : World) (out : Nat × State) (sz : Nat) :
    (w.allocated out sz).s = out.2 := by
  unfold World.allocated
  split <;> rfl

theorem allocated_kind {w : World} {out : Nat × State} {sz : Nat} {op : Op}
    (h : (out.1 = 0 ∧ Fails w.s out.2) ∨ (out.1 ≠ 0 ∧ HandsOut w.s out.2 ⟨out.1, sz⟩)) :
    StepKind w (w.allocated out sz) op := by
  obtain ⟨hzero, hfail⟩ | ⟨hne, hout⟩ := h
  · rw [World.allocated, if_pos hzero]
    exact .failed hfail rfl rfl
  · rw [World.allocated, if_neg hne]
    exact .handedOut _ hout rfl rfl

theorem step_cases {w w' : World} {op : Op} (hadm : op.Admissible w) (h : w.step op = some w') :
    StepKind w w' op := by
  cases op with
  | dmalloc sz file line b =>
    cases h
    exact allocated_kind (dmalloc_cases _ _ hadm)
  | dcalloc nmemb sz file line b =>
    cases h
    exact allocated_kind (dcalloc_cases hadm)
  | dfree ptr file line =>
    by_cases hne : ptr = 0
    · subst hne
      cases h
      exact .freedNull rfl rfl rfl
    · rw [World.step] at h
      obtain ⟨msgs, hfree⟩ | ⟨hactive, msgs, n, hfree⟩ := dfree_cases hne file line w.s
      · rw [hfree] at h
        cases h
      · rw [hfree] at h
        cases h
        exact .freed n hne hactive rfl rfl rfl
  | write addr data =>
    cases h
    exact .wrote rfl rfl rfl

/-! ## The books -/

/-- Header and footer included, two blocks share no address. -/
def Apart (x y : Block) : Prop :=
    ByteMem.Disjoint (x.ptr - 48) (x.size + 56) (y.ptr - 48) (y.size + 56)

instance : Std.Symm Apart := ⟨fun _ _ h => ByteMem.Disjoint.symm h⟩

theorem Apart.ptr_ne {x y : Block} (h : Apart x y) (hx : Placed x) (hy : Placed y) :
    x.ptr ≠ y.ptr := by
  have := hx.room
  have := hy.room
  unfold Apart ByteMem.Disjoint at h
  omega

/-- The allocator's map, bounds and base allocator agree with the blocks
the client was returned and freed. -/
structure Books (w : World) : Prop where
  active : ∀ p, w.s.active.count p = true ↔ p ∈ w.livePtrs
  placed : ∀ blk ∈ w.live, Placed blk
  blocks : ∀ blk ∈ w.live, (blk.ptr - 48, blk.size + 56) ∈ w.s.base.blocks
  apart : w.live.Pairwise Apart
  heapMin : ∀ blk ∈ w.returned, w.s.stats.heapMin ≤ blk.ptr
  heapMax : ∀ blk ∈ w.returned, blk.ptr + blk.size ≤ w.s.stats.heapMax
  heapTop : w.s.stats.heapMax = 0 ∨ ∃ blk ∈ w.returned, w.s.stats.heapMax = blk.ptr + blk.size
  liveReturned : ∀ blk ∈ w.live, blk ∈ w.returned
  /-- Every block ever returned is live or was given back, once. -/
  frees : ∀ a, w.s.base.frees.count a + w.livePtrs.count (a + 48) =
    (w.returned.map Block.ptr).count (a + 48)

theorem Books.nodup {w : World} (h : Books w) : w.livePtrs.Nodup := by
  rw [World.livePtrs, List.Nodup, List.pairwise_map]
  exact h.apart.imp_of_mem fun hx hy hxy => hxy.ptr_ne (h.placed _ hx) (h.placed _ hy)

/-- Two live blocks are the same or apart. -/
theorem Books.apart_of_mem {w : World} (h : Books w) {x y : Block} (hx : x ∈ w.live)
    (hy : y ∈ w.live) (hne : x ≠ y) : Apart x y :=
  h.apart.forall hx hy hne

theorem books_initial (mem : ByteMem) : Books (World.initial mem) where
  active := by simp [World.initial, initialState, World.livePtrs]
  placed := by simp [World.initial]
  blocks := by simp [World.initial]
  apart := List.Pairwise.nil
  heapMin := by simp [World.initial]
  heapMax := by simp [World.initial]
  heapTop := .inl rfl
  liveReturned := by simp [World.initial]
  frees := by simp [World.initial, World.livePtrs, initialState]

/-- Only the map, the bounds and the base allocator matter. -/
theorem Books.congr {w w' : World} (h : Books w) (hactive : w'.s.active = w.s.active)
    (hbase : w'.s.base = w.s.base) (hmin : w'.s.stats.heapMin = w.s.stats.heapMin)
    (hmax : w'.s.stats.heapMax = w.s.stats.heapMax) (hlive : w'.live = w.live)
    (hret : w'.returned = w.returned) : Books w' := by
  obtain ⟨h1, h2, h3, h4, h5, h6, h7, h8, h9⟩ := h
  unfold World.livePtrs at h1 h9
  constructor <;> simp only [World.livePtrs, hactive, hbase, hmin, hmax, hlive, hret] <;> assumption

theorem growBounds_heapMin_le (stats : DmallocStats) (user sz : Nat) :
    (growBounds stats user sz).heapMin ≤ user ∧
      (growBounds stats user sz).heapMin ≤ stats.heapMin := by
  unfold growBounds
  dsimp only
  split <;> omega

theorem growBounds_heapMax {stats : DmallocStats} {user sz : Nat} (h : user + sz < 2 ^ 64) :
    (growBounds stats user sz).heapMax = max stats.heapMax (user + sz) := by
  unfold growBounds
  dsimp only
  rw [wrap_of_lt h]
  split <;> omega

theorem countSuccess_heapMax (stats : DmallocStats) (sz : Nat) :
    (countSuccess stats sz).heapMax = stats.heapMax := by
  obtain ⟨nactive, activeSize, ntotal, totalSize, nfail, failSize, heapMin, heapMax⟩ := stats
  exact show _ = heapMax from rfl

theorem Books.handsOut {w w' : World} {blk : Block} (h : Books w) (hs : HandsOut w.s w'.s blk)
    (hlive : w'.live = blk :: w.live) (hret : w'.returned = blk :: w.returned) : Books w' := by
  have hfits := hs.placed.fits
  have hroom := hs.placed.room
  have hmin := growBounds_heapMin_le (countSuccess w.s.stats blk.size) blk.ptr blk.size
  have hmax : (growBounds (countSuccess w.s.stats blk.size) blk.ptr blk.size).heapMax =
      max w.s.stats.heapMax (blk.ptr + blk.size) := by
    rw [growBounds_heapMax (by omega), countSuccess_heapMax]
  have hptrs : w'.livePtrs = blk.ptr :: w.livePtrs := by rw [World.livePtrs, hlive]; rfl
  refine ⟨fun p => ?_, ?_, ?_, ?_, ?_, ?_, ?_, ?_, ?_⟩
  · rw [hs.active, ActiveMap.count_assign, h.active, hptrs, List.mem_cons]
  · rw [hlive]
    exact List.forall_mem_cons.mpr ⟨hs.placed, h.placed⟩
  · rw [hlive, hs.base]
    refine List.forall_mem_cons.mpr ⟨List.mem_cons_self, fun old hold => ?_⟩
    exact List.mem_cons_of_mem _ (h.blocks old hold)
  · rw [hlive]
    exact List.pairwise_cons.mpr ⟨fun old hold => hs.fresh _ (h.blocks old hold), h.apart⟩
  · rw [hret, hs.stats]
    refine List.forall_mem_cons.mpr ⟨hmin.1, fun old hold => ?_⟩
    exact Nat.le_trans hmin.2 (h.heapMin old hold)
  · rw [hret, hs.stats, hmax]
    refine List.forall_mem_cons.mpr ⟨Nat.le_max_right _ _, fun old hold => ?_⟩
    exact Nat.le_trans (h.heapMax old hold) (Nat.le_max_left _ _)
  · rw [hret, hs.stats, hmax]
    right
    rcases Nat.le_total w.s.stats.heapMax (blk.ptr + blk.size) with hle | hle
    · exact ⟨blk, List.mem_cons_self, Nat.max_eq_right hle⟩
    · rw [Nat.max_eq_left hle]
      obtain hzero | ⟨old, hold, heq⟩ := h.heapTop
      · omega
      · exact ⟨old, List.mem_cons_of_mem _ hold, heq⟩
  · rw [hlive, hret]
    refine List.forall_mem_cons.mpr ⟨List.mem_cons_self, fun old hold => ?_⟩
    exact List.mem_cons_of_mem _ (h.liveReturned old hold)
  · intro a
    have := h.frees a
    rw [hptrs, hret, hs.base]
    simp only [BaseAllocator.handOut, List.map_cons, List.count_cons]
    omega

/-- The pointer of a live block addresses its header as `dfree` computes
it. -/
theorem Books.hdrPos {w : World} (h : Books w) {ptr : Nat} (hp : ptr ∈ w.livePtrs) :
    64 ≤ ptr ∧ wrap (ptr + (2 ^ 64 - hdrSz)) = ptr - 48 := by
  obtain ⟨blk, hblk, rfl⟩ := List.mem_map.mp hp
  have hroom := (h.placed blk hblk).room
  have hfits := (h.placed blk hblk).fits
  exact ⟨hroom, hdrPos_eq (by omega) (by omega)⟩

theorem Books.releases {w w' : World} {ptr : Nat} (h : Books w) (hp : ptr ∈ w.livePtrs)
    (hs : Releases w.s w'.s ptr) (hlive : w'.live = w.live.filter fun blk => blk.ptr ≠ ptr)
    (hret : w'.returned = w.returned) : Books w' := by
  have hroom := (h.hdrPos hp).1
  have hptrs : w'.livePtrs = w.livePtrs.filter (· ≠ ptr) := by
    rw [World.livePtrs, hlive, World.livePtrs, List.filter_map]
    rfl
  have hsub : ∀ blk ∈ w'.live, blk ∈ w.live ∧ blk.ptr ≠ ptr := by
    intro blk hblk
    rw [hlive, List.mem_filter, decide_eq_true_eq] at hblk
    exact hblk
  refine ⟨fun p => ?_, ?_, ?_, ?_, ?_, ?_, ?_, ?_, ?_⟩
  · rw [hs.active, ActiveMap.count_erase, h.active, hptrs, List.mem_filter, decide_eq_true_eq]
    exact and_comm
  · exact fun blk hblk => h.placed blk (hsub blk hblk).1
  · -- another block has another address
    intro blk hblk
    obtain ⟨hmem, hne⟩ := hsub blk hblk
    have hroom' := (h.placed blk hmem).room
    rw [hs.base]
    refine List.mem_filter.mpr ⟨h.blocks blk hmem, ?_⟩
    rw [decide_eq_true_eq]
    dsimp only
    omega
  · rw [hlive]
    exact h.apart.filter _
  · rw [hret, hs.heapMin]
    exact h.heapMin
  · rw [hret, hs.heapMax]
    exact h.heapMax
  · rw [hret, hs.heapMax]
    exact h.heapTop
  · rw [hret]
    exact fun blk hblk => h.liveReturned blk (hsub blk hblk).1
  · intro a
    have hcount : w.livePtrs.count ptr = 1 := List.count_eq_one_of_mem h.nodup hp
    have hfrees := h.frees a
    rw [hptrs, hret, hs.base]
    simp only [BaseAllocator.takeBack, List.count_append, List.count_singleton]
    by_cases ha : a + 48 = ptr
    · have hgone : (w.livePtrs.filter (· ≠ ptr)).count ptr = 0 :=
        List.count_eq_zero.mpr fun hm => by simp at hm
      rw [if_pos (by rw [beq_iff_eq]; omega), ha, hgone]
      rw [ha, hcount] at hfrees
      exact hfrees
    · rw [if_neg (by rw [beq_iff_eq]; omega), Nat.add_zero,
        List.count_filter (by rw [decide_eq_true_eq]; exact ha)]
      exact hfrees

theorem fails_bounds {s s' : State} (h : Fails s s') :
    s'.active = s.active ∧ s'.base = s.base ∧ s'.stats.heapMin = s.stats.heapMin ∧
      s'.stats.heapMax = s.stats.heapMax := by
  obtain ⟨nfail, failSize, rfl⟩ := h
  exact ⟨rfl, rfl, rfl, rfl⟩

theorem books_step {w w' : World} {op : Op} (h : Books w) (hstep : StepKind w w' op) :
    Books w' := by
  cases hstep with
  | failed hs hlive hret =>
    obtain ⟨hactive, hbase, hmin, hmax⟩ := fails_bounds hs
    exact h.congr hactive hbase hmin hmax hlive hret
  | handedOut blk hs hlive hret => exact h.handsOut hs hlive hret
  | freedNull hs hlive hret =>
    have hall : w.live.filter (fun blk => blk.ptr ≠ 0) = w.live := by
      refine List.filter_eq_self.mpr fun blk hblk => ?_
      have := (h.placed blk hblk).room
      rw [decide_eq_true_eq]
      omega
    rw [hall] at hlive
    exact h.congr (by rw [hs]) (by rw [hs]) (by rw [hs]) (by rw [hs]) hlive hret
  | freed n hne hactive hs hlive hret =>
    have hp := (h.active _).mp hactive
    rw [(h.hdrPos hp).2] at hs
    refine h.releases hp ?_ hlive hret
    rw [hs]
    exact release_releases _ _ _
  | wrote hs hlive hret =>
    exact h.congr (by rw [hs]) (by rw [hs]) (by rw [hs]) (by rw [hs]) hlive hret

/-- The books are right in every world any client reaches. -/
theorem books_of_reaches {ok : World → Op → Prop} {mem : ByteMem} {w : World}
    (h : Reaches ok mem w) : Books w := by
  induction h with
  | refl => exact books_initial mem
  | tail _ hstep ih =>
    obtain ⟨op, hadm, -, hw⟩ := hstep
    exact books_step ih (step_cases hadm hw)

end SystemsProjects.Dmalloc
