/-
SystemsProjects.Dmalloc.Blocks — what one call of the debugging allocator
does, stated once for the run lemmas above it.

`dmalloc_cases` and `dcalloc_cases` say that an allocation either fails
and only counts the failure, or hands out a block (`HandsOut`);
`dfree_cases` says what a release that returns has found and done.
`Intact` is what `dfree` looks for in memory around a block.
-/
import SystemsProjects.Dmalloc.Dmalloc

namespace SystemsProjects.Dmalloc

open SystemsProjects.Base ByteMem

@[simp] theorem hdrSz_eq : hdrSz = 48 := rfl

@[simp] theorem ftrSz_eq : ftrSz = 8 := rfl

theorem wrap_of_lt {n : Nat} (h : n < 2 ^ 64) : wrap n = n := Nat.mod_eq_of_lt h

theorem wrap_add (a b : Nat) : wrap (wrap a + b) = wrap (a + b) := Nat.mod_add_mod _ _ _

/-! ## The active map -/

namespace ActiveMap

@[simp] theorem count_nil {key : Nat} : count [] key = false := rfl

theorem count_cons {k v key : Nat} {rest : ActiveMap} :
    count ((k, v) :: rest) key = true ↔ key = k ∨ count rest key = true := by
  rw [count, List.any_cons, Bool.or_eq_true, beq_iff_eq, eq_comm]
  rfl

theorem count_assign {active : ActiveMap} {key value key' : Nat} :
    (active.assign key value).count key' = true ↔ key' = key ∨ active.count key' = true := by
  induction active with
  | nil => rw [assign, count_cons]
  | cons head rest ih =>
    obtain ⟨k, v⟩ := head
    unfold assign
    split
    · exact count_cons
    · split
      · rename_i hk
        rw [count_cons, count_cons, hk]
        exact or_self_left.symm
      · rw [count_cons, count_cons, ih]
        exact or_left_comm

theorem count_erase {active : ActiveMap} {key key' : Nat} :
    (active.erase key).count key' = true ↔ key' ≠ key ∧ active.count key' = true := by
  simp only [count, erase, List.any_filter, List.any_eq_true, Bool.and_eq_true, beq_iff_eq,
    ne_eq, decide_eq_true_eq]
  constructor
  · rintro ⟨item, hm, hne, rfl⟩
    exact ⟨hne, item, hm, rfl⟩
  · rintro ⟨hne, item, hm, rfl⟩
    exact ⟨item, hm, hne, rfl⟩

end ActiveMap

/-! ## Headers in memory -/

section

variable {mem : ByteMem} {pos a n : Nat} {info : AllocInfo}

/-- Assigning the fields touches the header only. -/
theorem writeInfo_outside (h : a < pos ∨ pos + 48 ≤ a) : writeInfo mem pos info a = mem a := by
  unfold writeInfo
  rw [write_outside (by omega), write_outside (by omega), write_outside (by omega),
    write_outside (by omega), write_outside (by omega), write_outside (by omega)]

theorem read_writeInfo_of_disjoint (h : ByteMem.Disjoint pos 48 a n) :
    (writeInfo mem pos info).read a n = mem.read a n := by
  refine read_congr fun i hi => writeInfo_outside ?_
  unfold ByteMem.Disjoint at h
  omega

/-- The fields read back, each cut to its width. -/
theorem readInfo_writeInfo :
    readInfo (writeInfo mem pos info) pos =
      { ptrVal := info.ptrVal % 2 ^ 64
        allocSize := info.allocSize % 2 ^ 64
        isAllocated := info.isAllocated % 2 ^ 32
        padding := info.padding % 2 ^ 64
        file := info.file % 2 ^ 64
        line := info.line % 2 ^ 64 } := by
  have h8 : 256 ^ 8 = 2 ^ 64 := by decide
  have h4 : 256 ^ 4 = 2 ^ 32 := by decide
  simp (disch := unfold ByteMem.Disjoint; omega) only [readInfo, writeInfo, read_write_of_disjoint,
    read_write_mod, h8, h4]

end

/-! ## Blocks -/

/-- A block of the client: the pointer it was given and the size it asked
for. -/
structure Block where
  ptr : Nat
  size : Nat
  deriving DecidableEq, Repr

/-- The header and footer of a block are as `dmalloc` left them. -/
structure Intact (mem : ByteMem) (blk : Block) : Prop where
  ptrVal : (readInfo mem (blk.ptr - 48)).ptrVal = blk.ptr
  allocSize : (readInfo mem (blk.ptr - 48)).allocSize = blk.size
  isAllocated : (readInfo mem (blk.ptr - 48)).isAllocated = IS_ALLOC
  padding : (readInfo mem (blk.ptr - 48)).padding = BOUND_VAL
  footer : mem.read (blk.ptr + blk.size) 8 = BOUND_VAL

/-- Where a block may lie: room for the header below it and the footer
above it, and 16-byte alignment. -/
structure Placed (blk : Block) : Prop where
  aligned : 16 ∣ blk.ptr
  room : 64 ≤ blk.ptr
  fits : blk.ptr + blk.size + 8 ≤ 2 ^ 64

/-- A header that no byte changed in reads the same. -/
theorem readInfo_congr {mem mem' : ByteMem} {pos : Nat}
    (h : ∀ a, pos ≤ a → a < pos + 48 → mem' a = mem a) : readInfo mem' pos = readInfo mem pos := by
  have hfield : ∀ off w, off + w ≤ 48 → mem'.read (pos + off) w = mem.read (pos + off) w := by
    intro off w hw
    exact read_congr fun i hi => h _ (by omega) (by omega)
  simp only [readInfo, AllocInfo.mk.injEq]
  exact ⟨hfield 0 8 (by omega), hfield 8 8 (by omega), hfield 16 4 (by omega),
    hfield 24 8 (by omega), hfield 32 8 (by omega), hfield 40 8 (by omega)⟩

/-- A header and a footer that no byte changed in stay intact. -/
theorem Intact.congr {mem mem' : ByteMem} {blk : Block} (h : Intact mem blk) (hp : Placed blk)
    (hhdr : ∀ a, blk.ptr - 48 ≤ a → a < blk.ptr → mem' a = mem a)
    (hftr : ∀ a, blk.ptr + blk.size ≤ a → a < blk.ptr + blk.size + 8 → mem' a = mem a) :
    Intact mem' blk := by
  have hroom := hp.room
  have hinfo : readInfo mem' (blk.ptr - 48) = readInfo mem (blk.ptr - 48) :=
    readInfo_congr fun a h1 h2 => hhdr a h1 (by omega)
  refine ⟨?_, ?_, ?_, ?_, ?_⟩
  · rw [hinfo]; exact h.ptrVal
  · rw [hinfo]; exact h.allocSize
  · rw [hinfo]; exact h.isAllocated
  · rw [hinfo]; exact h.padding
  · rw [read_congr fun i hi => hftr (blk.ptr + blk.size + i) (by omega) (by omega)]
    exact h.footer

/-! ## Allocation -/

/-- The base allocator's contract for a request of `sz` bytes: null, or a
16-byte-aligned block inside the address space that overlaps no block
still handed out. -/
def BaseResult.Admissible (b : BaseResult) (base : BaseAllocator) (sz : Nat) : Prop :=
  b.raw = 0 ∨ (16 ∣ b.raw ∧ b.raw + sz ≤ 2 ^ 64 ∧
    ∀ old ∈ base.blocks, ByteMem.Disjoint b.raw sz old.1 old.2)

/-- A failed allocation: only the failure counters differ. -/
def Fails (s s' : State) : Prop :=
  ∃ nfail failSize, s' = { s with stats := { s.stats with nfail := nfail, failSize := failSize } }

/-- A successful allocation of `blk`. -/
structure HandsOut (s s' : State) (blk : Block) : Prop where
  placed : Placed blk
  fresh : ∀ old ∈ s.base.blocks, ByteMem.Disjoint (blk.ptr - 48) (blk.size + 56) old.1 old.2
  base : s'.base = s.base.handOut (blk.ptr - 48) (blk.size + 56)
  active : s'.active = s.active.assign blk.ptr (blk.ptr - 48)
  stats : s'.stats = growBounds (countSuccess s.stats blk.size) blk.ptr blk.size
  intact : Intact s'.mem blk
  outside : ∀ a, a < blk.ptr - 48 ∨ blk.ptr + blk.size + 8 ≤ a → s'.mem a = s.mem a

theorem stamp_outside {mem : ByteMem} {raw sz file line a : Nat}
    (h : a < raw ∨ raw + sz + 56 ≤ a) : stamp mem raw sz file line a = mem a := by
  unfold stamp
  rw [writeInfo_outside (by omega), write_outside (by simp only [hdrSz_eq, ftrSz_eq]; omega)]

theorem stamp_intact {mem : ByteMem} {raw sz file line : Nat} (hraw : raw + 48 < 2 ^ 64)
    (hsz : sz < 2 ^ 64) : Intact (stamp mem raw sz file line) ⟨raw + 48, sz⟩ := by
  have hpos : raw + 48 - 48 = raw := Nat.add_sub_cancel _ _
  have huser : wrap (raw + hdrSz) = raw + 48 := wrap_of_lt hraw
  refine ⟨?_, ?_, ?_, ?_, ?_⟩
  · show (readInfo _ (raw + 48 - 48)).ptrVal = raw + 48
    rw [hpos, stamp, readInfo_writeInfo, huser]
    exact Nat.mod_eq_of_lt hraw
  · show (readInfo _ (raw + 48 - 48)).allocSize = sz
    rw [hpos, stamp, readInfo_writeInfo]
    exact Nat.mod_eq_of_lt hsz
  · show (readInfo _ (raw + 48 - 48)).isAllocated = IS_ALLOC
    rw [hpos, stamp, readInfo_writeInfo]
    rfl
  · show (readInfo _ (raw + 48 - 48)).padding = BOUND_VAL
    rw [hpos, stamp, readInfo_writeInfo]
    rfl
  · rw [stamp, read_writeInfo_of_disjoint (.inl (by show raw + 48 ≤ raw + 48 + sz; omega))]
    exact read_write (by decide)

/-- The request to the base allocator does not overflow. -/
theorem total_eq {sz : Nat} (hlarge : ¬ sz > SIZE_MAX - hdrSz - ftrSz) :
    wrap (hdrSz + sz + ftrSz) = sz + 56 := by
  simp only [SIZE_MAX, hdrSz_eq, ftrSz_eq] at hlarge ⊢
  rw [wrap_of_lt (by omega)]
  omega

/-- The result of a `dmalloc` whose base allocation succeeds. -/
theorem dmalloc_eq {sz file line : Nat} {b : BaseResult} {s : State}
    (hlarge : ¬ sz > SIZE_MAX - hdrSz - ftrSz) (hraw : b.raw ≠ 0)
    (hfits : b.raw + (sz + 56) ≤ 2 ^ 64) :
    dmalloc sz file line b s =
      (b.raw + 48,
        { mem := stamp (s.mem.update b.raw (sz + 56) b.contents) b.raw sz file line
          active := s.active.assign (b.raw + 48) b.raw
          stats := growBounds (countSuccess s.stats sz) (b.raw + 48) sz
          base := s.base.handOut b.raw (sz + 56) }) := by
  have huser : wrap (b.raw + hdrSz) = b.raw + 48 := wrap_of_lt (by rw [hdrSz_eq]; omega)
  simp only [dmalloc, if_neg hlarge, if_neg hraw, huser, total_eq hlarge, baseMalloc]

theorem dmalloc_cases {sz : Nat} (file line : Nat) {b : BaseResult} {s : State}
    (hb : b.Admissible s.base (wrap (hdrSz + sz + ftrSz))) :
    ((dmalloc sz file line b s).1 = 0 ∧ Fails s (dmalloc sz file line b s).2) ∨
    ((dmalloc sz file line b s).1 ≠ 0 ∧
      HandsOut s (dmalloc sz file line b s).2 ⟨(dmalloc sz file line b s).1, sz⟩) := by
  by_cases hlarge : sz > SIZE_MAX - hdrSz - ftrSz
  · rw [show dmalloc sz file line b s = (0, countFailure s sz) from if_pos hlarge]
    exact .inl ⟨rfl, _, _, rfl⟩
  by_cases hraw : b.raw = 0
  · rw [show dmalloc sz file line b s = (0, countFailure s sz) by
      simp only [dmalloc, if_neg hlarge, baseMalloc, if_pos hraw]]
    exact .inl ⟨rfl, _, _, rfl⟩
  rw [total_eq hlarge] at hb
  obtain ⟨halign, hfits, hfresh⟩ := hb.resolve_left hraw
  have hraw16 : 16 ≤ b.raw := Nat.le_of_dvd (Nat.pos_of_ne_zero hraw) halign
  rw [dmalloc_eq hlarge hraw hfits]
  refine .inr ⟨Nat.succ_ne_zero _, ⟨?_, ?_, ?_⟩, hfresh, rfl, rfl, rfl, ?_, fun a ha => ?_⟩
  · exact Nat.dvd_add halign (by decide)
  · show 64 ≤ b.raw + 48
    omega
  · show b.raw + 48 + sz + 8 ≤ 2 ^ 64
    omega
  · exact stamp_intact (by omega) (by omega)
  · change a < b.raw + 48 - 48 ∨ b.raw + 48 + sz + 8 ≤ a at ha
    dsimp only
    rw [stamp_outside (by omega), update_outside (by omega)]

/-- The header of a block names the call that allocated it. -/
structure NamesCall (mem : ByteMem) (ptr file line : Nat) : Prop where
  file : (readInfo mem (ptr - 48)).file = wrap file
  line : (readInfo mem (ptr - 48)).line = wrap line

theorem dmalloc_namesCall {sz file line : Nat} {b : BaseResult} {s : State}
    (hb : b.Admissible s.base (wrap (hdrSz + sz + ftrSz)))
    (hne : (dmalloc sz file line b s).1 ≠ 0) :
    NamesCall (dmalloc sz file line b s).2.mem (dmalloc sz file line b s).1 file line := by
  by_cases hlarge : sz > SIZE_MAX - hdrSz - ftrSz
  · exact absurd (by rw [show dmalloc sz file line b s = (0, countFailure s sz) from if_pos hlarge])
      hne
  by_cases hraw : b.raw = 0
  · exact absurd (by simp only [dmalloc, if_neg hlarge, baseMalloc, if_pos hraw]) hne
  rw [total_eq hlarge] at hb
  rw [dmalloc_eq hlarge hraw (hb.resolve_left hraw).2.1]
  constructor <;> simp only [Nat.add_sub_cancel, stamp, readInfo_writeInfo] <;> rfl

/-- Zeroing the client's region of a block just handed out. -/
theorem HandsOut.fill {s s' : State} {blk : Block} (h : HandsOut s s' blk) :
    HandsOut s { s' with mem := s'.mem.fill blk.ptr blk.size 0 } blk where
  placed := h.placed
  fresh := h.fresh
  base := h.base
  active := h.active
  stats := h.stats
  intact := by
    refine h.intact.congr h.placed (fun a _ ha => ?_) fun a ha _ => ?_
    · exact fill_outside (.inl ha)
    · exact fill_outside (.inr ha)
  outside := by
    intro a ha
    rw [← h.outside a ha]
    exact fill_outside (by have := h.placed.room; omega)

/-- A product that passes the overflow test does not overflow. -/
theorem product_lt {nmemb sz : Nat}
    (hover : ¬ (¬ (nmemb = 0 ∨ sz = 0) ∧ sz > SIZE_MAX / nmemb)) : nmemb * sz < 2 ^ 64 := by
  by_cases hz : nmemb = 0 ∨ sz = 0
  · rcases hz with rfl | rfl
    · rw [Nat.zero_mul]; decide
    · rw [Nat.mul_zero]; decide
  · have hle : sz ≤ SIZE_MAX / nmemb := Nat.not_lt.mp fun h => hover ⟨hz, h⟩
    have hpos : 0 < nmemb := Nat.pos_of_ne_zero fun h => hz (.inl h)
    rw [Nat.mul_comm]
    exact Nat.lt_succ_of_le ((Nat.le_div_iff_mul_le hpos).mp hle)

/-- An allocation of a size that overflows fails too; otherwise `dcalloc`
zeroes the region `dmalloc` handed out, inside its header and footer. -/
theorem dcalloc_cases {nmemb sz file line : Nat} {b : BaseResult} {s : State}
    (hb : b.Admissible s.base (wrap (hdrSz + wrap (nmemb * sz) + ftrSz))) :
    ((dcalloc nmemb sz file line b s).1 = 0 ∧ Fails s (dcalloc nmemb sz file line b s).2) ∨
    ((dcalloc nmemb sz file line b s).1 ≠ 0 ∧
      HandsOut s (dcalloc nmemb sz file line b s).2
        ⟨(dcalloc nmemb sz file line b s).1, nmemb * sz⟩) := by
  by_cases hover : ¬ (nmemb = 0 ∨ sz = 0) ∧ sz > SIZE_MAX / nmemb
  · rw [dcalloc, if_pos hover]
    exact .inl ⟨rfl, _, _, rfl⟩
  have hprod := product_lt hover
  rw [wrap_of_lt hprod] at hb
  simp only [dcalloc, if_neg hover, wrap_of_lt hprod]
  obtain ⟨hzero, hfail⟩ | ⟨hne, hout⟩ := dmalloc_cases file line hb
  · rw [if_neg (not_not_intro hzero)]
    exact .inl ⟨hzero, hfail⟩
  · rw [if_pos hne]
    exact .inr ⟨hne, hout.fill⟩

/-- Zeroing the client's region does not touch the header. -/
theorem dcalloc_namesCall {nmemb sz file line : Nat} {b : BaseResult} {s : State}
    (hb : b.Admissible s.base (wrap (hdrSz + wrap (nmemb * sz) + ftrSz)))
    (hne : (dcalloc nmemb sz file line b s).1 ≠ 0) :
    NamesCall (dcalloc nmemb sz file line b s).2.mem (dcalloc nmemb sz file line b s).1 file
      line := by
  by_cases hover : ¬ (nmemb = 0 ∨ sz = 0) ∧ sz > SIZE_MAX / nmemb
  · exact absurd (by rw [dcalloc, if_pos hover]) hne
  simp only [dcalloc, if_neg hover] at hne ⊢
  by_cases hptr : (dmalloc (wrap (nmemb * sz)) file line b s).1 ≠ 0
  · rw [if_pos hptr]
    have hcall := dmalloc_namesCall hb hptr
    obtain ⟨hzero, -⟩ | ⟨-, hout⟩ := dmalloc_cases file line hb
    · exact absurd hzero hptr
    have hroom : 64 ≤ (dmalloc (wrap (nmemb * sz)) file line b s).1 := hout.placed.room
    have hsame : ∀ mem : ByteMem, readInfo (mem.fill (dmalloc (wrap (nmemb * sz)) file line b s).1
        (wrap (nmemb * sz)) 0) ((dmalloc (wrap (nmemb * sz)) file line b s).1 - 48) =
        readInfo mem ((dmalloc (wrap (nmemb * sz)) file line b s).1 - 48) :=
      fun mem => readInfo_congr fun a h1 h2 => fill_outside (by omega)
    exact ⟨by rw [hsame]; exact hcall.file, by rw [hsame]; exact hcall.line⟩
  · rw [if_neg hptr] at hne
    exact absurd (not_not.mp hptr) hne

/-! ## Release -/

/-- A release of the block at `ptr`. -/
structure Releases (s s' : State) (ptr : Nat) : Prop where
  mem : s'.mem = s.mem.write (ptr - 48 + 16) 4 0
  base : s'.base = s.base.takeBack (ptr - 48)
  active : s'.active = s.active.erase ptr
  heapMin : s'.stats.heapMin = s.stats.heapMin
  heapMax : s'.stats.heapMax = s.stats.heapMax

theorem release_releases (s : State) (ptr allocSize : Nat) :
    Releases s (release s ptr (ptr - 48) allocSize) ptr := by
  obtain ⟨mem, ⟨nactive, activeSize, ntotal, totalSize, nfail, failSize, heapMin, heapMax⟩,
    active, base⟩ := s
  -- the bounds by name: comparing the counters would unfold `wrap`
  exact ⟨rfl, rfl, rfl, show _ = heapMin from rfl, show _ = heapMax from rfl⟩

theorem hdrPos_eq {ptr : Nat} (hlow : 48 ≤ ptr) (hhigh : ptr < 2 ^ 64) :
    wrap (ptr + (2 ^ 64 - hdrSz)) = ptr - 48 := by
  unfold wrap
  rw [hdrSz_eq]
  omega

/-- `dfree` of a non-null pointer aborts in the state it was called in, or
finds the pointer in `g_active` and releases it. -/
theorem dfree_cases {ptr : Nat} (hne : ptr ≠ 0) (file line : Nat) (s : State) :
    (∃ msgs, dfree ptr file line s = .aborted msgs s) ∨
    (s.active.count ptr = true ∧ ∃ msgs n, dfree ptr file line s =
      .returned msgs (release s ptr (wrap (ptr + (2 ^ 64 - hdrSz))) n)) := by
  simp only [dfree, if_neg hne]
  split
  · exact .inl ⟨_, rfl⟩
  split
  · exact .inl ⟨_, rfl⟩
  split
  · exact .inl ⟨_, rfl⟩
  split
  · exact .inl ⟨_, rfl⟩
  rename_i hactive
  rw [not_or, Bool.not_eq_false] at hactive
  exact .inr ⟨hactive.2, _, _, rfl⟩

/-- A release counts the size in the header. -/
theorem dfree_returned {ptr file line : Nat} {s s' : State} {msgs : List Message} (hne : ptr ≠ 0)
    (h : dfree ptr file line s = .returned msgs s') :
    s' = release s ptr (wrap (ptr + (2 ^ 64 - hdrSz)))
      (readInfo s.mem (wrap (ptr + (2 ^ 64 - hdrSz)))).allocSize := by
  simp only [dfree, if_neg hne] at h
  split at h
  · cases h
  split at h
  · cases h
  split at h
  · cases h
  split at h
  · cases h
  exact (FreeOutcome.returned.inj h).2.symm

/-- What `dfree` checks in a block's header is as `dmalloc` left it. -/
structure Stamped (mem : ByteMem) (blk : Block) : Prop where
  ptrVal : (readInfo mem (blk.ptr - 48)).ptrVal = blk.ptr
  allocSize : (readInfo mem (blk.ptr - 48)).allocSize = blk.size
  isAllocated : (readInfo mem (blk.ptr - 48)).isAllocated = IS_ALLOC
  padding : (readInfo mem (blk.ptr - 48)).padding = BOUND_VAL

theorem Intact.stamped {mem : ByteMem} {blk : Block} (h : Intact mem blk) : Stamped mem blk :=
  ⟨h.ptrVal, h.allocSize, h.isAllocated, h.padding⟩

/-- `dfree` of an active block whose header is in order looks at the
bounds and at the footer. -/
theorem dfree_stamped {blk : Block} {file line : Nat} {s : State} (hp : Placed blk)
    (hi : Stamped s.mem blk) (hactive : s.active.count blk.ptr = true)
    (hmin : s.stats.heapMin ≤ blk.ptr) :
    dfree blk.ptr file line s =
      if blk.ptr ≥ s.stats.heapMax then .aborted [.notInHeap file line blk.ptr] s
      else .returned
        (if s.mem.read (blk.ptr + blk.size) 8 ≠ BOUND_VAL then [.wildWrite file line blk.ptr]
          else []) (release s blk.ptr (blk.ptr - 48) blk.size) := by
  have hroom := hp.room
  have hfits := hp.fits
  have hpos := hdrPos_eq (show 48 ≤ blk.ptr by omega) (by omega)
  have haligned : (blk.ptr - 48) % 16 = 0 := by
    have := hp.aligned
    omega
  have hfooter : wrap (blk.ptr - 48 + hdrSz + blk.size) = blk.ptr + blk.size := by
    rw [wrap_of_lt (by rw [hdrSz_eq]; omega), hdrSz_eq]
    omega
  have hmin' : ¬ blk.ptr < s.stats.heapMin := Nat.not_lt.mpr hmin
  simp only [dfree, if_neg (show blk.ptr ≠ 0 by omega), hpos, haligned, hi.ptrVal, hi.allocSize,
    hi.isAllocated, hi.padding, hactive, hfooter, hmin', false_or, ne_eq, not_true_eq_false,
    if_false, and_false, or_self, Bool.true_eq_false, or_false]

/-- `dfree` of an intact block inside the bounds prints nothing. -/
theorem dfree_intact {blk : Block} {file line : Nat} {s : State} (hp : Placed blk)
    (hi : Intact s.mem blk) (hactive : s.active.count blk.ptr = true)
    (hmin : s.stats.heapMin ≤ blk.ptr) (hmax : blk.ptr < s.stats.heapMax) :
    ∃ s', dfree blk.ptr file line s = .returned [] s' := by
  rw [dfree_stamped hp hi.stamped hactive hmin, if_neg (Nat.not_le.mpr hmax), hi.footer]
  exact ⟨_, rfl⟩

/-- `dfree` of a block above the bounds aborts. -/
theorem dfree_above {ptr : Nat} (file line : Nat) {s : State} (hne : ptr ≠ 0)
    (hmax : s.stats.heapMax ≤ ptr) : ∃ msgs, dfree ptr file line s = .aborted msgs s := by
  simp only [dfree, if_neg hne]
  split
  · exact ⟨_, rfl⟩
  · rw [if_pos (.inr hmax)]
    exact ⟨_, rfl⟩

end SystemsProjects.Dmalloc
