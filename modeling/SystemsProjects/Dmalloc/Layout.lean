/-
SystemsProjects.Dmalloc.Layout — the sizes `dmalloc` and `dcalloc` compute,
and where a block's parts lie.

Both functions test for overflow before they compute with words: `dcalloc`
by a division, `dmalloc` by a subtraction. The tests are exactly as strong
as they must be, so a request either fails or the base allocator is asked
for header, user region and footer, counted without wrapping.
-/
import SystemsProjects.Dmalloc.Blocks

namespace SystemsProjects.Dmalloc

open SystemsProjects.Base ByteMem

/-- The base allocator answered null, or with `sz` bytes in the address
space. -/
def BaseResult.InMemory (b : BaseResult) (sz : Nat) : Prop := b.raw = 0 ∨ b.raw + sz ≤ 2 ^ 64

instance (b : BaseResult) (sz : Nat) : Decidable (b.InMemory sz) :=
  inferInstanceAs (Decidable (_ ∨ _))

/-- The `n` bytes at `a` lie in the `m` bytes at `b`. -/
def Inside (a n b m : Nat) : Prop := b ≤ a ∧ a + n ≤ b + m

/-- The block at `raw`, handed out for `n` bytes at `ptr`: the base
allocator was asked for it, its parts lie in it apart from each other,
and no other byte has changed. -/
structure LaidOut (s s' : State) (raw ptr n file line : Nat) : Prop where
  asked : s'.base = s.base.handOut raw (hdrSz + n + ftrSz)
  ptr_eq : ptr = raw + hdrSz
  header_inside : Inside raw hdrSz raw (hdrSz + n + ftrSz)
  user_inside : Inside ptr n raw (hdrSz + n + ftrSz)
  footer_inside : Inside (ptr + n) ftrSz raw (hdrSz + n + ftrSz)
  header_user : Disjoint raw hdrSz ptr n
  header_footer : Disjoint raw hdrSz (ptr + n) ftrSz
  user_footer : Disjoint ptr n (ptr + n) ftrSz
  header : readInfo s'.mem raw = ⟨ptr, n, IS_ALLOC, BOUND_VAL, wrap file, wrap line⟩
  footer : s'.mem.read (ptr + n) ftrSz = BOUND_VAL
  outside : ∀ a, a < raw ∨ raw + (hdrSz + n + ftrSz) ≤ a → s'.mem a = s.mem a

/-- An allocation of `n` bytes: it succeeds exactly if header, region and
footer fit a word and the base allocator has them; it lays out its block,
or counts a failure and changes nothing else. -/
structure Exactly (s : State) (b : BaseResult) (n file line : Nat) (out : Nat × State) : Prop where
  succeeds : out.1 ≠ 0 ↔ hdrSz + n + ftrSz ≤ SIZE_MAX ∧ b.raw ≠ 0
  laidOut : out.1 ≠ 0 → LaidOut s out.2 b.raw out.1 n file line
  fails : out.1 = 0 → Fails s out.2

section

variable {nmemb sz n file line : Nat} {b : BaseResult} {s : State}

/-- The test of `dmalloc` is exact. -/
theorem tooLarge_iff : sz > SIZE_MAX - hdrSz - ftrSz ↔ ¬ hdrSz + sz + ftrSz ≤ SIZE_MAX := by
  simp only [SIZE_MAX, hdrSz_eq, ftrSz_eq]
  omega

/-- The test of `dcalloc` is exact. -/
theorem productOverflows_iff :
    ¬ (nmemb = 0 ∨ sz = 0) ∧ sz > SIZE_MAX / nmemb ↔ ¬ nmemb * sz ≤ SIZE_MAX := by
  constructor
  · rintro ⟨hpos, hgt⟩
    have hlt : SIZE_MAX < sz * nmemb :=
      (Nat.div_lt_iff_lt_mul (Nat.pos_of_ne_zero fun h => hpos (.inl h))).mp hgt
    rw [Nat.mul_comm]
    exact Nat.not_le.mpr hlt
  · intro hgt
    by_contra hnot
    exact hgt (Nat.le_of_lt_succ (product_lt hnot))

/-- The header that `stamp` writes. -/
theorem stamp_header {mem : ByteMem} {raw : Nat} (hraw : raw + hdrSz < 2 ^ 64) (hsz : sz < 2 ^ 64) :
    readInfo (stamp mem raw sz file line) raw =
      ⟨raw + hdrSz, sz, IS_ALLOC, BOUND_VAL, wrap file, wrap line⟩ := by
  rw [stamp, readInfo_writeInfo, wrap_of_lt hraw]
  simp only [AllocInfo.mk.injEq]
  exact ⟨Nat.mod_eq_of_lt hraw, Nat.mod_eq_of_lt hsz, rfl, rfl, rfl, rfl⟩

/-- The parts of a block in the address space. -/
theorem stamp_laidOut {mem : ByteMem} {raw : Nat} (hfits : raw + (sz + 56) ≤ 2 ^ 64)
    (contents : Nat → UInt8) {s' : State} (hmem : s.mem = mem)
    (hmem' : s'.mem = stamp (mem.update raw (sz + 56) contents) raw sz file line)
    (hbase : s'.base = s.base.handOut raw (sz + 56)) :
    LaidOut s s' raw (raw + 48) sz file line := by
  have htotal : hdrSz + sz + ftrSz = sz + 56 := by
    rw [hdrSz_eq, ftrSz_eq]
    omega
  have hintact : Intact s'.mem ⟨raw + 48, sz⟩ := by
    rw [hmem']
    exact stamp_intact (by omega) (by omega)
  refine ⟨?_, rfl, ?_, ?_, ?_, ?_, ?_, ?_, ?_, hintact.footer, fun a ha => ?_⟩
  · rw [htotal, hbase]
  · unfold Inside
    omega
  · rw [htotal]
    unfold Inside
    omega
  · rw [htotal, ftrSz_eq]
    unfold Inside
    omega
  · exact .inl (Nat.le_of_eq (by rw [hdrSz_eq]))
  · refine .inl ?_
    rw [hdrSz_eq]
    omega
  · exact .inl (Nat.le_refl _)
  · rw [hmem']
    exact stamp_header (show raw + 48 < 2 ^ 64 by omega) (by omega)
  · rw [htotal] at ha
    rw [hmem', stamp_outside (by omega), update_outside (by omega), hmem]

/-- **`dmalloc`** allocates exactly what it is asked for, or fails. -/
theorem dmalloc_exactly (hb : b.InMemory (wrap (hdrSz + sz + ftrSz))) :
    Exactly s b sz file line (dmalloc sz file line b s) := by
  by_cases hlarge : sz > SIZE_MAX - hdrSz - ftrSz
  · rw [show dmalloc sz file line b s = (0, countFailure s sz) from if_pos hlarge]
    exact ⟨iff_of_false (fun h => h rfl) fun h => tooLarge_iff.mp hlarge h.1, fun h => absurd rfl h,
      fun _ => ⟨_, _, rfl⟩⟩
  · by_cases hraw : b.raw = 0
    · rw [show dmalloc sz file line b s = (0, countFailure s sz) by
        simp only [dmalloc, if_neg hlarge, baseMalloc, if_pos hraw]]
      exact ⟨iff_of_false (fun h => h rfl) fun h => h.2 hraw, fun h => absurd rfl h,
        fun _ => ⟨_, _, rfl⟩⟩
    · rw [total_eq hlarge] at hb
      have hfits := hb.resolve_left hraw
      rw [dmalloc_eq hlarge hraw hfits]
      refine ⟨iff_of_true (Nat.succ_ne_zero _) ⟨?_, hraw⟩, fun _ => ?_,
        fun h => absurd h (Nat.succ_ne_zero _)⟩
      · exact Decidable.not_not.mp (mt tooLarge_iff.mpr hlarge)
      · exact stamp_laidOut hfits b.contents rfl rfl rfl

/-- Zeroing the user region keeps the layout. -/
theorem LaidOut.fill {s' : State} {raw ptr : Nat} (h : LaidOut s s' raw ptr n file line) :
    LaidOut s { s' with mem := s'.mem.fill ptr n 0 } raw ptr n file line := by
  obtain ⟨hasked, rfl, h1, h2, h3, h4, h5, h6, hheader, hfooter, houtside⟩ := h
  refine ⟨hasked, rfl, h1, h2, h3, h4, h5, h6, ?_, ?_, fun a ha => ?_⟩
  · rw [← hheader]
    exact readInfo_congr fun a _ ha => fill_outside (.inl (by rw [hdrSz_eq]; exact ha))
  · rw [← hfooter]
    exact read_congr fun i _ => fill_outside (.inr (Nat.le_add_right _ _))
  · rw [← houtside a ha]
    refine fill_outside ?_
    unfold Inside at h2
    omega

/-- **Sizes are exact**: whatever the arguments and the base allocator's
answer, `dmalloc` succeeds exactly if header, region and footer fit a
word, and asks for just these; `dcalloc` does so for the product, and its
bytes are zero. -/
theorem allocation_exactly (nmemb sz file line : Nat) (b : BaseResult) (s : State) :
    (b.InMemory (wrap (hdrSz + sz + ftrSz)) →
      Exactly s b sz file line (dmalloc sz file line b s)) ∧
    (b.InMemory (wrap (hdrSz + wrap (nmemb * sz) + ftrSz)) →
      Exactly s b (nmemb * sz) file line (dcalloc nmemb sz file line b s) ∧
      ((dcalloc nmemb sz file line b s).1 ≠ 0 → ∀ i < nmemb * sz,
        (dcalloc nmemb sz file line b s).2.mem ((dcalloc nmemb sz file line b s).1 + i) = 0)) := by
  refine ⟨dmalloc_exactly, fun hb => ?_⟩
  by_cases hover : ¬ (nmemb = 0 ∨ sz = 0) ∧ sz > SIZE_MAX / nmemb
  · have hlarge := productOverflows_iff.mp hover
    rw [dcalloc, if_pos hover]
    refine ⟨⟨iff_of_false (fun h => h rfl) fun h => hlarge ?_, fun h => absurd rfl h,
      fun _ => ⟨_, _, rfl⟩⟩, fun h => absurd rfl h⟩
    exact Nat.le_trans (by omega) h.1
  · have hprod := product_lt hover
    rw [wrap_of_lt hprod] at hb
    have hexact : Exactly s b (nmemb * sz) file line (dmalloc (nmemb * sz) file line b s) :=
      dmalloc_exactly hb
    simp only [dcalloc, if_neg hover, wrap_of_lt hprod]
    by_cases hptr : (dmalloc (nmemb * sz) file line b s).1 ≠ 0
    · rw [if_pos hptr]
      refine ⟨⟨hexact.succeeds, fun _ => (hexact.laidOut hptr).fill, fun h => absurd h hptr⟩,
        fun _ i hi => ?_⟩
      show (ByteMem.fill _ _ _ 0) _ = 0
      rw [ByteMem.fill, ByteMem.update_offset hi]
    · rw [if_neg hptr]
      exact ⟨hexact, fun h => absurd h hptr⟩

/-- A request that fits to the last byte, and one of three members. -/
theorem allocation_exactly_largest :
    (∃ s', dmalloc (SIZE_MAX - 56) 5 8 ⟨1, fun _ => 7⟩ (initialState fun _ => 0) = (49, s') ∧
      LaidOut (initialState fun _ => 0) s' 1 49 (SIZE_MAX - 56) 5 8) ∧
    ∃ s', dcalloc 3 8 5 9 ⟨16, fun _ => 7⟩ (initialState fun _ => 0) = (64, s') ∧
      LaidOut (initialState fun _ => 0) s' 16 64 24 5 9 ∧ ∀ i < 24, s'.mem (64 + i) = 0 := by
  obtain ⟨hlargest, -⟩ := allocation_exactly 0 (SIZE_MAX - 56) 5 8 ⟨1, fun _ => 7⟩
    (initialState fun _ => 0)
  obtain ⟨-, hthree⟩ := allocation_exactly 3 8 5 9 ⟨16, fun _ => 7⟩ (initialState fun _ => 0)
  obtain ⟨hexact, hzero⟩ := hthree (.inr (by decide))
  exact ⟨⟨_, rfl, (hlargest (.inr (by decide))).laidOut (by decide)⟩,
    ⟨_, rfl, hexact.laidOut (by decide), hzero (by decide)⟩⟩

end

end SystemsProjects.Dmalloc
