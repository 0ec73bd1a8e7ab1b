/-
SystemsProjects.FileIO.Coherence — what the cached implementation's
fields mean, and one specification lemma for each of its operations.

`Caches f D` says that `f` holds a block of the file whose contents are
`D`: laying the valid part of the cache over the disk gives `D`. The
logical size `fileSize` is deliberately outside it. `io300_write`
advances `fileSize` to the end of the whole request before the first
block is written, so between two blocks of one write the size is ahead
of the contents; `D` is always what has been written so far.

Everything here is about an environment whose calls all succeed
(`OsFile.Reliable`). The lemmas also say that no `Fault` occurs.
-/
import SystemsProjects.Base.Fallible
import SystemsProjects.FileIO.Student

namespace SystemsProjects.FileIO.Student

open SystemsProjects.Base

variable {cacheSize : Nat}

theorem subSize_of_le {a b : Nat} (h : b ≤ a) : subSize a b = .ok (a - b) := by
  simp [subSize, h]

theorem load_of_le {mem : List UInt8} {off n : Nat} (h : off + n ≤ mem.length) :
    load mem off n = .ok (slice mem off n) := by
  simp [load, h]

theorem store_of_le {mem data : List UInt8} {off : Nat} (h : off + data.length ≤ mem.length) :
    store mem off data = .ok (overwrite 0 mem off data) := by
  simp [store, h]

theorem length_overwrite_of_le (mem data : List UInt8) {off : Nat}
    (h : off + data.length ≤ mem.length) : (overwrite 0 mem off data).length = mem.length :=
  length_overwrite_inside 0 h

/-! ## The invariant -/

/-- `f` caches a block of a file with contents `D`. -/
structure Caches (cacheSize : Nat) (f : Io300File) (D : List UInt8) : Prop where
  reliable : f.fd.Reliable
  cacheLen : f.cache.length = cacheSize
  posMod : f.cachePos % cacheSize = 0
  idxLe : f.cacheIdx ≤ cacheSize
  valid : f.cacheValid = min cacheSize (D.length - f.cachePos)
  logical : overwrite 0 f.fd.disk f.cachePos (f.cache.take f.cacheValid) = D
  clean : f.isDirty = false → f.fd.disk = D

/-- The state between a `flush` and the next `fetch`: all of `D` is on
disk, and the cache holds nothing that matters. -/
structure Flushed (cacheSize : Nat) (f : Io300File) (D : List UInt8) : Prop where
  reliable : f.fd.Reliable
  disk : f.fd.disk = D
  cacheLen : f.cache.length = cacheSize
  posMod : f.cachePos % cacheSize = 0
  idxLe : f.cacheIdx ≤ cacheSize
  validLe : f.cacheValid ≤ cacheSize
  clean : f.isDirty = false

/-- The state between two calls of the interface. -/
structure Coherent (cacheSize : Nat) (f : Io300File) (D : List UInt8) : Prop
    extends Caches cacheSize f D where
  idxLt : f.cacheIdx < cacheSize
  size : f.fileSize = D.length

variable {f : Io300File} {D : List UInt8}

theorem Caches.validLe (h : Caches cacheSize f D) : f.cacheValid ≤ cacheSize := by
  rw [h.valid]; omega

theorem checkInvariants_ok (hv : f.cacheValid ≤ cacheSize) (hp : f.cachePos % cacheSize = 0)
    (hi : f.cacheIdx ≤ cacheSize) : checkInvariants cacheSize f = .ok () := by
  simp [checkInvariants, hv, hp, hi]

theorem Caches.check (h : Caches cacheSize f D) : checkInvariants cacheSize f = .ok () :=
  checkInvariants_ok h.validLe h.posMod h.idxLe

theorem Flushed.check (h : Flushed cacheSize f D) : checkInvariants cacheSize f = .ok () :=
  checkInvariants_ok h.validLe h.posMod h.idxLe

/-- A head inside the cached block names the block. -/
theorem block_of_head {pos idx : Nat} (hp : pos % cacheSize = 0) (hi : idx < cacheSize) :
    (pos + idx) / cacheSize = pos / cacheSize := by
  have hC : 0 < cacheSize := by omega
  have hpos : pos = cacheSize * (pos / cacheSize) := by
    have := Nat.div_add_mod pos cacheSize
    omega
  rw [hpos, Nat.mul_add_div hC, Nat.div_eq_of_lt hi, Nat.add_zero, Nat.mul_div_cancel_left _ hC]

/-- Blocks are ordered as the heads in them are. -/
theorem block_mono {pos idx pos' idx' : Nat} (hp : pos % cacheSize = 0) (hi : idx < cacheSize)
    (hp' : pos' % cacheSize = 0) (hi' : idx' < cacheSize) (h : pos + idx ≤ pos' + idx') :
    pos ≤ pos' := by
  have hq : pos / cacheSize ≤ pos' / cacheSize := by
    rw [← block_of_head hp hi, ← block_of_head hp' hi']
    exact Nat.div_le_div_right h
  have h₁ := Nat.div_add_mod pos cacheSize
  have h₂ := Nat.div_add_mod pos' cacheSize
  have := Nat.mul_le_mul_left cacheSize hq
  omega

theorem Caches.length_valid (h : Caches cacheSize f D) :
    (f.cache.take f.cacheValid).length = f.cacheValid := by
  have := h.validLe
  rw [List.length_take, h.cacheLen]; omega

/-- Valid cache bytes are file bytes. -/
theorem Caches.cache_getElem? (h : Caches cacheSize f D) {j : Nat} (hj : j < f.cacheValid) :
    f.cache[j]? = D[f.cachePos + j]? := by
  have hlen := h.length_valid
  have hne : f.cache.take f.cacheValid ≠ [] := by
    rintro he; simp [he] at hlen; omega
  rw [← h.logical, getElem?_overwrite _ _ _ _ _ hne, if_neg (by omega), hlen,
    if_pos (by omega), List.getElem?_take, if_pos (by omega)]
  congr 1; omega

/-- Outside the cached block the disk already has the contents. -/
theorem Caches.disk_before (h : Caches cacheSize f D) {i : Nat} (hi : i < f.cachePos) :
    f.fd.disk.getD i 0 = D.getD i 0 := by
  rcases eq_or_ne (f.cache.take f.cacheValid) [] with he | hne
  · have := h.logical
    rw [he, overwrite_nil] at this
    rw [this]
  · have : D[i]? = some (f.fd.disk.getD i 0) := by
      rw [← h.logical, getElem?_overwrite _ _ _ _ _ hne, if_pos hi]
    simp [List.getD_eq_getElem?_getD, this]

theorem Caches.disk_after (h : Caches cacheSize f D) {i : Nat}
    (hi : f.cachePos + f.cacheValid ≤ i) : f.fd.disk[i]? = D[i]? := by
  rcases eq_or_ne (f.cache.take f.cacheValid) [] with he | hne
  · have := h.logical
    rw [he, overwrite_nil] at this
    rw [this]
  · rw [← h.logical, getElem?_overwrite _ _ _ _ _ hne, h.length_valid, if_neg (by omega),
      if_neg (by omega)]

theorem Caches.slice_cache (h : Caches cacheSize f D) {n : Nat}
    (hn : f.cacheIdx + n ≤ f.cacheValid) :
    slice f.cache f.cacheIdx n = slice D (f.cachePos + f.cacheIdx) n := by
  apply List.ext_getElem?
  intro i
  simp only [getElem?_slice]
  split
  · rw [h.cache_getElem? (by omega)]
    congr 1; omega
  · rfl

/-! ## `flush` -/

theorem flush_spec (h : Caches cacheSize f D) :
    ∃ fd', flush cacheSize f = .ok (0, { f with fd := fd', isDirty := false }) ∧
      fd'.Reliable ∧ fd'.disk = D := by
  cases hd : f.isDirty with
  | false =>
    refine ⟨f.fd, ?_, h.reliable, h.clean hd⟩
    have hf : ({ f with isDirty := false } : Io300File) = f := by rw [← hd]
    simp only [flush, h.check, ok_bind, hd, if_true, pure_eq_ok, hf]
  | true =>
    have hlen := h.length_valid
    have hpos : ¬ ((f.cachePos : Int) < 0) := by omega
    simp only [flush, h.check, hd, ok_bind, Bool.true_eq_false, if_false,
      OsFile.lseekSet_reliable h.reliable, if_neg hpos]
    by_cases hv : f.cacheValid = 0
    · -- nothing to write: the loop ends at once
      refine ⟨{ f.fd with offset := f.cachePos }, by simp [flushLoop, hv],
        h.reliable.at _ _, ?_⟩
      have := h.logical
      rwa [hv, List.take_zero, overwrite_nil] at this
    · -- one write moves the whole valid part
      have hld : f.cacheValid ≤ f.cache.length := by
        rw [List.length_take] at hlen; omega
      have hr := h.reliable.at f.fd.disk f.cachePos
      have hn : ¬ ((f.cacheValid : Int) ≤ 0) := by omega
      refine ⟨{ f.fd with disk := D, offset := f.cachePos + f.cacheValid }, ?_,
        h.reliable.at _ _, rfl⟩
      obtain ⟨v, hv'⟩ : ∃ v, f.cacheValid = v + 1 := ⟨f.cacheValid - 1, by omega⟩
      rw [flushLoop, if_pos (by simp; omega), subSize_of_le (by simp)]
      simp only [Nat.sub_zero, ok_bind]
      rw [load_of_le (by simpa using hld)]
      simp only [ok_bind, slice_zero, OsFile.write_reliable hr, hlen, if_neg hn, h.logical]
      rw [hv', flushLoop, if_neg (by simp)]
      rfl

/-- After a flush the head may be moved to any block. -/
theorem flushed_at (h : Caches cacheSize f D) {fd' : OsFile} (hr : fd'.Reliable)
    (hdisk : fd'.disk = D) {pos idx valid : Nat} (hp : pos % cacheSize = 0)
    (hi : idx ≤ cacheSize) (hv : valid ≤ cacheSize) :
    Flushed cacheSize { f with fd := fd', isDirty := false, cachePos := pos, cacheIdx := idx,
                               cacheValid := valid } D :=
  ⟨hr, hdisk, h.cacheLen, hp, hi, hv, rfl⟩

/-! ## `fetch` -/

theorem fetch_spec (h : Flushed cacheSize f D) (hs : D.length ≤ f.fileSize) :
    ∃ r f', fetch cacheSize f = .ok (r, f') ∧ 0 ≤ r ∧ r = f'.cacheValid ∧ Caches cacheSize f' D ∧
      f'.cachePos = f.cachePos ∧ f'.cacheIdx = f.cacheIdx ∧ f'.fileSize = f.fileSize := by
  by_cases he : f.fileSize ≤ f.cachePos
  · refine ⟨0, { f with cacheValid := 0 }, by simp [fetch, h.check, he], by omega, rfl, ?_,
      rfl, rfl, rfl⟩
    exact ⟨h.reliable, h.cacheLen, h.posMod, h.idxLe, by simp; omega, by simp [h.disk],
      fun _ => h.disk⟩
  · have hpos : ¬ ((f.cachePos : Int) < 0) := by omega
    have hr := h.reliable.at f.fd.disk f.cachePos
    have hlen : (slice D f.cachePos cacheSize).length ≤ cacheSize := by
      rw [length_slice]; omega
    have hnn : ¬ (((slice D f.cachePos cacheSize).length : Int) < 0) := by omega
    refine ⟨(slice D f.cachePos cacheSize).length,
      { f with
          fd := { f.fd with offset := f.cachePos + (slice D f.cachePos cacheSize).length },
          cache := overwrite 0 f.cache 0 (slice D f.cachePos cacheSize),
          cacheValid := (slice D f.cachePos cacheSize).length }, ?_, by omega, rfl, ?_,
      rfl, rfl, rfl⟩
    · simp only [fetch, h.check, ok_bind, ge_iff_le, if_neg he,
        OsFile.lseekSet_reliable h.reliable, if_neg hpos, OsFile.read_reliable hr]
      rw [h.disk, if_neg hnn, store_of_le (by rw [h.cacheLen]; omega)]
      rfl
    · have hcl : (overwrite 0 f.cache 0 (slice D f.cachePos cacheSize)).length = cacheSize := by
        rw [length_overwrite_of_le _ _ (by rw [h.cacheLen]; omega), h.cacheLen]
      refine ⟨h.reliable.at f.fd.disk _, hcl, h.posMod, h.idxLe,
        length_slice _ _ _, ?_, fun _ => h.disk⟩
      have hread := slice_overwrite_self 0 f.cache 0 (slice D f.cachePos cacheSize)
      rw [slice_zero] at hread
      simp only [hread, h.disk, overwrite_slice_self]

/-- `fetch` leaves the head where it is. -/
theorem fetch_frame {f f' : Io300File} {r : Int} (h : fetch cacheSize f = .ok (r, f')) :
    f'.cachePos = f.cachePos ∧ f'.cacheIdx = f.cacheIdx ∧ f'.fileSize = f.fileSize := by
  unfold fetch at h
  obtain ⟨u, -, h⟩ := bind_eq_ok h
  split at h
  · cases h
    exact ⟨rfl, rfl, rfl⟩
  · dsimp only at h
    split at h
    · cases h
      exact ⟨rfl, rfl, rfl⟩
    · split at h
      · cases h
        exact ⟨rfl, rfl, rfl⟩
      · obtain ⟨cache, -, h⟩ := bind_eq_ok h
        cases h
        exact ⟨rfl, rfl, rfl⟩

/-- `fetch` leaves the disk as it is. -/
theorem fetch_disk {f f' : Io300File} {r : Int} (h : fetch cacheSize f = .ok (r, f')) :
    f'.fd.disk = f.fd.disk := by
  have hseek := OsFile.lseekSet_disk f.fd f.cachePos
  have hread := OsFile.read_disk (f.fd.lseekSet f.cachePos).2 cacheSize
  rw [hseek] at hread
  unfold fetch at h
  obtain ⟨u, -, h⟩ := bind_eq_ok h
  split at h
  · cases h
    rfl
  · dsimp only at h
    split at h
    · cases h
      exact hseek
    · split at h
      · cases h
        exact hread
      · obtain ⟨cache, -, h⟩ := bind_eq_ok h
        cases h
        exact hread

/-! ## `io300_open`, `io300_seek`, `io300_close` -/

/-- Without a write, either the head stays in its block and nothing is
flushed, or it leaves the block and everything is. -/
def Settled (f f' : Io300File) (D : List UInt8) : Prop :=
  f'.cachePos ≠ f.cachePos ∧ f'.fd.disk = D ∨
    f'.cachePos = f.cachePos ∧ f'.fd.disk = f.fd.disk

/-- The state `io300_open` fetches its first block in. -/
theorem io300Open_spec (hC : 0 < cacheSize) {mode : Nat} {content fresh : List UInt8}
    {fd : OsFile} (hfresh : fresh.length = cacheSize) (ho : osOpen mode content [] = some fd)
    (hw : fd.writable = true) (hsc : fd.script = []) :
    ∃ f, io300Open cacheSize mode content [] fresh = .ok (some f) ∧
      Coherent cacheSize f fd.disk ∧ f.cachePos + f.cacheIdx = 0 := by
  have hrel : fd.Reliable := ⟨hsc, hw⟩
  let f₀ : Io300File :=
    { fd := { fd with offset := 0 }, cache := fresh, cachePos := 0, cacheIdx := 0,
      cacheValid := min fd.disk.length cacheSize, isDirty := false, fileSize := fd.disk.length }
  have hf₀ : Flushed cacheSize f₀ fd.disk :=
    ⟨⟨hsc, hw⟩, rfl, hfresh, Nat.zero_mod _, Nat.zero_le _, Nat.min_le_right _ _, rfl⟩
  obtain ⟨r, f, hfetch, hr, hrv, hcaches, hp, hi, hsz⟩ := fetch_spec hf₀ (Nat.le_refl _)
  refine ⟨f, ?_, ⟨hcaches, by rw [hi]; exact hC, by rw [hsz]⟩, by rw [hp, hi]; rfl⟩
  have hend : ({ fd with offset := fd.disk.length } : OsFile).Reliable := ⟨hsc, hw⟩
  have hset := OsFile.lseekSet_reliable hend 0
  have hn : ¬ ((fd.disk.length : Int) < 0) := by omega
  have hn0 : ¬ ((0 : Int) < 0) := by omega
  have hset' : ({ fd with offset := fd.disk.length } : OsFile).lseekSet 0
      = (0, { fd with offset := 0 }) := hset
  simp only [io300Open, ho, OsFile.lseekEnd_reliable hrel, if_neg hn, hset', if_neg hn0]
  have hfetch' : fetch cacheSize
      { fd := { fd with offset := 0 }, cache := fresh, cachePos := 0, cacheIdx := 0,
        cacheValid := min fd.disk.length cacheSize, isDirty := false,
        fileSize := fd.disk.length } = .ok (r, f) := hfetch
  simp only [Int.toNat_natCast, hfetch', ok_bind, if_neg (show ¬ r < 0 by omega)]
  have hid : (if r < (cacheSize : Int) then { f with cacheValid := r.toNat } else f) = f := by
    subst hrv; simp
  rw [hid, hcaches.check]
  rfl

theorem io300Seek_neg (h : Coherent cacheSize f D) {pos : Int} (hpos : pos < 0) :
    io300Seek cacheSize f pos = .ok (-1, f) := by
  simp [io300Seek, h.check, hpos]

theorem io300Seek_run (hC : 0 < cacheSize) (h : Coherent cacheSize f D) (p : Nat) :
    ∃ f', io300Seek cacheSize f p = .ok (toInt32 p, f') ∧ Coherent cacheSize f' D ∧
      f'.cachePos + f'.cacheIdx = p ∧ Settled f f' D := by
  have hpos : ¬ ((p : Int) < 0) := by omega
  simp only [io300Seek, h.check, ok_bind, if_neg hpos, Int.toNat_natCast]
  by_cases hin : f.cachePos ≤ p ∧ p < f.cachePos + cacheSize
  · refine ⟨{ f with cacheIdx := p - f.cachePos }, by simp [hin], ?_, by simp; omega,
      Or.inr ⟨rfl, rfl⟩⟩
    exact ⟨⟨h.reliable, h.cacheLen, h.posMod, by simp; omega, h.valid, h.logical, h.clean⟩,
      by simp; omega, h.size⟩
  · have hlt : p % cacheSize < cacheSize := Nat.mod_lt _ hC
    have hle : p % cacheSize ≤ p := Nat.mod_le _ _
    have hblock : (p - p % cacheSize) % cacheSize = 0 := by
      rw [show p - p % cacheSize = cacheSize * (p / cacheSize) by
        have := Nat.div_add_mod p cacheSize; omega]
      exact Nat.mul_mod_right _ _
    obtain ⟨fd', hflush, hr, hdisk⟩ := flush_spec h.toCaches
    obtain ⟨r, f', hfetch, -, -, hc, hp, hi, hs⟩ :=
      fetch_spec (flushed_at h.toCaches hr hdisk hblock (Nat.le_of_lt hlt) h.toCaches.validLe)
        (by simp [h.size])
    have hleft : f'.cachePos ≠ f.cachePos := by
      rw [hp]
      simp only
      omega
    refine ⟨f', ?_, ⟨hc, by rw [hi]; exact hlt, by rw [hs, ← h.size]⟩, ?_,
      Or.inl ⟨hleft, (fetch_disk hfetch).trans hdisk⟩⟩
    · simp only [if_neg hin, hflush, ok_bind, hfetch, pure_eq_ok]
    · rw [hp, hi]
      simp only
      omega

theorem io300Seek_spec (hC : 0 < cacheSize) (h : Coherent cacheSize f D) (p : Nat) :
    ∃ f', io300Seek cacheSize f p = .ok (toInt32 p, f') ∧ Coherent cacheSize f' D ∧
      f'.cachePos + f'.cacheIdx = p := by
  obtain ⟨f', hrun, hco, hhead, -⟩ := io300Seek_run hC h p
  exact ⟨f', hrun, hco, hhead⟩

theorem io300Close_spec (h : Caches cacheSize f D) :
    io300Close cacheSize f = .ok (0, D) := by
  obtain ⟨fd', hflush, -, hdisk⟩ := flush_spec h
  simp [io300Close, h.check, hflush, hdisk]

/-! ## Reading -/

theorem nextBlock_spec (h : Caches cacheSize f D) (hs : D.length ≤ f.fileSize) :
    ∃ f', nextBlock cacheSize f = .ok (0, f') ∧ Caches cacheSize f' D ∧
      f'.cachePos = f.cachePos + cacheSize ∧ f'.cacheIdx = 0 ∧ f'.fileSize = f.fileSize := by
  obtain ⟨fd', hflush, hr, hdisk⟩ := flush_spec h
  have hpos : (f.cachePos + cacheSize) % cacheSize = 0 := by
    rw [Nat.add_mod_right]; exact h.posMod
  obtain ⟨r, f', hfetch, hr0, -, hc, hp, hi, hsz⟩ :=
    fetch_spec (flushed_at h hr hdisk hpos (Nat.zero_le _) h.validLe) hs
  refine ⟨f', ?_, hc, hp, hi, hsz⟩
  have hn : ¬ r < 0 := by omega
  simp [nextBlock, hflush, hfetch, hn]

theorem nextBlock_disk (h : Caches cacheSize f D) {r : Int} {f' : Io300File}
    (hn : nextBlock cacheSize f = .ok (r, f')) : f'.fd.disk = D := by
  obtain ⟨fd', hflush, -, hdisk⟩ := flush_spec h
  simp only [nextBlock, hflush, ok_bind, Int.lt_irrefl, if_false] at hn
  cases hf : fetch cacheSize { f with fd := fd', cachePos := f.cachePos + cacheSize,
                                      cacheIdx := 0, isDirty := false } with
  | error e => rw [hf] at hn; cases hn
  | ok rf =>
    rw [hf] at hn
    cases hn
    rw [fetch_disk hf, hdisk]

/-- A slice that reaches the end of the list has no more to give. -/
theorem slice_of_end {off n sz : Nat} (hle : n ≤ sz) (h : n = sz ∨ off + n = D.length) :
    slice D off sz = slice D off n := by
  apply List.ext_getElem?
  intro i
  simp only [getElem?_slice]
  rcases h with hd | hd
  · rw [hd]
  · by_cases hi : i < n
    · simp [hi, Nat.lt_of_lt_of_le hi hle]
    · have hnone : D[off + i]? = none := List.getElem?_eq_none (by omega)
      simp [hnone]

/-- The bytes a block contributes. -/
theorem Caches.load_chunk (h : Caches cacheSize f D) {n : Nat}
    (hn : f.cacheIdx + n ≤ f.cacheValid) :
    load f.cache f.cacheIdx n = .ok (slice D (f.cachePos + f.cacheIdx) n) := by
  have hvalid := h.validLe
  rw [load_of_le (by rw [h.cacheLen]; omega), h.slice_cache hn]

theorem store_front {buff chunk : List UInt8} (h : chunk.length ≤ buff.length) :
    store buff 0 chunk = .ok (Naive.fill buff chunk) := by
  rw [store_of_le (by omega), Naive.fill]
  rcases eq_or_ne chunk [] with he | hne
  · simp [he]
  · simp [overwrite, hne]

/-- The head moves on to the end of the request, or of the file, which is
in this block. -/
theorem read_last (hC : 0 < cacheSize) (h : Coherent cacheSize f D) {n : Nat}
    (hn : f.cacheIdx + n ≤ f.cacheValid) :
    ∃ f', (if f.cacheIdx + n = cacheSize then
        nextBlock cacheSize { f with cacheIdx := f.cacheIdx + n } = .ok (0, f')
      else f' = { f with cacheIdx := f.cacheIdx + n }) ∧
      Coherent cacheSize f' D ∧ f'.cachePos + f'.cacheIdx = f.cachePos + f.cacheIdx + n ∧
      Settled f f' D := by
  have hle := h.validLe
  have hmoved : Caches cacheSize { f with cacheIdx := f.cacheIdx + n } D :=
    ⟨h.reliable, h.cacheLen, h.posMod, Nat.le_trans hn hle, h.valid, h.logical, h.clean⟩
  by_cases hend : f.cacheIdx + n = cacheSize
  · obtain ⟨f', hnext, hc, hp, hi, hs⟩ := nextBlock_spec hmoved (by simp [h.size])
    refine ⟨f', by rw [if_pos hend]; exact hnext,
      ⟨hc, by rw [hi]; exact hC, by rw [hs]; exact h.size⟩, ?_,
      Or.inl ⟨by rw [hp]; simp only; omega, nextBlock_disk hmoved hnext⟩⟩
    rw [hp, hi]; simp only; omega
  · refine ⟨{ f with cacheIdx := f.cacheIdx + n }, by rw [if_neg hend],
      ⟨hmoved, by simp only; omega, h.size⟩, by simp only; omega, Or.inr ⟨rfl, rfl⟩⟩

/-- A read returns the file's bytes at the head, however many blocks it
crosses. The bound on the depth is the distance to the end of the file. -/
theorem io300ReadLoop_run (hC : 0 < cacheSize) :
    ∀ (fuel : Nat) (f : Io300File) (buff : List UInt8) (sz : Nat),
      Coherent cacheSize f D → sz ≤ buff.length → f.fileSize < f.cachePos + fuel →
      0 < fuel →
      ∃ f', io300ReadLoop cacheSize fuel f buff sz =
          .ok (((slice D (f.cachePos + f.cacheIdx) sz).length : Int),
            Naive.fill buff (slice D (f.cachePos + f.cacheIdx) sz), f') ∧
        Coherent cacheSize f' D ∧
        f'.cachePos + f'.cacheIdx =
          f.cachePos + f.cacheIdx + (slice D (f.cachePos + f.cacheIdx) sz).length ∧
        Settled f f' D
  | 0, _, _, _, _, _, _, h0 => absurd h0 (by omega)
  | fuel + 1, f, buff, sz, h, hbuff, hfuel, _ => by
    have hidx := h.idxLt
    have hsize := h.size
    have hvalid := h.valid
    by_cases heof : f.fileSize ≤ f.cachePos + f.cacheIdx
    · have hnil : slice D (f.cachePos + f.cacheIdx) sz = [] := by
        apply List.eq_nil_of_length_eq_zero
        rw [length_slice]; omega
      refine ⟨f, ?_, h, by simp [hnil], Or.inr ⟨rfl, rfl⟩⟩
      simp [io300ReadLoop, h.check, heof, hnil, Naive.fill]
    · obtain ⟨avail, havail⟩ : ∃ a, a = f.cacheValid - f.cacheIdx := ⟨_, rfl⟩
      obtain ⟨readable, hreadable⟩ : ∃ r, r = min sz (min (cacheSize - f.cacheIdx) avail) :=
        ⟨_, rfl⟩
      have hin : f.cacheIdx < f.cacheValid := by omega
      have hrv : f.cacheIdx + readable ≤ f.cacheValid := by omega
      have hle : readable ≤ sz := by omega
      have hclen : (slice D (f.cachePos + f.cacheIdx) readable).length = readable :=
        length_slice_of_le (by omega)
      have hload := h.toCaches.load_chunk hrv
      have hstore : store buff 0 (slice D (f.cachePos + f.cacheIdx) readable)
          = .ok (Naive.fill buff (slice D (f.cachePos + f.cacheIdx) readable)) :=
        store_front (by rw [hclen]; exact Nat.le_trans hle hbuff)
      simp only [io300ReadLoop, h.check, ok_bind, ge_iff_le, if_neg heof,
        subSize_of_le (Nat.le_of_lt hidx), if_pos hin, ← havail, ← hreadable, hload, hstore]
      by_cases hdone : readable = sz ∨ f.cachePos + f.cacheIdx + readable = f.fileSize
      · -- everything asked for, or everything there is, was in this block
        rw [slice_of_end hle (hsize ▸ hdone), hclen]
        simp only [if_pos hdone]
        obtain ⟨f', hmove, hco, hpos, hsettled⟩ := read_last hC h hrv
        refine ⟨f', ?_, hco, hpos, hsettled⟩
        split at hmove
        · rename_i hend
          simp [if_pos hend, hmove]
        · rename_i hend
          simp [if_neg hend, hmove]
      · -- the block is exhausted: go on in the next one
        simp only [if_neg hdone]
        obtain ⟨f₁, hnext, hc, hp, hi, hs⟩ := nextBlock_spec h.toCaches (by simp [hsize])
        have hstart : f₁.cachePos + f₁.cacheIdx = f.cachePos + f.cacheIdx + readable := by omega
        have h₁ : Coherent cacheSize f₁ D := ⟨hc, by rw [hi]; exact hC, by rw [hs]; exact hsize⟩
        have hfill : (Naive.fill buff (slice D (f.cachePos + f.cacheIdx) readable)).drop readable
            = buff.drop readable := by
          simp [Naive.fill, hclen]
        have hhead : (Naive.fill buff (slice D (f.cachePos + f.cacheIdx) readable)).take readable
            = slice D (f.cachePos + f.cacheIdx) readable := by
          simp [Naive.fill, hclen]
        obtain ⟨f', hrec, h', hpos', hsettled⟩ := io300ReadLoop_run hC fuel f₁
          (buff.drop readable) (sz - readable) h₁ (by simp; omega) (by omega) (by omega)
        have hsplit := slice_append D (f.cachePos + f.cacheIdx) readable (sz - readable)
          (by omega)
        rw [Nat.add_sub_cancel' hle] at hsplit
        rw [hstart] at hrec hpos'
        -- the first block was flushed on the way out, whatever follows
        have hflushed : f'.fd.disk = D := hsettled.elim And.right fun hk =>
          hk.2.trans (nextBlock_disk h.toCaches hnext)
        have hblock : f₁.cachePos ≤ f'.cachePos :=
          block_mono hc.posMod h₁.idxLt h'.posMod h'.idxLt (by omega)
        refine ⟨f', ?_, h', ?_, Or.inl ⟨by omega, hflushed⟩⟩
        · simp only [hnext, ok_bind, Int.lt_irrefl, if_false, subSize_of_le hle, hfill, hhead,
            hrec, pure_eq_ok]
          rw [← hsplit]
          simp [Naive.fill, hclen, List.append_assoc]
        · rw [hpos', ← hsplit, List.length_append, hclen]; omega

theorem io300Read_run (hC : 0 < cacheSize) (h : Coherent cacheSize f D) {buff : List UInt8}
    {sz : Nat} (hbuff : sz ≤ buff.length) :
    ∃ f', io300Read cacheSize f buff sz =
        .ok (((slice D (f.cachePos + f.cacheIdx) sz).length : Int),
          Naive.fill buff (slice D (f.cachePos + f.cacheIdx) sz), f') ∧
      Coherent cacheSize f' D ∧
      f'.cachePos + f'.cacheIdx =
        f.cachePos + f.cacheIdx + (slice D (f.cachePos + f.cacheIdx) sz).length ∧
      Settled f f' D :=
  io300ReadLoop_run hC (f.fileSize + 1) f buff sz h hbuff (by omega) (by omega)

theorem io300Read_spec (hC : 0 < cacheSize) (h : Coherent cacheSize f D) {buff : List UInt8}
    {sz : Nat} (hbuff : sz ≤ buff.length) :
    ∃ f', io300Read cacheSize f buff sz =
        .ok (((slice D (f.cachePos + f.cacheIdx) sz).length : Int),
          Naive.fill buff (slice D (f.cachePos + f.cacheIdx) sz), f') ∧
      Coherent cacheSize f' D ∧
      f'.cachePos + f'.cacheIdx =
        f.cachePos + f.cacheIdx + (slice D (f.cachePos + f.cacheIdx) sz).length := by
  obtain ⟨f', hrun, hco, hhead, -⟩ := io300Read_run hC h hbuff
  exact ⟨f', hrun, hco, hhead⟩

end SystemsProjects.FileIO.Student
