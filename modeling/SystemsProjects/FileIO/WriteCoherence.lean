/-
SystemsProjects.FileIO.WriteCoherence — the write path of the cached
implementation.

`io300_write` prepares the block (`fill_hole`), copies one chunk into it
(`cacheWrite`), advances the size, and moves the head, flushing and
fetching at a block boundary. `Filled` is what the preparation leaves:
the cache is right up to the head, with zeros where the file has a hole,
and the disk is right up to the block. From there one chunk is one
`overwrite` of the contents (`cacheWrite_spec`), and `overwrite_append`
glues the chunks of one request together.
-/
import SystemsProjects.FileIO.Coherence

namespace SystemsProjects.FileIO.Student

open SystemsProjects.Base

variable {cacheSize : Nat} {f : Io300File} {D : List UInt8}

/-! ## Filling the hole -/

/-- The block is ready to take bytes at the head. -/
structure Filled (cacheSize : Nat) (f : Io300File) (D : List UInt8) : Prop where
  reliable : f.fd.Reliable
  cacheLen : f.cache.length = cacheSize
  posMod : f.cachePos % cacheSize = 0
  idxLt : f.cacheIdx < cacheSize
  valid : f.cacheValid = min cacheSize (D.length - f.cachePos)
  /-- Up to the head the cache holds the file's bytes, zeros in a hole. -/
  head : ∀ j, j < f.cacheIdx → f.cache[j]? = some (D.getD (f.cachePos + j) 0)
  body : ∀ j, j < f.cacheValid → f.cache[j]? = D[f.cachePos + j]?
  before : ∀ i, i < f.cachePos → f.fd.disk.getD i 0 = D.getD i 0
  after : ∀ i, f.cachePos + f.cacheValid ≤ i → f.cachePos + f.cacheIdx ≤ i →
    f.fd.disk[i]? = D[i]?

theorem getElem?_eq_some_getD {l : List UInt8} {i : Nat} (h : i < l.length) :
    l[i]? = some (l.getD i 0) := by
  rw [List.getD_eq_getElem?_getD, List.getElem?_eq_getElem h]; rfl

/-- Zeros from `e` to `p`: what is in front of `p` … -/
theorem getD_zeroed {disk : List UInt8} {e p i : Nat} (hi : i < p) :
    (overwrite 0 disk e (List.replicate (p - e) 0)).getD i 0 =
      if i < e then disk.getD i 0 else 0 := by
  by_cases hgap : p - e = 0
  · rw [hgap, List.replicate_zero, overwrite_nil, if_pos (by omega)]
  · have hne : List.replicate (p - e) (0 : UInt8) ≠ [] := by simpa using hgap
    rw [List.getD_eq_getElem?_getD, getElem?_overwrite _ _ _ _ _ hne, List.length_replicate]
    split
    · rfl
    · rw [if_pos (by omega), List.getElem?_replicate, if_pos (by omega)]
      rfl

/-- … and what is behind it. -/
theorem getElem?_zeroed {disk : List UInt8} {e p i : Nat} (he : e ≤ p) (hi : p ≤ i) :
    (overwrite 0 disk e (List.replicate (p - e) 0))[i]? = disk[i]? := by
  by_cases hgap : p - e = 0
  · rw [hgap, List.replicate_zero, overwrite_nil]
  · have hne : List.replicate (p - e) (0 : UInt8) ≠ [] := by simpa using hgap
    rw [getElem?_overwrite _ _ _ _ _ hne, List.length_replicate, if_neg (by omega),
      if_neg (by omega)]

/-- Past the end a byte reads as zero. -/
theorem getD_past_end {l : List UInt8} {i : Nat} (h : l.length ≤ i) : l.getD i 0 = 0 := by
  rw [List.getD_eq_getElem?_getD, List.getElem?_eq_none h]; rfl

/-- Without a hole the cached block is ready as it stands. -/
theorem Caches.filled (h : Caches cacheSize f D) (hidx : f.cacheIdx < cacheSize)
    (hpos : f.cachePos + f.cacheIdx ≤ D.length) : Filled cacheSize f D := by
  have hvalid := h.valid
  refine ⟨h.reliable, h.cacheLen, h.posMod, hidx, hvalid, fun j hj => ?_,
    fun j hj => h.cache_getElem? hj, fun i hi => h.disk_before hi,
    fun i hi _ => h.disk_after hi⟩
  rw [h.cache_getElem? (by omega), getElem?_eq_some_getD (by omega)]

/-- The zeros between the end of the file and the head, in the cache. -/
theorem fillCache_spec (h : Coherent cacheSize f D)
    (hhole : D.length < f.cachePos + f.cacheIdx) :
    ∃ cache, fillCache f =
    .ok { f with cache := cache, isDirty := f.isDirty || eofIdx f < f.cacheIdx } ∧
      cache.length = cacheSize ∧
      (∀ j, j < f.cacheIdx → cache[j]? = some (D.getD (f.cachePos + j) 0)) ∧
      (∀ j, j < f.cacheValid → cache[j]? = D[f.cachePos + j]?) := by
  have hvalid := h.valid
  have hsize := h.size
  have hlt := h.idxLt
  have heof : eofIdx f = f.cacheValid := by
    simp only [eofIdx, hsize]; split <;> omega
  have hbody : ∀ j, j < f.cacheValid → f.cache[j]? = D[f.cachePos + j]? :=
    fun j hj => h.toCaches.cache_getElem? hj
  by_cases hgap : f.cacheIdx > f.cacheValid
  · have hlen : f.cacheValid + (List.replicate (f.cacheIdx - f.cacheValid) (0 : UInt8)).length
        ≤ f.cache.length := by
      rw [List.length_replicate, h.cacheLen]; omega
    have hlen' : (overwrite 0 f.cache f.cacheValid
        (List.replicate (f.cacheIdx - f.cacheValid) 0)).length = cacheSize := by
      rw [length_overwrite_of_le _ _ hlen, h.cacheLen]
    have hsame : ∀ j, j < f.cacheValid → f.cache.getD j 0 = D.getD (f.cachePos + j) 0 := by
      intro j hj
      rw [List.getD_eq_getElem?_getD, hbody j hj, List.getD_eq_getElem?_getD]
    refine ⟨overwrite 0 f.cache f.cacheValid (List.replicate (f.cacheIdx - f.cacheValid) 0),
      ?_, hlen', fun j hj => ?_, fun j hj => ?_⟩
    · simp [fillCache, heof, hgap, subSize_of_le (Nat.le_of_lt hgap), store_of_le hlen]
    · rw [getElem?_eq_some_getD (by omega), getD_zeroed hj]
      split
      · rename_i hjv
        rw [hsame j hjv]
      · rw [getD_past_end (by omega)]
    · have hin : f.cachePos + j < D.length := by omega
      rw [getElem?_eq_some_getD (by omega), getD_zeroed (by omega), if_pos hj, hsame j hj,
        getElem?_eq_some_getD hin]
  · -- the head is at the start of a block past the end of the file
    have hzero : f.cacheIdx = 0 := by omega
    refine ⟨f.cache, ?_, h.cacheLen, fun j hj => absurd hj (by omega), hbody⟩
    have hng : ¬ f.cacheIdx > eofIdx f := by rw [heof]; exact hgap
    have hdec : decide (eofIdx f < f.cacheIdx) = false := decide_eq_false hng
    rw [fillCache, if_neg hng, hdec, Bool.or_false]
    rfl

theorem fillDisk_spec (hrel : f.fd.Reliable) :
    ∃ fd', fillDisk f = .ok (0, { f with fd := fd' }) ∧ fd'.Reliable ∧
      fd'.disk = if eofIdx f = 0 then
        overwrite 0 f.fd.disk f.fileSize (List.replicate (f.cachePos - f.fileSize) 0)
      else f.fd.disk := by
  by_cases he : eofIdx f = 0
  · have hle : f.fileSize ≤ f.cachePos := by
      simp only [eofIdx] at he; split at he <;> omega
    have hn : ¬ ((f.fileSize : Int) < 0) := by omega
    have hm : ¬ (((List.replicate (f.cachePos - f.fileSize) (0 : UInt8)).length : Int) < 0) := by
      omega
    have hr := hrel.at f.fd.disk f.fileSize
    refine ⟨_, ?_, hr.at (overwrite 0 f.fd.disk f.fileSize
      (List.replicate (f.cachePos - f.fileSize) 0))
      (f.fileSize + (List.replicate (f.cachePos - f.fileSize) (0 : UInt8)).length), ?_⟩
    · simp only [fillDisk, he, if_true, OsFile.lseekSet_reliable hrel, if_neg hn,
        subSize_of_le hle, ok_bind, OsFile.write_reliable hr, if_neg hm, pure_eq_ok]
    · simp [he]
  · exact ⟨f.fd, by simp [fillDisk, he], hrel, by simp [he]⟩

/-- Between two chunks of one write the size already covers the rest of
the request, and the head is at the end of a block that has been written. -/
def MidWrite (f : Io300File) (D : List UInt8) (sz : Nat) : Prop :=
  f.fileSize = f.cachePos + f.cacheIdx + sz ∧ f.cachePos + f.cacheIdx ≤ D.length ∧
    D.length ≤ f.fileSize

theorem fillHole_none (h : f.cachePos + f.cacheIdx ≤ f.fileSize) : fillHole f = .ok (0, f) := by
  simp [fillHole, Nat.not_lt.mpr h]

theorem fillHole_spec (h : Coherent cacheSize f D) :
    ∃ f', fillHole f = .ok (0, f') ∧ Filled cacheSize f' D ∧ f'.cachePos = f.cachePos ∧
      f'.cacheIdx = f.cacheIdx ∧ f'.fileSize = max D.length (f.cachePos + f.cacheIdx) := by
  have hsize := h.size
  by_cases hhole : D.length < f.cachePos + f.cacheIdx
  · obtain ⟨cache, hcache, hclen, hhead, hbody⟩ := fillCache_spec h hhole
    obtain ⟨f₁, hf₁⟩ : ∃ f₁ : Io300File,
        f₁ = { f with cache := cache, isDirty := f.isDirty || eofIdx f < f.cacheIdx } := ⟨_, rfl⟩
    have hrel₁ : f₁.fd.Reliable := by rw [hf₁]; exact h.reliable
    obtain ⟨fd', hfill, hr', hdisk⟩ := fillDisk_spec hrel₁
    refine ⟨{ f₁ with fd := fd', fileSize := f.cachePos + f.cacheIdx }, ?_, ?_, ?_, ?_, ?_⟩
    · rw [fillHole, if_pos (by omega), hcache, ← hf₁]
      simp only [ok_bind, hfill, Int.lt_irrefl, if_false, pure_eq_ok]
      rw [hf₁]
    · -- only the gap before the block changes on disk
      have heq : eofIdx f₁ = eofIdx f := by rw [hf₁]; rfl
      have hdisk : fd'.disk = if eofIdx f = 0 then
          overwrite 0 f.fd.disk D.length (List.replicate (f.cachePos - D.length) 0)
        else f.fd.disk := by
        rw [hdisk, heq, hf₁]; simp only [hsize]
      rw [hf₁]
      refine ⟨hr', hclen, h.posMod, h.idxLt, h.valid, hhead, hbody, fun i hi => ?_,
        fun i hv hi => ?_⟩
      · simp only at hi ⊢
        rw [hdisk]
        split
        · rw [getD_zeroed hi]
          split
          · exact h.toCaches.disk_before hi
          · rename_i hge
            rw [getD_past_end (Nat.not_lt.mp hge)]
        · exact h.toCaches.disk_before hi
      · simp only at hv hi ⊢
        rw [hdisk]
        split
        · rename_i he
          have hle : D.length ≤ f.cachePos := by
            simp only [eofIdx, hsize] at he; split at he <;> omega
          rw [getElem?_zeroed hle (by omega)]
          exact h.toCaches.disk_after hv
        · exact h.toCaches.disk_after hv
    · rw [hf₁]
    · rw [hf₁]
    · simp only; omega
  · refine ⟨f, fillHole_none (by omega), h.toCaches.filled h.idxLt (by omega), rfl, rfl, ?_⟩
    omega

/-! ## One chunk -/

/-- Copying a chunk into a ready block is one write to the contents. -/
theorem Filled.overwrite_chunk (h : Filled cacheSize f D) {chunk : List UInt8} (hne : chunk ≠ [])
    (hfit : f.cacheIdx + chunk.length ≤ cacheSize) :
    overwrite 0 f.fd.disk f.cachePos
        ((overwrite 0 f.cache f.cacheIdx chunk).take
          (max f.cacheValid (f.cacheIdx + chunk.length))) =
      overwrite 0 D (f.cachePos + f.cacheIdx) chunk := by
  have hpos : 0 < chunk.length := List.length_pos_iff.mpr hne
  have hvalid := h.valid
  have hclen : (overwrite 0 f.cache f.cacheIdx chunk).length = cacheSize := by
    rw [length_overwrite_of_le _ _ (by rw [h.cacheLen]; omega), h.cacheLen]
  have htake : ((overwrite 0 f.cache f.cacheIdx chunk).take
      (max f.cacheValid (f.cacheIdx + chunk.length))).length
        = max f.cacheValid (f.cacheIdx + chunk.length) := by
    rw [List.length_take, hclen]; omega
  have hne' : (overwrite 0 f.cache f.cacheIdx chunk).take
      (max f.cacheValid (f.cacheIdx + chunk.length)) ≠ [] := by
    intro he; rw [he] at htake; simp at htake; omega
  apply List.ext_getElem?
  intro i
  rw [getElem?_overwrite _ _ _ _ _ hne', getElem?_overwrite _ _ _ _ _ hne, htake]
  by_cases hb : i < f.cachePos
  · rw [if_pos hb, if_pos (by omega), h.before i hb]
  rw [if_neg hb]
  by_cases hin : i < f.cachePos + max f.cacheValid (f.cacheIdx + chunk.length)
  · rw [if_pos hin, List.getElem?_take, if_pos (by omega), getElem?_overwrite _ _ _ _ _ hne]
    by_cases hh : i - f.cachePos < f.cacheIdx
    · -- below the head
      have hhead := h.head _ hh
      rw [if_pos hh, if_pos (by omega), List.getD_eq_getElem?_getD, hhead]
      simp [show f.cachePos + (i - f.cachePos) = i by omega]
    · rw [if_neg hh, if_neg (show ¬ i < f.cachePos + f.cacheIdx by omega)]
      by_cases hc : i - f.cachePos < f.cacheIdx + chunk.length
      · rw [if_pos hc, if_pos (by omega)]
        congr 1; omega
      · -- past the chunk, still in the valid part
        rw [if_neg hc, if_neg (by omega), h.body _ (by omega)]
        congr 1; omega
  · rw [if_neg hin, if_neg (by omega), if_neg (by omega)]
    exact h.after i (by omega) (by omega)

theorem cacheWrite_spec (h : Filled cacheSize f D) (buff : List UInt8) {writable : Nat}
    (hw : 0 < writable) (hfit : f.cacheIdx + writable ≤ cacheSize)
    (hbuff : writable ≤ buff.length) :
    ∃ f', cacheWrite f buff writable = .ok f' ∧
      Caches cacheSize f' (overwrite 0 D (f.cachePos + f.cacheIdx) (buff.take writable)) ∧
      f'.cachePos = f.cachePos ∧ f'.cacheIdx = f.cacheIdx ∧ f'.fileSize = f.fileSize := by
  have hlen : (buff.take writable).length = writable := by
    rw [List.length_take]; omega
  have hne : buff.take writable ≠ [] := by
    intro he; rw [he] at hlen; simp at hlen; omega
  have hstore : f.cacheIdx + (buff.take writable).length ≤ f.cache.length := by
    rw [hlen, h.cacheLen]; exact hfit
  have hvalid := h.valid
  refine ⟨{ f with cache := overwrite 0 f.cache f.cacheIdx (buff.take writable), isDirty := true,
                   cacheValid := max f.cacheValid (f.cacheIdx + writable) }, ?_, ?_, rfl, rfl, rfl⟩
  · rw [cacheWrite, if_pos hw, load_of_le (by omega)]
    simp [slice_zero, store_of_le hstore]
  · have hchunk := h.overwrite_chunk hne (by rw [hlen]; exact hfit)
    rw [hlen] at hchunk
    refine ⟨h.reliable, ?_, h.posMod, by simp; omega, ?_, hchunk, by simp⟩
    · simp only [length_overwrite_of_le _ _ hstore, h.cacheLen]
    · simp only
      rw [length_overwrite _ _ _ hne, hlen]; omega

/-! ## What reaches the disk

`Advance f f' D` bounds what a write that leaves the contents `D` puts
on disk: the disk grows, up to the block the head ends in, and all of
`D` is there when the head ends at the start of a block. -/

structure Advance (f f' : Io300File) (D : List UInt8) : Prop where
  grows : f.fd.disk.length ≤ f'.fd.disk.length
  bound : f'.fd.disk.length ≤ max f.fd.disk.length f'.cachePos
  boundary : f'.cacheIdx = 0 → f'.fd.disk = D

/-- The contents are the disk, or end with the valid part of the cache. -/
theorem Caches.length_eq (h : Caches cacheSize f D) :
    D.length = f.fd.disk.length ∨
      D.length = max f.fd.disk.length (f.cachePos + f.cacheValid) := by
  rcases eq_or_ne (f.cache.take f.cacheValid) [] with he | hne
  · left
    rw [← h.logical, he, overwrite_nil]
  · right
    rw [← h.logical, length_overwrite _ _ _ hne, h.length_valid]

theorem Caches.disk_le (h : Caches cacheSize f D) : f.fd.disk.length ≤ D.length := by
  rcases h.length_eq with he | he <;> omega

theorem cacheWrite_fd {f' : Io300File} {buff : List UInt8} {writable : Nat}
    (h : cacheWrite f buff writable = .ok f') : f'.fd = f.fd := by
  unfold cacheWrite at h
  split at h
  · obtain ⟨data, -, h⟩ := bind_eq_ok h
    obtain ⟨cache, -, h⟩ := bind_eq_ok h
    cases h
    rfl
  · cases h
    rfl

theorem fillHole_disk (h : Coherent cacheSize f D) {f' : Io300File} {r : Int}
    (hf : fillHole f = .ok (r, f')) : f.fd.disk.length ≤ f'.fd.disk.length ∧
      f'.fd.disk.length ≤ max f.fd.disk.length f.cachePos := by
  by_cases hhole : D.length < f.cachePos + f.cacheIdx
  · obtain ⟨cache, hcache, -⟩ := fillCache_spec h hhole
    have hrel : ({ f with cache := cache, isDirty := f.isDirty || eofIdx f < f.cacheIdx } :
        Io300File).fd.Reliable := h.reliable
    obtain ⟨fd', hfill, -, hdisk⟩ := fillDisk_spec hrel
    have hle := h.toCaches.disk_le
    have hsize := h.size
    rw [fillHole, if_pos (by omega), hcache] at hf
    simp only [ok_bind, hfill, Int.lt_irrefl, if_false, pure_eq_ok] at hf
    cases hf
    simp only [hdisk]
    split
    · rcases eq_or_ne (List.replicate (f.cachePos - f.fileSize) (0 : UInt8)) [] with he | hne
      · rw [he, overwrite_nil]
        exact ⟨Nat.le_refl _, Nat.le_max_left _ _⟩
      · rw [length_overwrite _ _ _ hne, List.length_replicate]
        have hgap : f.cachePos - f.fileSize ≠ 0 := fun h0 => hne (by rw [h0, List.replicate_zero])
        omega
    · omega
  · rw [fillHole_none (by rw [h.size]; omega)] at hf
    cases hf
    omega

/-! ## Moving the head -/

theorem growFile_spec (f : Io300File) (sz : Nat) :
    growFile f sz = { f with fileSize := max f.fileSize (f.cachePos + f.cacheIdx + sz) } := by
  simp only [growFile]
  split
  · rw [Nat.max_eq_right (by omega)]
  · rw [Nat.max_eq_left (by omega)]

theorem moveHead_spec (hC : 0 < cacheSize) (h : Caches cacheSize f D) {writable : Nat}
    (hfit : f.cacheIdx + writable ≤ cacheSize) (hs : D.length ≤ f.fileSize) :
    ∃ f', moveHead cacheSize f writable = .ok f' ∧ Caches cacheSize f' D ∧
      f'.cacheIdx < cacheSize ∧ f'.cachePos + f'.cacheIdx = f.cachePos + f.cacheIdx + writable ∧
      f'.fileSize = f.fileSize := by
  by_cases hend : f.cacheIdx + writable = cacheSize
  · obtain ⟨fd', hflush, hr, hdisk⟩ := flush_spec h
    have hpos : (f.cachePos + cacheSize) % cacheSize = 0 := by
      rw [Nat.add_mod_right]; exact h.posMod
    have hfl := flushed_at h hr hdisk hpos (Nat.zero_le cacheSize) (Nat.zero_le cacheSize)
    rw [moveHead, if_pos hend, hflush]
    simp only [ok_bind]
    by_cases hmore : f.fileSize > f.cachePos + cacheSize
    · obtain ⟨r, f', hfetch, -, -, hc, hp, hi, hsz⟩ := fetch_spec hfl hs
      refine ⟨f', ?_, hc, by rw [hi]; exact hC, by rw [hp, hi]; simp only; omega, hsz⟩
      simp only [if_pos hmore, hfetch, ok_bind, pure_eq_ok]
    · -- at or past the end of the file there is nothing to fetch
      refine ⟨{ f with fd := fd', isDirty := false, cachePos := f.cachePos + cacheSize,
                       cacheIdx := 0, cacheValid := 0 }, by simp only [if_neg hmore, pure_eq_ok],
        ?_, hC, by simp only; omega, rfl⟩
      exact ⟨hfl.reliable, hfl.cacheLen, hfl.posMod, hfl.idxLe, by simp only; omega,
        by simp [hdisk], fun _ => hdisk⟩
  · refine ⟨{ f with cacheIdx := f.cacheIdx + writable }, by simp [moveHead, hend], ?_,
      by simp only; omega, by simp only; omega, rfl⟩
    exact ⟨h.reliable, h.cacheLen, h.posMod, by simp only; omega, h.valid, h.logical, h.clean⟩

theorem moveHead_advance (h : Caches cacheSize f D) {writable : Nat} (hw : 0 < writable)
    {f' : Io300File} (hm : moveHead cacheSize f writable = .ok f') : Advance f f' D := by
  have hle := h.disk_le
  by_cases hend : f.cacheIdx + writable = cacheSize
  · obtain ⟨fd', hflush, -, hdisk⟩ := flush_spec h
    have hlen : D.length ≤ max f.fd.disk.length (f.cachePos + cacheSize) := by
      have := h.validLe
      rcases h.length_eq with he | he <;> omega
    obtain ⟨hd', hp'⟩ : f'.fd.disk = D ∧ f'.cachePos = f.cachePos + cacheSize := by
      rw [moveHead, if_pos hend, hflush] at hm
      simp only [ok_bind] at hm
      split at hm
      · cases hf : fetch cacheSize { f with fd := fd', cachePos := f.cachePos + cacheSize,
                                            cacheIdx := 0, cacheValid := 0, isDirty := false } with
        | error e => rw [hf] at hm; cases hm
        | ok rf =>
          rw [hf] at hm
          cases hm
          exact ⟨(fetch_disk hf).trans hdisk, (fetch_frame hf).1⟩
      · cases hm
        exact ⟨hdisk, rfl⟩
    exact ⟨by rw [hd']; exact hle, by rw [hd', hp']; exact hlen, fun _ => hd'⟩
  · simp only [moveHead, if_neg hend, pure_eq_ok] at hm
    cases hm
    exact ⟨Nat.le_refl _, Nat.le_max_left _ _, fun h0 => by simp only at h0; omega⟩

/-! ## The whole request -/

theorem length_overwrite_take {off n : Nat} {buff : List UInt8} (hpos : 0 < n)
    (hle : n ≤ buff.length) :
    (overwrite 0 D off (buff.take n)).length = max D.length (off + n) := by
  have hchunk : (buff.take n).length = n := List.length_take_of_le hle
  have hne : buff.take n ≠ [] := by
    intro he
    rw [he, List.length_nil] at hchunk
    omega
  rw [length_overwrite _ _ _ hne, hchunk]


theorem Advance.trans {f₁ f₂ : Io300File} {D' : List UInt8} (h : Advance f f₁ D)
    (h' : Advance f₁ f₂ D') (hpos : f₁.cachePos ≤ f₂.cachePos) : Advance f f₂ D' := by
  have hgrows := h.grows
  have hbound := h.bound
  have hgrows' := h'.grows
  have hbound' := h'.bound
  exact ⟨by omega, by omega, h'.boundary⟩

section Chunk

variable {buff : List UInt8} {sz w : Nat}

/-- The block is made ready, and the size covers the head. -/
theorem ready_spec (h : Caches cacheSize f D) (hidx : f.cacheIdx < cacheSize)
    (hmid : f.fileSize = D.length ∨ MidWrite f D sz) :
    ∃ f', fillHole f = .ok (0, f') ∧ Filled cacheSize f' D ∧ f'.cachePos = f.cachePos ∧
      f'.cacheIdx = f.cacheIdx ∧
      max f'.fileSize (f.cachePos + f.cacheIdx + sz)
        = max D.length (f.cachePos + f.cacheIdx + sz) ∧
      f.fd.disk.length ≤ f'.fd.disk.length ∧
        f'.fd.disk.length ≤ max f.fd.disk.length f.cachePos := by
  rcases hmid with heq | ⟨hend, hle, hge⟩
  · obtain ⟨f', hfill, hfilled, hp, hi, hs⟩ := fillHole_spec ⟨h, hidx, heq⟩
    exact ⟨f', hfill, hfilled, hp, hi, by rw [hs]; omega, fillHole_disk ⟨h, hidx, heq⟩ hfill⟩
  · exact ⟨f, fillHole_none (by omega), h.filled hidx hle, rfl, rfl, by omega, by omega⟩

/-- The first round of the loop: one chunk of `w` bytes, up to the end of
the block or of the request. -/
theorem io300WriteLoop_chunk (hC : 0 < cacheSize) (h : Caches cacheSize f D)
    (hidx : f.cacheIdx < cacheSize) (hmid : f.fileSize = D.length ∨ MidWrite f D sz)
    (h1 : 1 ≤ sz) (hbuff : sz ≤ buff.length) (hw : w = min sz (cacheSize - f.cacheIdx)) :
    ∃ f', Caches cacheSize f' (overwrite 0 D (f.cachePos + f.cacheIdx) (buff.take w)) ∧
      f'.cacheIdx < cacheSize ∧ f'.cachePos + f'.cacheIdx = f.cachePos + f.cacheIdx + w ∧
      f'.fileSize = max D.length (f.cachePos + f.cacheIdx + sz) ∧
      Advance f f' (overwrite 0 D (f.cachePos + f.cacheIdx) (buff.take w)) ∧
      ∀ fuel, io300WriteLoop cacheSize (fuel + 1) f buff sz =
        if w = sz then .ok ((w : Int), f')
        else (do
          let rest ← subSize sz w
          let r ← io300WriteLoop cacheSize fuel f' (buff.drop w) rest
          pure ((w : Int) + r.1, r.2)) := by
  obtain ⟨f₁, hfill, hfilled, hp₁, hi₁, hs₁, hd₁⟩ := ready_spec h hidx hmid
  have hpos : 0 < w := by omega
  have hfit : f.cacheIdx + w ≤ cacheSize := by omega
  have hle : w ≤ sz := by omega
  obtain ⟨f₂, hcw, hc₂, hp₂, hi₂, hs₂⟩ := cacheWrite_spec hfilled buff hpos
    (by rw [hi₁]; exact hfit) (Nat.le_trans hle hbuff)
  have hlen : (overwrite 0 D (f.cachePos + f.cacheIdx) (buff.take w)).length
      = max D.length (f.cachePos + f.cacheIdx + w) :=
    length_overwrite_take hpos (Nat.le_trans hle hbuff)
  rw [hp₁, hi₁] at hc₂
  have hgrow : (growFile f₂ sz).fileSize = max D.length (f.cachePos + f.cacheIdx + sz) := by
    rw [growFile_spec]; simp only [hs₂, hp₂, hi₂, hp₁, hi₁, hs₁]
  have hc₃ : Caches cacheSize (growFile f₂ sz)
      (overwrite 0 D (f.cachePos + f.cacheIdx) (buff.take w)) := by
    rw [growFile_spec]
    exact ⟨hc₂.reliable, hc₂.cacheLen, hc₂.posMod, hc₂.idxLe, hc₂.valid, hc₂.logical, hc₂.clean⟩
  have hi₃ : (growFile f₂ sz).cacheIdx = f.cacheIdx := by
    rw [growFile_spec]; simp only [hi₂, hi₁]
  have hp₃ : (growFile f₂ sz).cachePos = f.cachePos := by
    rw [growFile_spec]; simp only [hp₂, hp₁]
  obtain ⟨f₄, hmove, hc₄, hi₄, hpos₄, hs₄⟩ := moveHead_spec hC hc₃
    (by rw [hi₃]; exact hfit) (by rw [hlen, hgrow]; omega)
  rw [hp₃, hi₃] at hpos₄
  rw [hgrow] at hs₄
  have hadv := moveHead_advance hc₃ hpos hmove
  have hd₃ : (growFile f₂ sz).fd = f₁.fd := by
    rw [← cacheWrite_fd hcw, growFile_spec]
  -- the disk of the whole step, its first half being the hole
  have hblock : f.cachePos ≤ f₄.cachePos :=
    block_mono h.posMod hidx hc₄.posMod hi₄ (by omega)
  have hadv₄ : Advance f f₄ (overwrite 0 D (f.cachePos + f.cacheIdx) (buff.take w)) := by
    have hg := hadv.grows
    have hb := hadv.bound
    rw [hd₃] at hg hb
    exact ⟨Nat.le_trans hd₁.1 hg, by omega, hadv.boundary⟩
  refine ⟨f₄, hc₄, hi₄, hpos₄, hs₄, hadv₄, fun fuel => ?_⟩
  simp only [io300WriteLoop, h.check, ok_bind, hfill, Int.lt_irrefl, if_false, hi₁,
    subSize_of_le (Nat.le_of_lt hidx), ← hw, hcw, hmove, pure_eq_ok]

end Chunk

/-- A write of any length is one `overwrite` of the contents. The
induction is on the depth; `MidWrite` carries the advanced size from one
block to the next. -/
theorem io300WriteLoop_run (hC : 0 < cacheSize) :
    ∀ (fuel : Nat) (f : Io300File) (D buff : List UInt8) (sz : Nat),
      Caches cacheSize f D → f.cacheIdx < cacheSize →
      (f.fileSize = D.length ∨ MidWrite f D sz) →
      1 ≤ sz → sz ≤ buff.length → sz < fuel →
      ∃ f', io300WriteLoop cacheSize fuel f buff sz = .ok ((sz : Int), f') ∧
        Coherent cacheSize f' (overwrite 0 D (f.cachePos + f.cacheIdx) (buff.take sz)) ∧
        f'.cachePos + f'.cacheIdx = f.cachePos + f.cacheIdx + sz ∧
        Advance f f' (overwrite 0 D (f.cachePos + f.cacheIdx) (buff.take sz))
  | 0, _, _, _, _, _, _, _, _, _, hfuel => absurd hfuel (by omega)
  | fuel + 1, f, D, buff, sz, h, hidx, hmid, h1, hbuff, hfuel => by
    obtain ⟨w, hw⟩ : ∃ w, w = min sz (cacheSize - f.cacheIdx) := ⟨_, rfl⟩
    have hpos : 0 < w := by omega
    have hle : w ≤ sz := by omega
    obtain ⟨f₄, hc₄, hi₄, hpos₄, hs₄, hadv₄, hstep⟩ :=
      io300WriteLoop_chunk hC h hidx hmid h1 hbuff hw
    have hlen : (overwrite 0 D (f.cachePos + f.cacheIdx) (buff.take w)).length
        = max D.length (f.cachePos + f.cacheIdx + w) :=
      length_overwrite_take hpos (Nat.le_trans hle hbuff)
    by_cases hdone : w = sz
    · -- the request ends in this block
      subst hdone
      refine ⟨f₄, by rw [hstep, if_pos rfl], ⟨hc₄, hi₄, ?_⟩, hpos₄, hadv₄⟩
      rw [hs₄, hlen]
    · -- go on in the next block; the size already covers the rest
      have hmid₄ : f₄.fileSize = (overwrite 0 D (f.cachePos + f.cacheIdx) (buff.take w)).length ∨
          MidWrite f₄ (overwrite 0 D (f.cachePos + f.cacheIdx) (buff.take w)) (sz - w) := by
        rw [MidWrite, hlen, hs₄, hpos₄]
        clear hc₄ hadv₄ hstep hs₄ hpos₄
        omega
      obtain ⟨f', hrec, hco, hpos', hadv'⟩ := io300WriteLoop_run hC fuel f₄
        (overwrite 0 D (f.cachePos + f.cacheIdx) (buff.take w)) (buff.drop w) (sz - w) hc₄ hi₄
        hmid₄ (by omega) (by rw [List.length_drop]; omega) (by omega)
      have happend : overwrite 0 (overwrite 0 D (f.cachePos + f.cacheIdx) (buff.take w))
          (f₄.cachePos + f₄.cacheIdx) ((buff.drop w).take (sz - w))
          = overwrite 0 D (f.cachePos + f.cacheIdx) (buff.take sz) := by
        have hchunk : (buff.take w).length = w :=
          List.length_take_of_le (Nat.le_trans hle hbuff)
        have hcut := overwrite_append 0 D (f.cachePos + f.cacheIdx) (buff.take w)
          ((buff.drop w).take (sz - w))
        rw [hchunk] at hcut
        rw [hpos₄, hcut, ← List.take_add, Nat.add_sub_cancel' hle]
      rw [happend] at hco hadv'
      rw [hpos₄, Nat.add_assoc, Nat.add_sub_cancel' hle] at hpos'
      have hblock : f₄.cachePos ≤ f'.cachePos :=
        block_mono hc₄.posMod hi₄ hco.posMod hco.idxLt (by omega)
      refine ⟨f', ?_, hco, hpos', hadv₄.trans hadv' hblock⟩
      rw [hstep, if_neg hdone, subSize_of_le hle]
      simp only [ok_bind, hrec, pure_eq_ok]
      congr 2
      omega

theorem io300Write_run (hC : 0 < cacheSize) (h : Coherent cacheSize f D) {buff : List UInt8}
    {sz : Nat} (h1 : 1 ≤ sz) (hbuff : sz ≤ buff.length) :
    ∃ f', io300Write cacheSize f buff sz = .ok ((sz : Int), f') ∧
      Coherent cacheSize f' (overwrite 0 D (f.cachePos + f.cacheIdx) (buff.take sz)) ∧
      f'.cachePos + f'.cacheIdx = f.cachePos + f.cacheIdx + sz ∧
      Advance f f' (overwrite 0 D (f.cachePos + f.cacheIdx) (buff.take sz)) :=
  io300WriteLoop_run hC (sz + 2) f D buff sz h.toCaches h.idxLt (Or.inl h.size) h1 hbuff
    (by omega)

theorem io300Write_spec (hC : 0 < cacheSize) (h : Coherent cacheSize f D) {buff : List UInt8}
    {sz : Nat} (h1 : 1 ≤ sz) (hbuff : sz ≤ buff.length) :
    ∃ f', io300Write cacheSize f buff sz = .ok ((sz : Int), f') ∧
      Coherent cacheSize f' (overwrite 0 D (f.cachePos + f.cacheIdx) (buff.take sz)) ∧
      f'.cachePos + f'.cacheIdx = f.cachePos + f.cacheIdx + sz := by
  obtain ⟨f', hrun, hco, hhead, -⟩ := io300Write_run hC h h1 hbuff
  exact ⟨f', hrun, hco, hhead⟩

end SystemsProjects.FileIO.Student
