/-
SystemsProjects.FileIO.MemorySafety — the cached implementation under any
results of the system calls.

`Safe` is what the four numbers of a block have to do with each other, and
no more: after a failed `flush` or `fetch` the cache, the disk and
`fileSize` need not agree, and the head may stay at the end of its block.
It is enough for every bound. Each lemma says that an operation on a safe
state has a result, hence no `Fault`, and that the state it leaves is safe.

`Hostile` are the states of runs in which the kernel may answer each call
as any file would: as a file may be of any length, its results are all the
failures and short counts there are (`read_any`, `write_any`).
-/
import SystemsProjects.FileIO.FailureHonesty

namespace SystemsProjects.FileIO

open SystemsProjects.Base

/-! ## Any result -/

namespace OsFile

/-- A `read` returns any count up to the one it is asked for. -/
theorem read_any {k : OsFile} {m n : Nat} {script : List Outcome}
    (hs : k.script = .short m :: script)
    (hm : m ≤ n) (hlen : k.offset + n ≤ k.disk.length) : (k.read n).1 = m := by
  have hnext : k.next = (.short m, { k with script := script }) := by rw [next, hs]
  have hmin : min m (min n (k.disk.length - k.offset)) = m := by omega
  rw [read, hnext]
  dsimp only [Outcome.transfer]
  rw [hmin, length_slice_of_le (by omega)]

/-- So does a `write`. -/
theorem write_any {k : OsFile} {m : Nat} {data : List UInt8} {script : List Outcome}
    (hs : k.script = .short m :: script) (hw : k.writable = true) (hm : m ≤ data.length) :
    (k.write data).1 = m := by
  have hnext : k.next = (.short m, { k with script := script }) := by rw [next, hs]
  rw [write, hnext]
  dsimp only [Outcome.transfer]
  rw [hw, Nat.min_eq_left hm]

/-- A `read` fails, or returns the number of the bytes it places. -/
theorem read_count (k : OsFile) (n : Nat) :
    (k.read n).2.1.length ≤ n ∧ ((k.read n).1 < 0 ∨ (k.read n).1 = (k.read n).2.1.length) := by
  rw [read]
  dsimp only
  split
  · exact ⟨Nat.zero_le n, .inl (show (-1 : Int) < 0 by decide)⟩
  · next m htransfer =>
    refine ⟨?_, .inr rfl⟩
    have hm : m ≤ n := by
      cases ho : k.next.1 with
      | full =>
        rw [ho] at htransfer
        cases htransfer
        omega
      | fail =>
        rw [ho] at htransfer
        cases htransfer
      | short m' =>
        rw [ho] at htransfer
        cases htransfer
        omega
    rw [length_slice]
    omega

end OsFile

namespace Student

variable {cacheSize : Nat} {f f' : Io300File}

/-! ## Safe states -/

structure Safe (cacheSize : Nat) (f : Io300File) : Prop where
  length : f.cache.length = cacheSize
  valid : f.cacheValid ≤ cacheSize
  aligned : f.cachePos % cacheSize = 0
  idx : f.cacheIdx ≤ cacheSize

theorem Safe.check (h : Safe cacheSize f) : checkInvariants cacheSize f = .ok () :=
  checkInvariants_ok h.valid h.aligned h.idx

/-- The descriptor and the dirty flag do not matter. -/
theorem Safe.withFd (h : Safe cacheSize f) (fd : OsFile) (isDirty : Bool) :
    Safe cacheSize { f with fd := fd, isDirty := isDirty } :=
  ⟨h.length, h.valid, h.aligned, h.idx⟩

theorem aligned_next {pos : Nat} (h : pos % cacheSize = 0) : (pos + cacheSize) % cacheSize = 0 := by
  rw [Nat.add_mod_right, h]

/-! ## `flush` and `fetch` -/

theorem flushLoop_total {fuel count : Nat} (h : Safe cacheSize f)
    (hfuel : f.cacheValid - count < fuel) :
    ∃ r f', flushLoop fuel f count = .ok (r, f') := by
  induction fuel generalizing f count with
  | zero => exact absurd hfuel (Nat.not_lt_zero _)
  | succ fuel ih =>
    rw [flushLoop]
    split
    · next hlt =>
      have hlen : count + (f.cacheValid - count) ≤ f.cache.length := by
        rw [h.length, Nat.add_sub_of_le (Nat.le_of_lt hlt)]
        exact h.valid
      rw [subSize_of_le (Nat.le_of_lt hlt), ok_bind, load_of_le hlen, ok_bind]
      dsimp only
      split
      · exact ⟨_, _, rfl⟩
      · next hpos => exact ih (h.withFd _ f.isDirty) (show f.cacheValid - _ < fuel by omega)
    · exact ⟨_, _, rfl⟩

theorem flush_safe (h : Safe cacheSize f) :
    ∃ r f', flush cacheSize f = .ok (r, f') ∧ Safe cacheSize f' ∧
      f' = { f with fd := f'.fd, isDirty := f'.isDirty } := by
  obtain ⟨r, f', hflush⟩ : ∃ r f', flush cacheSize f = .ok (r, f') := by
    rw [flush, h.check, ok_bind]
    split
    · exact ⟨_, _, rfl⟩
    · dsimp only
      split
      · exact ⟨_, _, rfl⟩
      · exact flushLoop_total (h.withFd _ f.isDirty) (Nat.lt_succ_of_le (Nat.sub_le _ _))
  have hframe := (flush_frame hflush).2
  exact ⟨r, f', hflush, hframe ▸ h.withFd f'.fd f'.isDirty, hframe⟩

theorem fetch_safe (h : Safe cacheSize f) :
    ∃ r f', fetch cacheSize f = .ok (r, f') ∧ Safe cacheSize f' := by
  rw [fetch, h.check, ok_bind]
  split
  · exact ⟨_, _, rfl, h.length, Nat.zero_le _, h.aligned, h.idx⟩
  · dsimp only
    split
    · exact ⟨_, _, rfl, h.withFd _ f.isDirty⟩
    · obtain ⟨hcount, hres⟩ := OsFile.read_count (f.fd.lseekSet f.cachePos).2 cacheSize
      split
      · exact ⟨_, _, rfl, h.withFd _ f.isDirty⟩
      · next hneg =>
        -- what was read fits into the cache, whatever its count
        have hres := hres.resolve_left hneg
        have hfits : 0 + ((f.fd.lseekSet f.cachePos).2.read cacheSize).2.1.length ≤
            f.cache.length := by
          rw [h.length, Nat.zero_add]
          exact hcount
        rw [store_of_le hfits, ok_bind]
        refine ⟨_, _, rfl, (length_overwrite_of_le _ _ hfits).trans h.length, ?_, h.aligned, h.idx⟩
        rw [hres, Int.toNat_natCast]
        exact hcount

theorem nextBlock_safe (h : Safe cacheSize f) :
    ∃ r f', nextBlock cacheSize f = .ok (r, f') ∧ Safe cacheSize f' ∧ f'.fileSize = f.fileSize ∧
      (0 ≤ r → f'.cachePos = f.cachePos + cacheSize) := by
  obtain ⟨r, f₁, hflush, hsafe, hframe⟩ := flush_safe h
  rw [nextBlock, hflush, ok_bind]
  dsimp only
  split
  · next hneg =>
    rw [hframe] at hsafe ⊢
    exact ⟨_, _, rfl, hsafe, rfl, fun hr => absurd hr (by omega)⟩
  · have hmoved : Safe cacheSize { f₁ with cachePos := f₁.cachePos + cacheSize, cacheIdx := 0 } :=
      ⟨hsafe.length, hsafe.valid, aligned_next hsafe.aligned, Nat.zero_le _⟩
    obtain ⟨s, f₂, hfetch, hsafe'⟩ := fetch_safe hmoved
    obtain ⟨hpos, -, hsize⟩ := fetch_frame hfetch
    rw [hfetch, ok_bind]
    refine ⟨_, _, rfl, hsafe', ?_, fun _ => ?_⟩
    · rw [hsize, hframe]
    · rw [hpos, hframe]

/-! ## Reading -/

/-- A copy to the front of a buffer leaves what is behind it. -/
theorem drop_overwrite_front {buff data : List UInt8} {sz : Nat} (h : data.length ≤ sz) :
    (overwrite 0 buff 0 data).drop sz = buff.drop sz := by
  unfold overwrite
  split
  · rfl
  · rw [List.take_zero, List.nil_append, Nat.zero_add, List.drop_append,
      List.drop_eq_nil_of_le h, List.nil_append, List.drop_drop, Nat.add_sub_of_le h]

/-- The copy of `io300_read` stays in the cache and in the caller's buffer. -/
theorem Safe.readable (h : Safe cacheSize f) {sz n avail : Nat}
    (hn : n = min sz (min (cacheSize - f.cacheIdx) avail)) :
    n ≤ sz ∧ f.cacheIdx + n ≤ f.cache.length := by
  have hidx := h.idx
  rw [h.length]
  omega

/-- Every recursion starts at the next block, as long as it is before the
end of the file. -/
theorem io300ReadLoop_safe {fuel sz : Nat} {buff : List UInt8} (hC : 0 < cacheSize)
    (h : Safe cacheSize f)
    (hsz : sz ≤ buff.length) (hfuel : f.fileSize - f.cachePos < fuel) :
    ∃ n buff' f', io300ReadLoop cacheSize fuel f buff sz = .ok (n, buff', f') ∧ Safe cacheSize f' ∧
      buff'.length = buff.length ∧ buff'.drop sz = buff.drop sz := by
  induction fuel generalizing f buff sz with
  | zero => exact absurd hfuel (Nat.not_lt_zero _)
  | succ fuel ih =>
    rw [io300ReadLoop, h.check, ok_bind]
    split
    · exact ⟨_, _, _, rfl, h, rfl, rfl⟩
    · next hbefore =>
      rw [subSize_of_le h.idx, ok_bind]
      dsimp only
      generalize hn : min sz (min (cacheSize - f.cacheIdx)
        (if f.cacheIdx < f.cacheValid then f.cacheValid - f.cacheIdx else 0)) = readable
      obtain ⟨hle, hload⟩ := h.readable hn.symm
      have hdata : (slice f.cache f.cacheIdx readable).length = readable := length_slice_of_le hload
      have hfits : 0 + (slice f.cache f.cacheIdx readable).length ≤ buff.length := by omega
      have hlen := length_overwrite_of_le buff _ hfits
      have hkeep : (overwrite 0 buff 0 (slice f.cache f.cacheIdx readable)).drop sz =
          buff.drop sz :=
        drop_overwrite_front (Nat.le_trans (Nat.le_of_eq hdata) hle)
      rw [load_of_le hload, ok_bind, store_of_le hfits, ok_bind]
      generalize overwrite 0 buff 0 (slice f.cache f.cacheIdx readable) = buff₁ at hlen hkeep
      split
      · -- everything was copied, or the file ends here
        have hmoved : Safe cacheSize { f with cacheIdx := f.cacheIdx + readable } :=
          ⟨h.length, h.valid, h.aligned, h.length ▸ hload⟩
        split
        · obtain ⟨rc, f', hnext, hsafe, -, -⟩ := nextBlock_safe hmoved
          rw [hnext, ok_bind]
          exact ⟨_, _, _, rfl, hsafe, hlen, hkeep⟩
        · exact ⟨_, _, _, rfl, hmoved, hlen, hkeep⟩
      · obtain ⟨rc, f', hnext, hsafe, hsize, hpos⟩ := nextBlock_safe h
        rw [hnext, ok_bind]
        dsimp only
        split
        · exact ⟨_, _, _, rfl, hsafe, hlen, hkeep⟩
        · next hrc =>
          have hpos := hpos (Int.not_lt.mp hrc)
          have hroom : sz - readable ≤ (buff₁.drop readable).length := by
            rw [List.length_drop, hlen]
            omega
          obtain ⟨n', tail, f₂, hloop, hsafe₂, htail, hbehind⟩ := ih hsafe hroom (by omega)
          rw [subSize_of_le hle, ok_bind, hloop, ok_bind]
          refine ⟨_, _, _, rfl, hsafe₂, ?_, ?_⟩
          · rw [List.length_append, List.length_take, htail, List.length_drop]
            omega
          · rw [List.drop_append, List.drop_eq_nil_of_le (by rw [List.length_take]; omega),
              List.nil_append, List.length_take, Nat.min_eq_left (by omega), hbehind,
              List.drop_drop,
              Nat.add_sub_of_le hle, hkeep]

theorem io300Read_safe {sz : Nat} {buff : List UInt8} (hC : 0 < cacheSize) (h : Safe cacheSize f)
    (hsz : sz ≤ buff.length) :
    ∃ n buff' f', io300Read cacheSize f buff sz = .ok (n, buff', f') ∧ Safe cacheSize f' ∧
      buff'.length = buff.length ∧ buff'.drop sz = buff.drop sz :=
  io300ReadLoop_safe hC h hsz (Nat.lt_succ_of_le (Nat.sub_le _ _))

theorem io300Seek_safe (hC : 0 < cacheSize) (h : Safe cacheSize f) (pos : Int) :
    ∃ r f', io300Seek cacheSize f pos = .ok (r, f') ∧ Safe cacheSize f' := by
  rw [io300Seek, h.check, ok_bind]
  split
  · exact ⟨_, _, rfl, h⟩
  · dsimp only
    split
    · next hin => exact ⟨_, _, rfl, h.length, h.valid, h.aligned, by dsimp only; omega⟩
    · obtain ⟨r, f₁, hflush, hsafe, -⟩ := flush_safe h
      have hmoved : Safe cacheSize { f₁ with
          cachePos := pos.toNat - pos.toNat % cacheSize, cacheIdx := pos.toNat % cacheSize } :=
        ⟨hsafe.length, hsafe.valid, Nat.sub_mod_eq_zero_of_mod_eq (Nat.mod_mod _ _).symm,
          Nat.le_of_lt (Nat.mod_lt _ hC)⟩
      obtain ⟨s, f₂, hfetch, hsafe'⟩ := fetch_safe hmoved
      rw [hflush, ok_bind]
      dsimp only
      rw [hfetch]
      exact ⟨_, _, rfl, hsafe'⟩

/-! ## Writing -/

/-- The hole is filled inside the cache. -/
theorem fillCache_safe (h : Safe cacheSize f) :
    ∃ f', fillCache f = .ok f' ∧ Safe cacheSize f' ∧ f'.cachePos = f.cachePos ∧
      f'.cacheIdx = f.cacheIdx ∧ f'.fileSize = f.fileSize := by
  rw [fillCache]
  split
  · next hgap =>
    have hidx := h.idx
    have hfits : eofIdx f + (List.replicate (f.cacheIdx - eofIdx f) (0 : UInt8)).length ≤
        f.cache.length := by
      rw [List.length_replicate, h.length]
      omega
    rw [subSize_of_le (Nat.le_of_lt hgap), ok_bind, store_of_le hfits]
    exact ⟨_, rfl, ⟨(length_overwrite_of_le _ _ hfits).trans h.length, h.valid, h.aligned, h.idx⟩,
      rfl, rfl, rfl⟩
  · exact ⟨_, rfl, h, rfl, rfl, rfl⟩

theorem fillDisk_safe (h : Safe cacheSize f) :
    ∃ r f', fillDisk f = .ok (r, f') ∧ Safe cacheSize f' ∧ f'.cachePos = f.cachePos ∧
      f'.cacheIdx = f.cacheIdx := by
  rw [fillDisk]
  split
  · next heof =>
    dsimp only
    split
    · exact ⟨_, _, rfl, h.withFd _ f.isDirty, rfl, rfl⟩
    · have hle : f.fileSize ≤ f.cachePos := by
        unfold eofIdx at heof
        split at heof <;> omega
      rw [subSize_of_le hle, ok_bind]
      exact ⟨_, _, rfl, h.withFd _ f.isDirty, rfl, rfl⟩
  · exact ⟨_, _, rfl, h, rfl, rfl⟩

theorem fillHole_safe (h : Safe cacheSize f) :
    ∃ r f', fillHole f = .ok (r, f') ∧ Safe cacheSize f' ∧ f'.cacheIdx = f.cacheIdx := by
  rw [fillHole]
  split
  · obtain ⟨f₁, hcache, hsafe, -, hidx, -⟩ := fillCache_safe h
    obtain ⟨r, f₂, hdisk, hsafe', -, hidx'⟩ := fillDisk_safe hsafe
    rw [hcache, ok_bind, hdisk, ok_bind]
    dsimp only
    split
    · exact ⟨_, _, rfl, hsafe', hidx'.trans hidx⟩
    · exact ⟨_, _, rfl, ⟨hsafe'.length, hsafe'.valid, hsafe'.aligned, hsafe'.idx⟩, hidx'.trans hidx⟩
  · exact ⟨_, _, rfl, h, rfl⟩

theorem cacheWrite_safe {buff : List UInt8} {writable : Nat} (h : Safe cacheSize f)
    (hbuff : writable ≤ buff.length) (hroom : f.cacheIdx + writable ≤ cacheSize) :
    ∃ f', cacheWrite f buff writable = .ok f' ∧ Safe cacheSize f' ∧ f'.cacheIdx = f.cacheIdx := by
  rw [cacheWrite]
  split
  · have hload : 0 + writable ≤ buff.length := by omega
    have hdata : (slice buff 0 writable).length = writable := length_slice_of_le hload
    have hfits : f.cacheIdx + (slice buff 0 writable).length ≤ f.cache.length := by
      rw [hdata, h.length]
      exact hroom
    rw [load_of_le hload, ok_bind, store_of_le hfits]
    exact ⟨_, rfl, ⟨(length_overwrite_of_le _ _ hfits).trans h.length,
      Nat.max_le.mpr ⟨h.valid, hroom⟩,
      h.aligned, h.idx⟩, rfl⟩
  · exact ⟨_, rfl, h, rfl⟩

theorem growFile_safe (h : Safe cacheSize f) (sz : Nat) :
    Safe cacheSize (growFile f sz) ∧ (growFile f sz).cacheIdx = f.cacheIdx := by
  rw [growFile_spec]
  exact ⟨⟨h.length, h.valid, h.aligned, h.idx⟩, rfl⟩

/-- After a full block the head is at the start of the next. -/
theorem moveHead_safe (writable : Nat) (h : Safe cacheSize f)
    (hroom : f.cacheIdx + writable ≤ cacheSize) :
    ∃ f', moveHead cacheSize f writable = .ok f' ∧ Safe cacheSize f' ∧
      (f.cacheIdx + writable = cacheSize → f'.cacheIdx = 0) := by
  rw [moveHead]
  split
  · obtain ⟨r, f₁, hflush, hsafe, -⟩ := flush_safe h
    have hmoved : Safe cacheSize
        { f₁ with cachePos := f₁.cachePos + cacheSize, cacheIdx := 0, cacheValid := 0 } :=
      ⟨hsafe.length, Nat.zero_le _, aligned_next hsafe.aligned, Nat.zero_le _⟩
    rw [hflush, ok_bind]
    dsimp only
    split
    · obtain ⟨s, f₂, hfetch, hsafe'⟩ := fetch_safe hmoved
      rw [hfetch]
      exact ⟨_, rfl, hsafe', fun _ => (fetch_frame hfetch).2.1⟩
    · exact ⟨_, rfl, hmoved, fun _ => rfl⟩
  · next hne => exact ⟨_, rfl, ⟨h.length, h.valid, h.aligned, hroom⟩, fun heq => absurd heq hne⟩

/-- Every recursion has written a byte, except for the one that leaves a
block at whose end the head was. -/
theorem io300WriteLoop_safe {fuel sz : Nat} {buff : List UInt8} (hC : 0 < cacheSize)
    (h : Safe cacheSize f) (hsz : sz ≤ buff.length)
    (hfuel : sz + (if f.cacheIdx = cacheSize then 1 else 0) < fuel) :
    ∃ n f', io300WriteLoop cacheSize fuel f buff sz = .ok (n, f') ∧ Safe cacheSize f' := by
  induction fuel generalizing f buff sz with
  | zero => exact absurd hfuel (Nat.not_lt_zero _)
  | succ fuel ih =>
    obtain ⟨rc, f₁, hhole, hsafe₁, hidx₁⟩ := fillHole_safe h
    rw [io300WriteLoop, h.check, ok_bind, hhole, ok_bind]
    dsimp only
    split
    · exact ⟨_, _, rfl, hsafe₁⟩
    · have hle := hsafe₁.idx
      rw [subSize_of_le hle, ok_bind]
      generalize hw : min sz (cacheSize - f₁.cacheIdx) = writable
      obtain ⟨f₂, hcache, hsafe₂, hidx₂⟩ :=
        cacheWrite_safe hsafe₁ (show writable ≤ buff.length by omega)
        (by omega)
      obtain ⟨hsafe₃, hidx₃⟩ := growFile_safe hsafe₂ sz
      obtain ⟨f₄, hmove, hsafe₄, hstart⟩ := moveHead_safe writable hsafe₃ (by omega)
      rw [hcache, ok_bind, hmove, ok_bind]
      split
      · exact ⟨_, _, rfl, hsafe₄⟩
      · next hmore =>
        have hzero : f₄.cacheIdx = 0 := hstart (by omega)
        have hroom : sz - writable ≤ (buff.drop writable).length := by
          rw [List.length_drop]
          omega
        have hless : sz - writable + (if f₄.cacheIdx = cacheSize then 1 else 0) < fuel := by
          rw [hzero, if_neg (by omega)]
          split at hfuel <;> omega
        obtain ⟨n', f₅, hloop, hsafe₅⟩ := ih hsafe₄ hroom hless
        rw [subSize_of_le (by omega), ok_bind, hloop]
        exact ⟨_, _, rfl, hsafe₅⟩

theorem io300Write_safe {sz : Nat} {buff : List UInt8} (hC : 0 < cacheSize) (h : Safe cacheSize f)
    (hsz : sz ≤ buff.length) :
    ∃ n f', io300Write cacheSize f buff sz = .ok (n, f') ∧ Safe cacheSize f' :=
  io300WriteLoop_safe hC h hsz (by split <;> omega)

/-! ## Opening and closing -/

/-- `io300_open` after its calls of `lseek`, the first of which returned
`fileSize`. -/
def openFrom (cacheSize fileSize : Nat) (fd : OsFile) (fresh : List UInt8) :
    Except Fault (Option Io300File) := do
  let (bytesFetched, f) ← fetch cacheSize
    { fd := fd, cache := fresh, cachePos := 0, cacheIdx := 0, cacheValid := min fileSize cacheSize,
      isDirty := false, fileSize := fileSize }
  if bytesFetched < 0 then pure none
  else
    let f := if bytesFetched < cacheSize then { f with cacheValid := bytesFetched.toNat } else f
    checkInvariants cacheSize f
    pure (some f)

theorem io300Open_cases (cacheSize mode : Nat) (content fresh : List UInt8)
    (script : List Outcome) :
    io300Open cacheSize mode content script fresh = .ok none ∨
      ∃ fd, osOpen mode content script = some fd ∧ io300Open cacheSize mode content script fresh =
        openFrom cacheSize fd.lseekEnd.1.toNat (fd.lseekEnd.2.lseekSet 0).2 fresh := by
  unfold io300Open
  split
  · exact .inl rfl
  · next fd hfd =>
    dsimp only
    split
    · exact .inl rfl
    · split
      · exact .inl rfl
      · exact .inr ⟨fd, hfd, rfl⟩

theorem openFrom_safe (fileSize : Nat) (fd : OsFile) {fresh : List UInt8}
    (hfresh : fresh.length = cacheSize) :
    ∃ r, openFrom cacheSize fileSize fd fresh = .ok r ∧ ∀ f, r = some f → Safe cacheSize f := by
  have hfirst : Safe cacheSize
      { fd := fd, cache := fresh, cachePos := 0, cacheIdx := 0,
        cacheValid := min fileSize cacheSize, isDirty := false, fileSize := fileSize } :=
    ⟨hfresh, Nat.min_le_right _ _, Nat.zero_mod _, Nat.zero_le _⟩
  obtain ⟨n, f₁, hfetch, hsafe⟩ := fetch_safe hfirst
  rw [openFrom, hfetch, ok_bind]
  dsimp only
  split
  · exact ⟨_, rfl, fun f hf => by cases hf⟩
  · have hopen : Safe cacheSize
      (if n < cacheSize then { f₁ with cacheValid := n.toNat } else f₁) := by
      split
      · exact ⟨hsafe.length, by dsimp only; omega, hsafe.aligned, hsafe.idx⟩
      · exact hsafe
    rw [hopen.check]
    refine ⟨_, rfl, fun f hf => ?_⟩
    cases hf
    exact hopen

theorem io300Filesize_safe (h : Safe cacheSize f) :
    ∃ r f', io300Filesize cacheSize f = .ok (r, f') ∧ Safe cacheSize f' := by
  rw [io300Filesize, h.check]
  exact ⟨_, _, rfl, h.withFd _ f.isDirty⟩

theorem io300Close_safe (h : Safe cacheSize f) : ∃ r disk,
    io300Close cacheSize f = .ok (r, disk) := by
  obtain ⟨r, f', hflush, -⟩ := flush_safe h
  rw [io300Close, h.check, ok_bind, hflush]
  exact ⟨_, _, rfl⟩

/-! ## Runs -/

/-- The caller's buffer behind what the call may use of it. -/
def LeavesBuffer (c : Call) (a : Answer) : Prop :=
  match c with
  | .read buff sz => a.buff.length = buff.length ∧ a.buff.drop sz = buff.drop sz
  | .write buff _ => a.buff = buff
  | _ => True

theorem step_safe {c : Call} (hC : 0 < cacheSize) (h : Safe cacheSize f) (hc : c.Fits) :
    ∃ a f', step cacheSize f c = .ok (a, f') ∧ Safe cacheSize f' ∧ LeavesBuffer c a := by
  cases c with
  | seek pos =>
    obtain ⟨r, f', hseek, hsafe⟩ := io300Seek_safe hC h pos
    rw [step, hseek]
    exact ⟨_, _, rfl, hsafe, trivial⟩
  | read buff sz =>
    obtain ⟨n, buff', f', hread, hsafe, hbuff⟩ := io300Read_safe hC h hc
    rw [step, hread]
    exact ⟨_, _, rfl, hsafe, hbuff⟩
  | readc =>
    obtain ⟨n, ch, f', hread, hsafe, -⟩ :=
      io300Read_safe hC h (show 1 ≤ [(0 : UInt8)].length from Nat.le_refl 1)
    rw [step, io300Readc, h.check, ok_bind, hread]
    exact ⟨_, _, rfl, hsafe, trivial⟩
  | write buff sz =>
    obtain ⟨n, f', hwrite, hsafe⟩ := io300Write_safe hC h hc
    rw [step, hwrite]
    exact ⟨_, _, rfl, hsafe, rfl⟩
  | writec ch =>
    obtain ⟨n, f', hwrite, hsafe⟩ := io300Write_safe hC h
      (show 1 ≤ [UInt8.ofInt ch].length from Nat.le_refl 1)
    rw [step, io300Writec, h.check, ok_bind]
    dsimp only
    rw [hwrite]
    exact ⟨_, _, rfl, hsafe, trivial⟩

/-- The states of an open file under a kernel that answers each call as any
file would. -/
inductive Hostile (cacheSize : Nat) : Io300File → Prop where
  | opened {fileSize : Nat} {fd : OsFile} {fresh : List UInt8} {f : Io300File}
      (hfresh : fresh.length = cacheSize)
      (hopen : openFrom cacheSize fileSize fd fresh = .ok (some f)) :
      Hostile cacheSize f
  | called {f f' : Io300File} {c : Call} {a : Answer} (h : Hostile cacheSize f) (hc : c.Fits)
      (fd : OsFile) (hstep : step cacheSize { f with fd := fd } c = .ok (a, f')) :
      Hostile cacheSize f'
  | sized {f f' : Io300File} {r : Int} (h : Hostile cacheSize f) (fd : OsFile)
      (hsize : io300Filesize cacheSize { f with fd := fd } = .ok (r, f')) : Hostile cacheSize f'

theorem Hostile.safe (hC : 0 < cacheSize) (h : Hostile cacheSize f) : Safe cacheSize f := by
  induction h with
  | opened hfresh hopen =>
    obtain ⟨r, hr, hsafe⟩ := openFrom_safe _ _ hfresh
    rw [hr] at hopen
    exact hsafe _ (Except.ok.inj hopen)
  | called _ hc fd hstep ih =>
    obtain ⟨a, f', hstep', hsafe, -⟩ := step_safe hC (ih.withFd fd _) hc
    rw [hstep'] at hstep
    cases hstep
    exact hsafe
  | sized _ fd hsize ih =>
    obtain ⟨r, f', hsize', hsafe⟩ := io300Filesize_safe (ih.withFd fd _)
    rw [hsize'] at hsize
    cases hsize
    exact hsafe

/-- **No call faults**, whatever the system calls return: opening, every
call on an open file, and closing it end without a failed assertion, an
access outside the cache or the caller's buffer, or a subtraction below
zero. -/
theorem hostile_runs_safe {cacheSize : Nat} (hC : 4 ≤ cacheSize) :
    (∀ mode content script fresh, fresh.length = cacheSize →
      ∃ r, io300Open cacheSize mode content script fresh = .ok r ∧
        ∀ f, r = some f → Hostile cacheSize f) ∧
    (∀ fileSize fd fresh, fresh.length = cacheSize →
    ∃ r, openFrom cacheSize fileSize fd fresh = .ok r) ∧
    ∀ f, Hostile cacheSize f → ∀ fd : OsFile,
      (∀ c : Call, c.Fits →
        ∃ a f', step cacheSize { f with fd := fd } c = .ok (a, f') ∧ LeavesBuffer c a) ∧
      (∃ r f', io300Filesize cacheSize { f with fd := fd } = .ok (r, f')) ∧
      ∃ r disk, io300Close cacheSize { f with fd := fd } = .ok (r, disk) := by
  have hpos : 0 < cacheSize := by omega
  refine ⟨fun mode content script fresh hfresh => ?_, fun fileSize fd fresh hfresh => ?_,
    fun f hf fd => ?_⟩
  · rcases io300Open_cases cacheSize mode content fresh script with hnone | ⟨fd, -, hopen⟩
    · exact ⟨none, hnone, fun f hf => by cases hf⟩
    · obtain ⟨r, hr, -⟩ := openFrom_safe fd.lseekEnd.1.toNat (fd.lseekEnd.2.lseekSet 0).2 hfresh
      refine ⟨r, hopen.trans hr, fun f hf => ?_⟩
      exact .opened hfresh (hr.trans (congrArg Except.ok hf))
  · obtain ⟨r, hr, -⟩ := openFrom_safe _ _ hfresh
    exact ⟨r, hr⟩
  · have hsafe := (hf.safe hpos).withFd fd f.isDirty
    refine ⟨fun c hc => ?_, ?_, io300Close_safe hsafe⟩
    · obtain ⟨a, f', hstep, -, hbuff⟩ := step_safe hpos hsafe hc
      exact ⟨a, f', hstep, hbuff⟩
    · obtain ⟨r, f', hsize, -⟩ := io300Filesize_safe hsafe
      exact ⟨r, f', hsize⟩

/-- The block read on opening comes short; of the bytes written to it,
the flush of the next seek writes one and then fails. -/
theorem hostile_runs_safe_short :
    let f : Io300File := ⟨⟨[7, 8, 9, 10, 11], 3, true, []⟩, [7, 8, 9, 0], 0, 0, 3, false, 5⟩
    let f' : Io300File := ⟨⟨[7, 8, 9, 10, 11], 3, true, []⟩, [1, 2, 9, 0], 0, 2, 3, true, 5⟩
    let f'' : Io300File := ⟨⟨[1, 8, 9, 10, 11], 5, true, []⟩, [11, 2, 9, 0], 4, 0, 1, true, 5⟩
    io300Open 4 MODE_RDWR [7, 8, 9, 10, 11] [.full, .full, .full, .short 3] [0, 0, 0, 0] =
      .ok (some f) ∧
    step 4 f (.write [1, 2] 2) = .ok (⟨2, [1, 2]⟩, f') ∧
    step 4 { f' with fd := { f'.fd with script := [.full, .short 1, .fail] } } (.seek 4) =
      .ok (⟨4, []⟩, f'') ∧
    ∀ fd : OsFile,
      (∀ c : Call, c.Fits →
        ∃ a g, step 4 { f'' with fd := fd } c = .ok (a, g) ∧ LeavesBuffer c a) ∧
      (∃ r g, io300Filesize 4 { f'' with fd := fd } = .ok (r, g)) ∧
      ∃ r disk, io300Close 4 { f'' with fd := fd } = .ok (r, disk) := by
  intro f f' f''
  obtain ⟨hopens, -, hcalls⟩ := hostile_runs_safe (Nat.le_refl 4)
  have hopen : io300Open 4 MODE_RDWR [7, 8, 9, 10, 11] [.full, .full, .full, .short 3]
      [0, 0, 0, 0] = .ok (some f) := rfl
  have hwrite : step 4 f (.write [1, 2] 2) = .ok (⟨2, [1, 2]⟩, f') := rfl
  have hseek : step 4 { f' with fd := { f'.fd with script := [.full, .short 1, .fail] } }
      (.seek 4) = .ok (⟨4, []⟩, f'') := by decide +kernel
  obtain ⟨r, hr, hhostile⟩ :=
    hopens MODE_RDWR [7, 8, 9, 10, 11] [.full, .full, .full, .short 3] [0, 0, 0, 0] rfl
  have hf : Hostile 4 f := hhostile f (Except.ok.inj (hr.symm.trans hopen))
  have hf' : Hostile 4 f' := hf.called (c := .write [1, 2] 2) (Nat.le_refl 2) f.fd hwrite
  have hf'' : Hostile 4 f'' := hf'.called (c := .seek 4) trivial _ hseek
  exact ⟨hopen, hwrite, hseek, hcalls f'' hf''⟩

end Student

end SystemsProjects.FileIO
