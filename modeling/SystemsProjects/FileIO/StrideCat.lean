/-
SystemsProjects.FileIO.StrideCat — `stride_cat`, which copies a file out
of order.

The file is read as a matrix whose rows are `stride` bytes: the first
`blockSize` bytes of every row, then the next of every row, and so on. The
program keeps no count of rows or columns, only a position and the size of
the next block; both follow from the remainder of the position at the end
of a column.
-/
import SystemsProjects.Base.Strides
import SystemsProjects.FileIO.CopyPrograms
import Mathlib.Algebra.Group.Int.Defs
import Mathlib.Algebra.Group.Nat.Defs

namespace SystemsProjects.FileIO.Programs

open SystemsProjects.Base

/-! ## The program -/

/-- A `size_t`. -/
def toSize (x : Int) : Nat := (x % (2 ^ 64 : Nat)).toNat

/-- An `off_t` from a `size_t`. -/
def toOff (x : Nat) : Int := (x : Int).bmod (2 ^ 64)

/-- `block_size`, `pos`, `written` and the buffer. -/
structure StrideState where
  blockSize : Nat
  pos : Nat
  written : Nat
  buf : List UInt8

/-- The position and the size of the next block; `none` is a remainder by
zero. -/
def advance (stride inputSize blockSize pos : Nat) : Option (Nat × Nat) :=
  let pos := toSize (pos + stride)
  if pos < inputSize then some (pos, blockSize)
  else if stride = 0 then none
  else
    let pos := toSize ((pos % stride : Nat) + blockSize)
    if stride < toSize (pos + blockSize) then some (pos, toSize (stride - pos))
    else some (pos, blockSize)

/-- A round of `while (written < input_size)`. -/
def strideRound (stride inputSize : Nat) (b : StrideState) : Program (StrideState ⊕ Exit) := do
  if b.written < inputSize then
    let (amount, buf) ← io300Read .inFile b.buf b.blockSize
    if amount ≤ 0 then pure (.inr (.status 0))
    else
      let _ ← io300Write .outFile buf amount.toNat
      match advance stride inputSize b.blockSize b.pos with
      | none => pure (.inr .divByZero)
      | some (pos, blockSize) =>
        let r ← io300Seek .inFile (toOff pos)
        if r = -1 then pure (.inr (.status 1))
        else pure (.inl ⟨blockSize, pos, toSize (b.written + amount), buf⟩)
  else pure (.inr (.status 0))

/-- `stride_cat.c`. `buf` is what `malloc` returns, which is not checked,
and neither is what the calls of `io300_open` return. -/
def strideCat (blockSize stride : Nat) (buf : List UInt8) (rounds : Nat) : Program Exit := do
  let _ ← io300Open .inFile MODE_READ
  let size ← io300Filesize .inFile
  if size < 0 then pure (.status 1)
  else
    let r ← io300Seek .inFile 0
    if r < 0 then pure (.status 1)
    else
      let _ ← io300Open .outFile MODE_WRITE
      finish (← Client.iterate (strideRound stride (toSize size)) rounds ⟨blockSize, 0, 0, buf⟩)

/-! ## Positions -/

section

variable {blockSize stride n q r : Nat}

theorem toSize_of_le {x : Nat} (h : x ≤ 2 * INT_MAX) : toSize x = x := by
  rw [INT_MAX] at h
  rw [toSize]
  omega

theorem toOff_of_le {x : Nat} (h : x ≤ INT_MAX) : toOff x = x := by
  rw [INT_MAX] at h
  unfold toOff
  apply Int.bmod_eq_of_le
  · omega
  · omega

/-- The width of column `q`. -/
def width (blockSize stride q : Nat) : Nat := min blockSize (stride - q * blockSize)

/-- Within a column the next block is one row further. -/
theorem advance_row (hs : stride ≤ INT_MAX) (hn : n ≤ INT_MAX)
    (hpos : r * stride + q * blockSize < n)
    (hnext : (r + 1) * stride + q * blockSize < n) :
    advance stride n (width blockSize stride q) (r * stride + q * blockSize) =
      some ((r + 1) * stride + q * blockSize, width blockSize stride q) := by
  have hsum : r * stride + q * blockSize + stride = (r + 1) * stride + q * blockSize := by
    rw [Nat.succ_mul]
    omega
  rw [advance, ← Int.natCast_add, toSize_of_le (by omega), hsum, if_pos hnext]

/-- At the end of a column the next block is at the top of the next one,
and as wide as that one is. -/
theorem advance_column (hs : stride ≤ INT_MAX) (hn : n ≤ INT_MAX)
    (hq : q * blockSize < stride) (hrow : r * stride + q * blockSize < n)
    (hnext : n ≤ (r + 1) * stride + q * blockSize) :
    advance stride n (width blockSize stride q) (r * stride + q * blockSize) =
      some (min ((q + 1) * blockSize) stride, width blockSize stride (q + 1)) := by
  have hsum : r * stride + q * blockSize + stride = (r + 1) * stride + q * blockSize := by
    rw [Nat.succ_mul]
    omega
  have hmod : ((r + 1) * stride + q * blockSize) % stride = q * blockSize := by
    rw [Nat.mul_comm, Nat.mul_add_mod, Nat.mod_eq_of_lt hq]
  have hwide : width blockSize stride q ≤ stride := by
    rw [width]
    omega
  have htop : q * blockSize + width blockSize stride q = min ((q + 1) * blockSize) stride := by
    rw [width, Nat.succ_mul]
    omega
  have hnarrow : (stride : Int) - (min ((q + 1) * blockSize) stride : Nat) =
      ((stride - min ((q + 1) * blockSize) stride : Nat) : Int) := by
    omega
  rw [advance, ← Int.natCast_add, toSize_of_le (by omega), hsum]
  dsimp only
  rw [if_neg (by omega), if_neg (by omega), hmod]
  simp only [← Int.natCast_add, htop]
  rw [toSize_of_le (x := min _ _) (by omega), toSize_of_le (x := _ + _) (by omega), hnarrow,
    toSize_of_le (x := _ - _) (by omega)]
  -- the next column is narrower when it does not fit into the row
  simp only [width, Nat.succ_mul]
  split
  · congr 2
    omega
  · congr 2
    omega

/-- Any other part of a column is not empty. -/
theorem length_piece {content : List UInt8} (hpos : 0 < blockSize) (hq : q * blockSize < stride)
    (hrow : r * stride + q * blockSize < content.length) :
    0 < (piece content stride blockSize (q * blockSize) r).length ∧
      (piece content stride blockSize (q * blockSize) r).length ≤ blockSize := by
  rw [piece, length_slice]
  omega

end

/-! ## The loop -/

section

variable {cacheSize blockSize stride : Nat} {content : List UInt8}

/-- The output so far, `m` bytes less than all, and where the next block
is: in the middle of the matrix, or the whole of it is done. -/
def Strided (content : List UInt8) (blockSize stride m : Nat) (b : StrideState)
    (s : FileName → ContractFile) : Prop :=
  ∃ out off tail, s = files (reading content off) (appending out tail) ∧
    b.buf.length = blockSize ∧ b.written = out.length ∧ out.length + m = content.length ∧
    (out = strided content stride blockSize ∨
      ∃ q r, q * blockSize < stride ∧ r * stride + q * blockSize < content.length ∧
        off = r * stride + q * blockSize ∧ b.pos = r * stride + q * blockSize ∧
        b.blockSize = width blockSize stride q ∧ out = stridedUpTo content stride blockSize q r)

def StrideDone (content : List UInt8) (blockSize stride : Nat) (e : Exit)
    (s : FileName → ContractFile) : Prop :=
  e = .status 0 ∧ ∃ off tail, s =
    files (reading content off) (appending (strided content stride blockSize) tail)

/-- Before the end of the matrix there is still something to read. -/
theorem length_stridedUpTo_lt {q r : Nat} (hpos : 0 < blockSize) (hq : q * blockSize < stride)
    (hrow : r * stride + q * blockSize < content.length) :
    (stridedUpTo content stride blockSize q r).length < content.length := by
  have hr : r + 1 ≤ pieces content.length stride := (lt_pieces (by omega)).mpr (by omega)
  have hle := length_stridedUpTo_le (d := content) (by omega) hpos hq hr
  have hsome := (length_piece hpos hq hrow).1
  rw [stridedUpTo_row, List.length_append] at hle
  omega

variable (cacheSize) in
theorem strideRound_strides (hpos : 0 < blockSize) (hs : stride ≤ INT_MAX)
    (hlen : content.length ≤ INT_MAX) (hle : blockSize ≤ stride) :
    Client.Progresses (fun _ => contract cacheSize) (Strided content blockSize stride)
      (StrideDone content blockSize stride) (strideRound stride content.length) := by
  intro m b s h
  obtain ⟨out, off, tail, rfl, hbuf, hwritten, hm, hplace⟩ := h
  have hall := (strided_perm content (show 0 < stride by omega) hpos).length_eq
  rw [strideRound]
  rcases hplace with rfl | ⟨q, r, hq, hrow, rfl, hat, hblock, rfl⟩
  · rw [if_neg (by omega)]
    exact ⟨_, _, rfl, rfl, off, tail, rfl⟩
  · have hlt := length_stridedUpTo_lt hpos hq hrow
    have hr : r + 1 ≤ pieces content.length stride := (lt_pieces (by omega)).mpr (by omega)
    have hless := length_stridedUpTo_le (d := content) (by omega) hpos hq hr
    rw [stridedUpTo_row, List.length_append] at hless
    obtain ⟨hsome, hmost⟩ := length_piece hpos hq hrow
    have hpiece : slice content (r * stride + q * blockSize) (width blockSize stride q) =
      piece content stride blockSize (q * blockSize) r := rfl
    have hout : stridedUpTo content stride blockSize q r ++
        piece content stride blockSize (q * blockSize) r =
          stridedUpTo content stride blockSize q (r + 1) := stridedUpTo_row.symm
    generalize piece content stride blockSize (q * blockSize) r = data at *
    have hwidth : width blockSize stride q ≤ b.buf.length := by
      rw [width]
      omega
    have hread := run_read cacheSize content (r * stride + q * blockSize)
      (appending (stridedUpTo content stride blockSize q r) tail) b.buf hwidth
    rw [hpiece] at hread
    have hfill := length_fill (show data.length ≤ b.buf.length by omega)
    have htake : (Naive.fill b.buf data).take data.length = data := by
      rw [Naive.fill, List.take_left]
    obtain ⟨tail', hwrite⟩ := run_write cacheSize
      (reading content (r * stride + q * blockSize + data.length))
      (stridedUpTo content stride blockSize q r) tail (Naive.fill b.buf data)
      (show data.length ≤ _ by omega)
    rw [htake, hout] at hwrite
    have hlength := congrArg List.length hout
    rw [List.length_append] at hlength
    rw [if_pos (by omega), hblock, Client.runM_then _ hread]
    dsimp only
    rw [if_neg (by omega), Int.toNat_natCast, Client.runM_then _ hwrite, hat, hwritten,
      ← Int.natCast_add, toSize_of_le (by omega), hlength]
    by_cases hnext : (r + 1) * stride + q * blockSize < content.length
    · have hseek := run_seek cacheSize content (r * stride + q * blockSize + data.length)
        (appending (stridedUpTo content stride blockSize q (r + 1)) tail')
        (p := (r + 1) * stride + q * blockSize) (by omega)
      rw [advance_row hs hlen hrow hnext]
      dsimp only
      rw [toOff_of_le (by omega), Client.runM_then _ hseek, if_neg (by omega)]
      exact ⟨_, _, rfl, m - data.length, by omega, _, _, tail', rfl, hfill.trans hbuf, rfl,
        by omega, .inr ⟨q, r + 1, hq, hnext, rfl, rfl, rfl, rfl⟩⟩
    · have hseek := run_seek cacheSize content (r * stride + q * blockSize + data.length)
        (appending (stridedUpTo content stride blockSize q (r + 1)) tail')
        (p := min ((q + 1) * blockSize) stride) (by omega)
      rw [advance_column hs hlen hq hrow (by omega)]
      dsimp only
      rw [toOff_of_le (by omega), Client.runM_then _ hseek, if_neg (by omega)]
      refine ⟨_, _, rfl, m - data.length, by omega, _, _, tail', rfl, hfill.trans hbuf, rfl,
        by omega, ?_⟩
      rw [stridedUpTo_column (by omega) (show content.length ≤ (r + 1) * stride + q * blockSize by
        omega)]
      by_cases hmore : (q + 1) * blockSize < stride ∧ (q + 1) * blockSize < content.length
      · refine .inr ⟨q + 1, 0, hmore.1, ?_, ?_, ?_, rfl, rfl⟩
        · rw [Nat.zero_mul]
          omega
        · rw [Nat.zero_mul]
          omega
        · rw [Nat.zero_mul]
          show min _ _ = _
          omega
      · exact .inl (stridedUpTo_all hpos (by omega))

theorem run_strideCat {rounds : Nat} {buf old : List UInt8} (hpos : 0 < blockSize)
    (hle : blockSize ≤ stride) (hs : stride ≤ INT_MAX) (hlen : content.length ≤ INT_MAX)
    (hbuf : buf.length = blockSize) (hrounds : content.length < rounds) :
    runContract cacheSize (strideCat blockSize stride buf rounds)
        (files (.closed content) (.closed old)) =
      .ok (.status 0,
        files (.closed content) (.closed (strided content stride blockSize))) := by
  have hseek : runContract cacheSize (io300Seek .inFile 0)
      (files (reading content 0) (.closed old)) =
        .ok (0, files (reading content 0) (.closed old)) :=
    run_seek cacheSize content 0 _ (Nat.zero_le _)
  have hstart : Strided content blockSize stride content.length ⟨blockSize, 0, 0, buf⟩
      (files (reading content 0) (appending [] none)) := by
    refine ⟨[], 0, none, rfl, hbuf, rfl, Nat.zero_add _, ?_⟩
    by_cases hne : 0 < content.length
    · refine .inr ⟨0, 0, by omega, by omega, by omega, ?_, ?_, rfl⟩
      · rw [Nat.zero_mul, Nat.zero_mul]
      · rw [width, Nat.zero_mul]
        show blockSize = _
        omega
    · have hall := (strided_perm content (show 0 < stride by omega) hpos).length_eq
      exact .inl (List.eq_nil_of_length_eq_zero (by omega)).symm
  obtain ⟨e, s', hloop, rfl, off, tail, rfl⟩ := Client.runM_iterate
    (strideRound_strides cacheSize hpos hs hlen hle) hstart hrounds
  rw [strideCat, runContract, Client.runM_then _ (run_open_inFile content),
    Client.runM_then _ run_filesize, if_neg (by omega), Client.runM_then _ hseek,
    if_neg (by decide), Client.runM_then _ (run_open_outFile old), toSize_of_le (by omega),
    Client.runM_then _ hloop]
  exact run_closeBoth

end

/-- **The output is the input by columns**: linked with either
implementation and for every cache size, when blocks are not longer than
the stride. It is a rearrangement of the input: no byte is lost or copied
twice, also where the blocks do not divide the stride or the stride does not
divide the file. -/
theorem stride_cat {cacheSize blockSize stride rounds : Nat} (hC : 4 ≤ cacheSize)
    {content buf : List UInt8} (hpos : 0 < blockSize) (hle : blockSize ≤ stride)
    (hs : stride ≤ INT_MAX) (hlen : content.length ≤ INT_MAX) (hbuf : buf.length = blockSize)
    (hrounds : content.length < rounds) (old : List UInt8) :
    Leaves cacheSize (strideCat blockSize stride buf rounds) (contents content old) (.status 0)
        (contents content (strided content stride blockSize)) ∧
      (strided content stride blockSize).Perm content := by
  refine ⟨?_, strided_perm content (by omega) hpos⟩
  apply leaves_of_contract (by omega)
  rw [closedAll_contents, closedAll_contents]
  exact run_strideCat hpos hle hs hlen hbuf hrounds

/-- Rows of four bytes in blocks of three: `abcd`, `ef` gives `abc`, `ef`,
`d`. -/
theorem stride_cat_four :
    Leaves 4 (strideCat 3 4 [0, 0, 0] 7) (contents [97, 98, 99, 100, 101, 102] []) (.status 0)
        (contents [97, 98, 99, 100, 101, 102] [97, 98, 99, 101, 102, 100]) ∧
      List.Perm [97, 98, 99, 101, 102, 100] [(97 : UInt8), 98, 99, 100, 101, 102] :=
  have h6 : [(97 : UInt8), 98, 99, 100, 101, 102].length ≤ INT_MAX := by decide
  have h4 : 3 ≤ 4 := by decide
  have hs : 4 ≤ INT_MAX := by decide
  stride_cat (Nat.le_refl 4) (Nat.succ_pos 2) h4 hs h6 (Eq.refl [(0 : UInt8), 0, 0].length)
    (Nat.lt_succ_self 6) []

end SystemsProjects.FileIO.Programs
