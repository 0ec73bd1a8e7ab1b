/-
SystemsProjects.FileIO.ReversePrograms — `reverse_byte_cat` and
`reverse_block_cat`.

They walk through the first file from its end and leave its bytes in the
second one backwards. `reverse_block_cat` starts at the last multiple of
its block size: the block there is what is left at the end of the file, or
nothing at all.
-/
import SystemsProjects.FileIO.CopyPrograms

namespace SystemsProjects.FileIO.Programs

open SystemsProjects.Base

/-! ## The programs -/

/-- A round of `for (int i = filesize - 1; i >= 0; i--)`. -/
def reverseByteRound (i : Int) : Program (Int ⊕ Exit) := do
  if 0 ≤ i then
    let r ← io300Seek .inFile i
    if r = -1 then pure (.inr (.status 1))
    else
      let ch ← io300Readc .inFile
      if ch = -1 then pure (.inr (.status 1))
      else
        let w ← io300Writec .outFile ch
        if w = -1 then pure (.inr (.status 1)) else pure (.inl (i - 1))
  else pure (.inr (.status 0))

/-- `reverse_byte_cat.c`. -/
def reverseByteCat (rounds : Nat) : Program Exit :=
  openBoth <| sized fun filesize => do
    finish (← Client.iterate reverseByteRound rounds (toInt32 (filesize - 1)))

/-- The first `j` rounds of the loop that fills `out_buffer`. -/
def reverseInto (inBuffer : List UInt8) (n : Nat) : Nat → List UInt8 → List UInt8
  | 0, outBuffer => outBuffer
  | j + 1, outBuffer => (reverseInto inBuffer n j outBuffer).set j (inBuffer.getD (n - 1 - j) 0)

/-- `i`, `in_buffer` and `out_buffer`. -/
abbrev ReverseState := Int × List UInt8 × List UInt8

/-- A round of the loop over blocks. A failed read ends the program with
`exit_status` as it is. -/
def reverseBlockRound (bufferSize : Nat) (b : ReverseState) : Program (ReverseState ⊕ Exit) := do
  if 0 ≤ b.1 then
    let r ← io300Seek .inFile b.1
    if r = -1 then pure (.inr (.status 1))
    else
      let (r, inBuffer) ← io300Read .inFile b.2.1 bufferSize
      let n := toInt32 r
      if n = -1 then pure (.inr (.status 0))
      else
        let outBuffer := reverseInto inBuffer n.toNat n.toNat b.2.2
        let w ← io300Write .outFile outBuffer n.toNat
        if w = -1 then pure (.inr (.status 1))
        else pure (.inl (b.1 - bufferSize, inBuffer, outBuffer))
  else pure (.inr (.status 0))

/-- `reverse_block_cat.c`; `mallocIn` and `mallocOut` are what its calls
for the buffers return. -/
def reverseBlockCat (bufferSize : Nat) (mallocIn mallocOut : Option (List UInt8)) (rounds : Nat) :
    Program Exit :=
  if bufferSize = 0 then pure (.status 1)
  else
    openBoth <| sized fun filesize =>
      match mallocIn, mallocOut with
      | some inBuffer, some outBuffer => do
        finish (← Client.iterate (reverseBlockRound bufferSize) rounds
          (toInt32 (filesize - filesize % bufferSize), inBuffer, outBuffer))
      | _, _ => closeBoth (.status 1)

/-! ## Character by character -/

section

variable {cacheSize : Nat} {content : List UInt8}

/-- What a loop that reverses has come to. -/
def ReverseDone (content : List UInt8) (e : Exit) (s : FileName → ContractFile) : Prop :=
  e = .status 0 ∧ ∃ off tail, s = files (reading content off) (appending content.reverse tail)

/-- All from position `m` on has been written backwards; `i` is the
position before. -/
def CharsReversed (content : List UInt8) (m : Nat) (i : Int) (s : FileName → ContractFile) : Prop :=
  i = m - 1 ∧ m ≤ content.length ∧
    ∃ off tail, s = files (reading content off) (appending (content.drop m).reverse tail)

theorem reverseByteRound_reverses (hlen : content.length ≤ INT_MAX) :
    Client.Progresses (fun _ => contract cacheSize) (CharsReversed content) (ReverseDone content)
      reverseByteRound := by
  intro m i s h
  obtain ⟨rfl, hm, off, tail, rfl⟩ := h
  rw [reverseByteRound]
  cases m with
  | zero => exact ⟨_, _, rfl, rfl, off, tail, rfl⟩
  | succ m =>
    have hi : ((m + 1 : Nat) : Int) - 1 = (m : Nat) := by omega
    obtain ⟨tail', hwrite⟩ := run_writec cacheSize (reading content (m + 1))
      (content.drop (m + 1)).reverse tail content[m]
    have hseek := run_seek cacheSize content off
      (appending (content.drop (m + 1)).reverse tail) (p := m) (by omega)
    have hread := run_readc cacheSize (appending (content.drop (m + 1)).reverse tail) hm
    rw [hi, if_pos (by omega), Client.runM_then _ hseek, if_neg (by omega),
      Client.runM_then _ hread, if_neg (by omega), Client.runM_then _ hwrite, if_neg (by omega)]
    refine ⟨_, _, rfl, m, by omega, rfl, by omega, m + 1, tail', ?_⟩
    rw [List.drop_eq_getElem_cons hm, List.reverse_cons]

theorem run_finish_reverse {β : Type} {body : β → Program (β ⊕ Exit)} {rounds : Nat} {b : β}
    {s : FileName → ContractFile}
    (h : ∃ e s', runContract cacheSize (Client.iterate body rounds b) s = .ok (some e, s') ∧
      ReverseDone content e s') :
    runContract cacheSize (Client.iterate body rounds b >>= finish) s =
      .ok (.status 0, files (.closed content) (.closed content.reverse)) := by
  obtain ⟨e, s', hloop, rfl, off, tail, rfl⟩ := h
  rw [runContract, Client.runM_then _ hloop]
  exact run_closeBoth

theorem run_reverseByteCat {rounds : Nat} (hlen : content.length ≤ INT_MAX)
    (hrounds : content.length < rounds) (old : List UInt8) :
    runContract cacheSize (reverseByteCat rounds) (files (.closed content) (.closed old)) =
      .ok (.status (if content = [] then 1 else 0),
        files (.closed content) (.closed content.reverse)) := by
  rw [reverseByteCat, run_openBoth]
  by_cases hne : content = []
  · subst hne
    exact run_sized_empty _
  · have hpos : 0 < content.length := List.length_pos_iff.mpr hne
    have hstart : toInt32 ((content.length : Int) - 1) = content.length - 1 := by
      have h := toInt32_of_le (p := content.length - 1) (by omega)
      rwa [Int.ofNat_sub hpos] at h
    rw [run_sized _ hne, if_neg hne, hstart]
    refine run_finish_reverse (Client.runM_iterate (reverseByteRound_reverses hlen)
      ⟨rfl, Nat.le_refl _, 0, none, ?_⟩ hrounds)
    rw [List.drop_length, List.reverse_nil]

/-! ## Block by block -/

/-- What the loop over `j` leaves in `out_buffer`. -/
theorem getElem?_reverseInto {inBuffer : List UInt8} {n j : Nat} {outBuffer : List UInt8}
    (hn : n ≤ inBuffer.length) (hj : j ≤ n) (hout : j ≤ outBuffer.length) (k : Nat) :
    (reverseInto inBuffer n j outBuffer)[k]? =
      if k < j then inBuffer[n - 1 - k]? else outBuffer[k]? := by
  induction j with
  | zero => rfl
  | succ j ih =>
    have ih := ih (by omega) (by omega)
    rw [reverseInto, List.getElem?_set]
    by_cases hk : j = k
    · subst hk
      have hin : j < (reverseInto inBuffer n j outBuffer).length := by
        by_contra hlt
        rw [List.getElem?_eq_none (by omega), if_neg (by omega)] at ih
        have := List.getElem?_eq_none_iff.mp ih.symm
        omega
      rw [if_pos rfl, if_pos hin, if_pos (by omega), List.getD_eq_getElem?_getD,
        List.getElem?_eq_getElem (by omega), Option.getD_some]
    · rw [if_neg hk, ih]
      by_cases hlt : k < j
      · rw [if_pos hlt, if_pos (by omega)]
      · rw [if_neg hlt, if_neg (by omega)]

theorem length_reverseInto (inBuffer : List UInt8) (n j : Nat) (outBuffer : List UInt8) :
    (reverseInto inBuffer n j outBuffer).length = outBuffer.length := by
  induction j with
  | zero => rfl
  | succ j ih => rw [reverseInto, List.length_set, ih]

/-- The part that is written holds the part that was read, backwards. -/
theorem take_reverseInto {inBuffer outBuffer : List UInt8} {n : Nat}
    (hin : n ≤ inBuffer.length) (hout : n ≤ outBuffer.length) :
    (reverseInto inBuffer n n outBuffer).take n = (inBuffer.take n).reverse := by
  apply List.ext_getElem?
  intro k
  rw [List.getElem?_take, getElem?_reverseInto hin (Nat.le_refl n) hout]
  by_cases hk : k < n
  · have hlen : (inBuffer.take n).length = n := List.length_take_of_le hin
    rw [if_pos hk, if_pos hk, List.getElem?_reverse (by omega), hlen, List.getElem?_take,
      if_pos (by omega)]
  · rw [if_neg hk, List.getElem?_eq_none]
    rw [List.length_reverse, List.length_take]
    omega

/-- All from block `m` on has been written backwards; `i` is where the
block before starts. -/
def BlocksReversed (content : List UInt8) (bufferSize m : Nat) (b : ReverseState)
    (s : FileName → ContractFile) : Prop :=
  b.1 = (m : Int) * bufferSize - bufferSize ∧ b.2.1.length = bufferSize ∧
    b.2.2.length = bufferSize ∧ m * bufferSize ≤ content.length + bufferSize ∧
      ∃ off tail, s =
        files (reading content off) (appending (content.drop (m * bufferSize)).reverse tail)

theorem slice_append_drop (off n : Nat) :
    slice content off n ++ content.drop (off + n) = content.drop off := by
  rw [slice, ← List.drop_drop, List.take_append_drop]

theorem reverseBlockRound_reverses {bufferSize : Nat} (hpos : 0 < bufferSize)
    (hsize : bufferSize ≤ INT_MAX) (hlen : content.length ≤ INT_MAX) :
    Client.Progresses (fun _ => contract cacheSize) (BlocksReversed content bufferSize)
      (ReverseDone content) (reverseBlockRound bufferSize) := by
  intro m b s h
  obtain ⟨i, inBuffer, outBuffer⟩ := b
  obtain ⟨hi, hin, hout, hm, off, tail, rfl⟩ := h
  dsimp only at hi hin hout
  rw [reverseBlockRound]
  dsimp only
  cases m with
  | zero =>
    have hneg : ¬ 0 ≤ i := by
      rw [hi, Int.natCast_zero, Int.zero_mul]
      omega
    rw [if_neg hneg, Nat.zero_mul, List.drop_zero]
    exact ⟨_, _, rfl, rfl, off, tail, rfl⟩
  | succ m =>
    rw [Nat.succ_mul] at hm
    have hi' : i = ((m * bufferSize : Nat) : Int) := by
      rw [hi, Int.natCast_mul, Int.natCast_succ, Int.add_mul, Int.one_mul]
      omega
    subst hi'
    generalize hdata : slice content (m * bufferSize) bufferSize = data
    have hlength : data.length ≤ bufferSize := by
      rw [← hdata, length_slice]
      exact Nat.min_le_left _ _
    have hfill := length_fill (show data.length ≤ inBuffer.length by omega)
    have hwritten : (reverseInto (Naive.fill inBuffer data) data.length data.length outBuffer).take
        data.length = data.reverse := by
      rw [take_reverseInto (by omega) (by omega), Naive.fill, List.take_left]
    have hseek := run_seek cacheSize content off
      (appending (content.drop ((m + 1) * bufferSize)).reverse tail) (p := m * bufferSize)
      (by omega)
    have hread := run_read cacheSize content (m * bufferSize)
      (appending (content.drop ((m + 1) * bufferSize)).reverse tail) inBuffer
      (Nat.le_of_eq hin.symm)
    rw [hdata] at hread
    obtain ⟨tail', hwrite⟩ := run_write cacheSize
      (reading content (m * bufferSize + data.length))
      (content.drop ((m + 1) * bufferSize)).reverse tail
      (reverseInto (Naive.fill inBuffer data) data.length data.length outBuffer)
      (show data.length ≤ _ by rw [length_reverseInto]; omega)
    rw [if_pos (by omega), Client.runM_then _ hseek, if_neg (by omega), Client.runM_then _ hread]
    dsimp only
    rw [toInt32_of_le (by omega), if_neg (by omega), Int.toNat_natCast, Client.runM_then _ hwrite,
      if_neg (by omega)]
    refine ⟨_, _, rfl, m, by omega, ?_, by rw [← hin]; exact hfill,
      by rw [← hout]; exact length_reverseInto .., by omega, m * bufferSize + data.length, tail',
      ?_⟩
    · rw [Int.natCast_mul]
    · rw [hwritten, ← List.reverse_append, ← hdata, Nat.succ_mul, slice_append_drop]

theorem run_reverseBlockCat {bufferSize rounds : Nat} {inBuffer outBuffer : List UInt8}
    (hpos : 0 < bufferSize) (hsize : bufferSize ≤ INT_MAX) (hlen : content.length ≤ INT_MAX)
    (hin : inBuffer.length = bufferSize) (hout : outBuffer.length = bufferSize)
    (hrounds : content.length + 1 < rounds) (old : List UInt8) :
    runContract cacheSize (reverseBlockCat bufferSize (some inBuffer) (some outBuffer) rounds)
        (files (.closed content) (.closed old)) =
      .ok (.status (if content = [] then 1 else 0),
        files (.closed content) (.closed content.reverse)) := by
  rw [reverseBlockCat, if_neg (by omega), run_openBoth]
  by_cases hne : content = []
  · subst hne
    exact run_sized_empty _
  · -- the loop starts at the last multiple of the block size
    have hmod := Nat.div_add_mod content.length bufferSize
    have hless := Nat.mod_lt content.length hpos
    have hcomm := Nat.mul_comm (content.length / bufferSize) bufferSize
    have hcount := Nat.div_le_self content.length bufferSize
    have hstart : toInt32 ((content.length : Int) - content.length % bufferSize) =
        ((content.length / bufferSize * bufferSize : Nat) : Int) := by
      rw [← Int.natCast_emod,
        show ((content.length : Int) - (content.length % bufferSize : Nat)) =
          ((content.length / bufferSize * bufferSize : Nat) : Int) by omega]
      exact toInt32_of_le (by omega)
    rw [run_sized _ hne, if_neg hne, hstart]
    refine run_finish_reverse (Client.runM_iterate
      (m := content.length / bufferSize + 1) (reverseBlockRound_reverses hpos hsize hlen)
      ⟨?_, hin, hout, by rw [Nat.succ_mul]; omega, 0, none, ?_⟩ (by omega))
    · rw [Int.natCast_mul, Int.natCast_succ, Int.add_mul, Int.one_mul]
      omega
    · rw [List.drop_eq_nil_of_le (by rw [Nat.succ_mul]; omega), List.reverse_nil]

end

/-- **Both programs reverse**: linked with the naive implementation or with
the cached one, for every cache size, and for sizes of blocks and files
from 1 and 0 on that an `int` can count, the second file holds the bytes of
the first in reverse order. -/
theorem reverse_programs {cacheSize rounds bufferSize : Nat} (hC : 4 ≤ cacheSize)
    {content inBuffer outBuffer : List UInt8} (hlen : content.length ≤ INT_MAX)
    (hpos : 0 < bufferSize) (hsize : bufferSize ≤ INT_MAX)
    (hin : inBuffer.length = bufferSize) (hout : outBuffer.length = bufferSize)
    (hrounds : content.length + 1 < rounds) (old : List UInt8) :
    Leaves cacheSize (reverseByteCat rounds) (contents content old)
        (.status (if content = [] then 1 else 0)) (contents content content.reverse) ∧
      Leaves cacheSize (reverseBlockCat bufferSize (some inBuffer) (some outBuffer) rounds)
        (contents content old) (.status (if content = [] then 1 else 0))
        (contents content content.reverse) := by
  constructor
  · apply leaves_of_contract (by omega)
    rw [closedAll_contents, closedAll_contents]
    exact run_reverseByteCat hlen (by omega) old
  · apply leaves_of_contract (by omega)
    rw [closedAll_contents, closedAll_contents]
    exact run_reverseBlockCat hpos hsize hlen hin hout hrounds old

theorem reverse_programs_three :
    Leaves 4 (reverseByteCat 5) (contents [7, 8, 9] [1]) (.status 0)
        (contents [7, 8, 9] [9, 8, 7]) ∧
      Leaves 4 (reverseBlockCat 2 (some [0, 0]) (some [0, 0]) 5) (contents [7, 8, 9] [1])
        (.status 0) (contents [7, 8, 9] [9, 8, 7]) :=
  have h3 : [(7 : UInt8), 8, 9].length ≤ INT_MAX := by decide
  reverse_programs (Nat.le_refl 4) h3 (Nat.succ_pos 1) (by decide)
    (Eq.refl [(0 : UInt8), 0].length) (Eq.refl [(0 : UInt8), 0].length) (Nat.lt_succ_self 4) [1]

end SystemsProjects.FileIO.Programs
