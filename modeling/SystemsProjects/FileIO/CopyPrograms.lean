/-
SystemsProjects.FileIO.CopyPrograms — `byte_cat`, `diabolical_byte_cat`,
`block_cat` and `random_block_cat`.

Four programs that copy a file, a character or a block at a time. Each is
the C `main` after its arguments are converted; `rounds` bounds its loop.
With either implementation, the copy holds the same bytes
(`copies_agree`): whatever the cache size, the block size and the random
numbers are.
-/
import SystemsProjects.FileIO.Programs

namespace SystemsProjects.FileIO.Programs

open SystemsProjects.Base

/-! ## What the programs share -/

/-- Both files closed. -/
def closeBoth (e : Exit) : Program Exit := do
  let _ ← io300Close .inFile
  let _ ← io300Close .outFile
  pure e

/-- The end of `main` after its loop. -/
def finish : Option Exit → Program Exit
  | some (.status n) => closeBoth (.status n)
  | some e => pure e
  | none => pure .outOfRounds

/-- `main` up to the two files being open. -/
def openBoth (body : Program Exit) : Program Exit := do
  let inf ← io300Open .inFile MODE_READ
  if inf = 0 then pure (.status 1)
  else
    let out ← io300Open .outFile MODE_WRITE
    if out = 0 then
      let _ ← io300Close .inFile
      pure (.status 1)
    else body

/-- The size of the file, which must not be empty. -/
def sized (body : Int → Program Exit) : Program Exit := do
  let filesize ← io300Filesize .inFile
  if filesize ≤ 0 then closeBoth (.status 1) else body filesize

/-- `i++` on an `int`. -/
def increment (i : Nat) : Nat ⊕ Exit := if i < INT_MAX then .inl (i + 1) else .inr .overflow

/-! ## A character at a time -/

/-- A round of `for (int i = 0; i < filesize; i++)`. -/
def byteCatRound (filesize : Int) (i : Nat) : Program (Nat ⊕ Exit) := do
  if i < filesize then
    let ch ← io300Readc .inFile
    if ch = -1 then pure (.inr (.status 1))
    else
      let w ← io300Writec .outFile ch
      if w = -1 then pure (.inr (.status 1)) else pure (increment i)
  else pure (.inr (.status 0))

/-- `byte_cat.c`. -/
def byteCat (rounds : Nat) : Program Exit :=
  openBoth <| sized fun filesize => do
    finish (← Client.iterate (byteCatRound filesize) rounds 0)

/-- `for (int j = 0; j < 10; j++)`: there and back. The result is
`exit_status`. -/
def diabolicalSeeks (filesize : Int) : Nat → Program Int
  | 0 => pure 0
  | n + 1 => do
    let r ← io300Seek .inFile 0
    if r = -1 then pure 1
    else
      let r ← io300Seek .inFile (filesize - 1)
      if r = -1 then pure 1 else diabolicalSeeks filesize n

def diabolicalRound (filesize : Int) (i : Nat) : Program (Nat ⊕ Exit) := do
  if i < filesize then
    let ch ← io300Readc .inFile
    if ch = -1 then pure (.inr (.status 1))
    else
      let exitStatus ← diabolicalSeeks filesize 10
      if exitStatus = 1 then pure (.inr (.status 1))
      else
        let r ← io300Seek .inFile ((i + 1 : Nat) : Int)
        if r = -1 then pure (.inr (.status 1))
        else
          let w ← io300Writec .outFile ch
          if w = -1 then pure (.inr (.status 1)) else pure (increment i)
  else pure (.inr (.status 0))

/-- `diabolical_byte_cat.c`. -/
def diabolicalByteCat (rounds : Nat) : Program Exit :=
  openBoth <| sized fun filesize => do
    finish (← Client.iterate (diabolicalRound filesize) rounds 0)

/-! ## A block at a time -/

/-- `exit_status` and the buffer. -/
abbrev BlockState := Int × List UInt8

/-- A round of `while (1)` with blocks of `size` bytes. -/
def blockRound (size : Nat) (b : BlockState) : Program (BlockState ⊕ Exit) := do
  let (r, buffer) ← io300Read .inFile b.2 size
  if r = 0 ∨ r = -1 then pure (.inr (.status b.1))
  else
    let w ← io300Write .outFile buffer r.toNat
    pure (.inl (if w = -1 then 1 else b.1, buffer))

/-- `block_cat.c`; `malloc` is what its call for the buffer returns. A
size of 0 is complained about and used. -/
def blockCat (bufferSize : Nat) (malloc : Option (List UInt8)) (rounds : Nat) : Program Exit :=
  openBoth <|
    match malloc with
    | none => closeBoth (.status 1)
    | some buffer => do
      finish (← Client.iterate (blockRound bufferSize) rounds (0, buffer))

def MAX_BLOCK_SIZE : Nat := 30

/-- A round with the next random number. -/
def randomRound (rand : Nat → Nat) (b : Nat × BlockState) : Program (Nat × BlockState ⊕ Exit) := do
  match ← blockRound (rand b.1 % MAX_BLOCK_SIZE + 1) b.2 with
  | .inl b' => pure (.inl (b.1 + 1, b'))
  | .inr e => pure (.inr e)

/-- `random_block_cat.c`; `rand` is the sequence that `rand()` gives after
`srand`. -/
def randomBlockCat (rand : Nat → Nat) (malloc : Option (List UInt8)) (rounds : Nat) :
    Program Exit :=
  openBoth <|
    match malloc with
    | none => closeBoth (.status 1)
    | some buffer => sized fun _ => do
      finish (← Client.iterate (randomRound rand) rounds (0, 0, buffer))

/-! ## Opening and closing under the contract -/

section

variable {cacheSize : Nat} {content old out : List UInt8} {off : Nat} {tail : Option Nat}
  {e : Exit}

theorem run_closeBoth :
    runContract cacheSize (closeBoth e) (files (reading content off) (appending out tail)) =
      .ok (e, files (.closed content) (.closed out)) := by
  rw [closeBoth, runContract, Client.runM_then _ run_close_inFile,
    Client.runM_then _ run_close_outFile]
  rfl

theorem run_openBoth (body : Program Exit) :
    runContract cacheSize (openBoth body) (files (.closed content) (.closed old)) =
      runContract cacheSize body (files (reading content 0) (appending [] none)) := by
  rw [openBoth, runContract, Client.runM_then _ (run_open_inFile content),
    if_neg (by decide), Client.runM_then _ (run_open_outFile old), if_neg (by decide)]

theorem run_sized (body : Int → Program Exit) (h : content ≠ []) :
    runContract cacheSize (sized body) (files (reading content off) (appending out tail)) =
      runContract cacheSize (body content.length)
        (files (reading content off) (appending out tail)) := by
  have hpos : 0 < content.length := List.length_pos_iff.mpr h
  rw [sized, runContract, Client.runM_then _ run_filesize, if_neg (by omega)]

theorem run_sized_empty (body : Int → Program Exit) :
    runContract cacheSize (sized body) (files (reading [] off) (appending out tail)) =
      .ok (.status 1, files (.closed []) (.closed out)) := by
  rw [sized, runContract, Client.runM_then _ run_filesize, if_pos (by decide)]
  exact run_closeBoth

/-- What a loop that copies has come to: the end of the file, with the
exit status 0. -/
def CopyDone (content : List UInt8) (e : Exit) (s : FileName → ContractFile) : Prop :=
  e = .status 0 ∧ ∃ off tail, s = files (reading content off) (appending content tail)

theorem run_finish {β : Type} {body : β → Program (β ⊕ Exit)} {rounds : Nat} {b : β}
    {s : FileName → ContractFile}
    (h : ∃ e s', runContract cacheSize (Client.iterate body rounds b) s = .ok (some e, s') ∧
      CopyDone content e s') :
    runContract cacheSize (Client.iterate body rounds b >>= finish) s =
      .ok (.status 0, files (.closed content) (.closed content)) := by
  obtain ⟨e, s', hloop, rfl, off, tail, rfl⟩ := h
  rw [runContract, Client.runM_then _ hloop]
  exact run_closeBoth

end

/-! ## The loops over characters -/

section

variable {cacheSize : Nat} {content : List UInt8}

/-- `i` characters have been copied, `m` are left. -/
def CharsCopied (content : List UInt8) (m i : Nat) (s : FileName → ContractFile) : Prop :=
  i + m = content.length ∧
    ∃ tail, s = files (reading content i) (appending (content.take i) tail)

/-- The rounds of a loop copy character by character. -/
abbrev CopiesChar (cacheSize : Nat) (content : List UInt8)
    (round : Nat → Program (Nat ⊕ Exit)) : Prop :=
  Client.Progresses (fun _ => contract cacheSize) (CharsCopied content) (CopyDone content) round

theorem take_succ_of_lt {i : Nat} (h : i < content.length) :
    content.take i ++ [content[i]] = content.take (i + 1) :=
  (List.take_succ_eq_append_getElem h).symm

theorem charsCopied_done {i : Nat} {s : FileName → ContractFile} {m : Nat}
    (h : CharsCopied content m i s) (hi : ¬ (i : Int) < content.length) :
    CopyDone content (.status 0) s := by
  obtain ⟨hm, tail, rfl⟩ := h
  refine ⟨rfl, i, tail, ?_⟩
  rw [List.take_of_length_le (by omega)]

theorem byteCatRound_copies (hlen : content.length ≤ INT_MAX) :
    CopiesChar cacheSize content (byteCatRound content.length) := by
  intro m i s h
  rw [byteCatRound]
  by_cases hi : (i : Int) < content.length
  · obtain ⟨hm, tail, rfl⟩ := h
    have hi' : i < content.length := by omega
    obtain ⟨tail', hwrite⟩ := run_writec cacheSize (reading content (i + 1))
      (content.take i) tail content[i]
    have hread := run_readc cacheSize (appending (content.take i) tail) hi'
    rw [if_pos hi, Client.runM_then _ hread, if_neg (by omega),
      Client.runM_then _ hwrite, if_neg (by omega), increment, if_pos (by omega)]
    refine ⟨_, _, rfl, m - 1, by omega, by omega, tail', ?_⟩
    rw [take_succ_of_lt hi']
  · rw [if_neg hi]
    exact ⟨_, s, rfl, charsCopied_done h hi⟩

variable (cacheSize) in
theorem run_diabolicalSeeks (o : ContractFile) (hne : content ≠ [])
    (hlen : content.length ≤ INT_MAX) (off n : Nat) :
    ∃ off', runContract cacheSize (diabolicalSeeks content.length n)
      (files (reading content off) o) = .ok (0, files (reading content off') o) := by
  have hpos : 0 < content.length := List.length_pos_iff.mpr hne
  induction n generalizing off with
  | zero => exact ⟨off, rfl⟩
  | succ n ih =>
    obtain ⟨off', hrest⟩ := ih (content.length - 1)
    refine ⟨off', ?_⟩
    have hlast : ((content.length : Int) - 1) = ((content.length - 1 : Nat) : Int) := by omega
    have hstart : runContract cacheSize (io300Seek .inFile 0) (files (reading content off) o) =
        .ok (0, files (reading content 0) o) := run_seek cacheSize content off o (Nat.zero_le _)
    rw [diabolicalSeeks, hlast, runContract, Client.runM_then _ hstart, if_neg (by decide),
      Client.runM_then _ (run_seek cacheSize content 0 o (p := content.length - 1) (by omega)),
      if_neg (by omega)]
    exact hrest

theorem diabolicalRound_copies (hlen : content.length ≤ INT_MAX) :
    CopiesChar cacheSize content (diabolicalRound content.length) := by
  intro m i s h
  rw [diabolicalRound]
  by_cases hi : (i : Int) < content.length
  · obtain ⟨hm, tail, rfl⟩ := h
    have hi' : i < content.length := by omega
    have hne : content ≠ [] := List.ne_nil_of_length_pos (by omega)
    obtain ⟨off', hseeks⟩ := run_diabolicalSeeks cacheSize
      (appending (content.take i) tail) hne hlen (i + 1) 10
    obtain ⟨tail', hwrite⟩ := run_writec cacheSize (reading content (i + 1))
      (content.take i) tail content[i]
    have hread := run_readc cacheSize (appending (content.take i) tail) hi'
    have hback := run_seek cacheSize content off'
      (appending (content.take i) tail) (p := i + 1) (by omega)
    rw [if_pos hi, Client.runM_then _ hread, if_neg (by omega),
      Client.runM_then _ hseeks, if_neg (by decide), Client.runM_then _ hback,
      if_neg (by omega), Client.runM_then _ hwrite, if_neg (by omega), increment,
      if_pos (by omega)]
    refine ⟨_, _, rfl, m - 1, by omega, by omega, tail', ?_⟩
    rw [take_succ_of_lt hi']
  · rw [if_neg hi]
    exact ⟨_, s, rfl, charsCopied_done h hi⟩

/-- A program that copies character by character leaves a copy. An empty
file is an error, with an empty copy. -/
theorem run_copiesChar {round : Int → Nat → Program (Nat ⊕ Exit)} {rounds : Nat}
    (hround : CopiesChar cacheSize content (round content.length))
    (hrounds : content.length < rounds) (old : List UInt8) :
    runContract cacheSize
        (openBoth <| sized fun filesize => Client.iterate (round filesize) rounds 0 >>= finish)
        (files (.closed content) (.closed old)) =
      .ok (.status (if content = [] then 1 else 0), files (.closed content) (.closed content)) := by
  rw [run_openBoth]
  by_cases hne : content = []
  · subst hne
    exact run_sized_empty _
  · rw [run_sized _ hne, if_neg hne]
    exact run_finish (Client.runM_iterate hround ⟨Nat.zero_add _, none, rfl⟩ hrounds)

end

/-! ## The loops over blocks -/

section

variable {cacheSize : Nat} {content : List UInt8}

/-- The bytes up to `off` have been copied, `m` are left. -/
def BlocksCopied (content : List UInt8) (bufferSize m : Nat) (b : BlockState)
    (s : FileName → ContractFile) : Prop :=
  b.1 = 0 ∧ b.2.length = bufferSize ∧ ∃ off tail, off + m = content.length ∧
    s = files (reading content off) (appending (content.take off) tail)

theorem length_fill {buff data : List UInt8} (h : data.length ≤ buff.length) :
    (Naive.fill buff data).length = buff.length := by
  simp only [Naive.fill, List.length_append, List.length_drop]
  omega

theorem take_append_slice (off n : Nat) :
    content.take off ++ slice content off n =
      content.take (off + (slice content off n).length) := by
  rw [List.take_add, length_slice, ← List.length_drop, slice]
  congr 1
  rw [List.take_eq_take_iff]
  omega

variable (cacheSize) in
theorem blockRound_copies {bufferSize size m : Nat} {b : BlockState} {s : FileName → ContractFile}
    (hpos : 0 < size) (hsize : size ≤ bufferSize) (h : BlocksCopied content bufferSize m b s) :
    ∃ r s', runContract cacheSize (blockRound size b) s = .ok (r, s') ∧
      r.elim (fun b' => ∃ m' < m, BlocksCopied content bufferSize m' b' s')
        (fun e => CopyDone content e s') := by
  obtain ⟨h0, hbuffer, off, tail, hm, rfl⟩ := h
  have hlen := length_slice content off size
  have hread := run_read cacheSize content off (appending (content.take off) tail) b.2
    (show size ≤ b.2.length by omega)
  rw [blockRound, runContract, Client.runM_then _ hread]
  dsimp only
  by_cases hend : off = content.length
  · rw [if_pos (.inl (by omega)), h0]
    refine ⟨_, _, rfl, rfl, off + (slice content off size).length, tail, ?_⟩
    rw [List.take_of_length_le (show content.length ≤ off by omega)]
  · have hfill := length_fill (show (slice content off size).length ≤ b.2.length by omega)
    have htake : (Naive.fill b.2 (slice content off size)).take (slice content off size).length =
        slice content off size := by
      rw [Naive.fill, List.take_left]
    obtain ⟨tail', hwrite⟩ := run_write cacheSize
      (reading content (off + (slice content off size).length)) (content.take off) tail
      (Naive.fill b.2 (slice content off size))
      (show (slice content off size).length ≤ _ by omega)
    rw [if_neg (by omega), Int.toNat_natCast, Client.runM_then _ hwrite, if_neg (by omega)]
    refine ⟨_, _, rfl, m - (slice content off size).length, by omega, h0, hfill.trans hbuffer,
      off + (slice content off size).length, tail', by omega, ?_⟩
    rw [htake, take_append_slice]

theorem blockCat_copies {bufferSize : Nat} (hpos : 0 < bufferSize) :
    Client.Progresses (fun _ => contract cacheSize) (BlocksCopied content bufferSize)
      (CopyDone content) (blockRound bufferSize) :=
  fun _ _ _ h => blockRound_copies cacheSize hpos (Nat.le_refl _) h

theorem randomRound_copies (rand : Nat → Nat) :
    Client.Progresses (fun _ => contract cacheSize)
      (fun m b => BlocksCopied content MAX_BLOCK_SIZE m b.2)
      (CopyDone content) (randomRound rand) := by
  intro m b s h
  have hsize : rand b.1 % MAX_BLOCK_SIZE < MAX_BLOCK_SIZE := Nat.mod_lt _ (by decide)
  obtain ⟨r, s', hrun, hr⟩ := blockRound_copies cacheSize
    (Nat.succ_pos (rand b.1 % MAX_BLOCK_SIZE)) hsize h
  rw [randomRound, Client.runM_then _ hrun]
  cases r with
  | inl b' => exact ⟨_, s', rfl, hr⟩
  | inr e => exact ⟨_, s', rfl, hr⟩

end

/-! ## The programs -/

/-- The four programs, with what their results depend on. -/
inductive CopyProgram where
  | byteCat
  | diabolicalByteCat
  | blockCat (bufferSize : Nat) (buffer : List UInt8)
  | randomBlockCat (rand : Nat → Nat) (buffer : List UInt8)

namespace CopyProgram

def run : CopyProgram → Nat → Program Exit
  | byteCat, rounds => Programs.byteCat rounds
  | diabolicalByteCat, rounds => Programs.diabolicalByteCat rounds
  | blockCat bufferSize buffer, rounds => Programs.blockCat bufferSize (some buffer) rounds
  | randomBlockCat rand buffer, rounds => Programs.randomBlockCat rand (some buffer) rounds

/-- What the caller answers for: counters do not overflow, and `malloc`
gives as many bytes as were asked for, more than none. -/
def Suits (content : List UInt8) : CopyProgram → Prop
  | byteCat => content.length ≤ INT_MAX
  | diabolicalByteCat => content.length ≤ INT_MAX
  | blockCat bufferSize buffer => 0 < bufferSize ∧ buffer.length = bufferSize
  | randomBlockCat _ buffer => buffer.length = MAX_BLOCK_SIZE

/-- The exit status: all but `block_cat` complain about an empty file. -/
def status (content : List UInt8) : CopyProgram → Exit
  | blockCat _ _ => .status 0
  | _ => .status (if content = [] then 1 else 0)

end CopyProgram

theorem run_copyProgram {cacheSize rounds : Nat} {p : CopyProgram} {content : List UInt8}
    (hp : p.Suits content) (hrounds : content.length < rounds) (old : List UInt8) :
    runContract cacheSize (p.run rounds) (files (.closed content) (.closed old)) =
      .ok (p.status content, files (.closed content) (.closed content)) := by
  cases p with
  | byteCat => exact run_copiesChar (byteCatRound_copies hp) hrounds old
  | diabolicalByteCat => exact run_copiesChar (diabolicalRound_copies hp) hrounds old
  | blockCat bufferSize buffer =>
    rw [CopyProgram.run, blockCat, run_openBoth]
    exact run_finish (Client.runM_iterate (blockCat_copies hp.1)
      ⟨rfl, hp.2, 0, none, Nat.zero_add _, rfl⟩ hrounds)
  | randomBlockCat rand buffer =>
    rw [CopyProgram.run, randomBlockCat, run_openBoth]
    show _ = Except.ok (Exit.status (if content = [] then 1 else 0), _)
    by_cases hne : content = []
    · subst hne
      exact run_sized_empty _
    · rw [run_sized _ hne, if_neg hne]
      exact run_finish (Client.runM_iterate (randomRound_copies rand)
        ⟨rfl, hp, 0, none, Nat.zero_add _, rfl⟩ hrounds)

/-- **The four programs copy**: linked with the naive implementation or
with the cached one, for every cache size and whatever both files hold, the
second file holds the bytes of the first in the end, and the first is as it
was. -/
theorem copies_agree {cacheSize rounds : Nat} (hC : 4 ≤ cacheSize) {p : CopyProgram}
    {content : List UInt8} (hp : p.Suits content) (hrounds : content.length < rounds)
    (old : List UInt8) :
    Leaves cacheSize (p.run rounds) (contents content old) (p.status content)
      (contents content content) := by
  apply leaves_of_contract (by omega)
  rw [closedAll_contents, closedAll_contents]
  exact run_copyProgram hp hrounds old

theorem copies_agree_block : Leaves 4 (Programs.blockCat 2 (some [0, 0]) 4)
    (contents [7, 8, 9] [1]) (.status 0) (contents [7, 8, 9] [7, 8, 9]) :=
  copies_agree (p := .blockCat 2 [0, 0]) (by decide) ⟨by decide, by decide⟩ (by decide) [1]

end SystemsProjects.FileIO.Programs
