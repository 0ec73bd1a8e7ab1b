/-
SystemsProjects.FileIO.Student — `fileio/impl/student.c`, the
block-cached implementation.

The cache holds one block of `cacheSize` bytes (the macro `CACHE_SIZE`)
that starts at `cachePos` in the file; its first `cacheValid` bytes are
file contents, and `cacheIdx` is the read/write head inside it.

Whatever the C code must not do is a `Fault` here: a failing assertion of
`check_invariants`, a `memcpy` or `memset` outside the cache or the
caller's buffer, and a `size_t` subtraction that would go below zero. The
recursions of `io300_read` and `io300_write` and the loop of `flush` take
a bound on their depth; running out of it is a `Fault` as well, so a run
that ends without one has terminated.

Left out: the statistics counters and the debugging output, which no
function reads.
-/
import SystemsProjects.FileIO.Naive

namespace SystemsProjects.FileIO.Student

open SystemsProjects.Base

inductive Fault where
  | assertion
  | outOfBounds
  | underflow
  | outOfFuel
  deriving DecidableEq, Repr

structure Io300File where
  fd : OsFile
  cache : List UInt8
  cachePos : Nat
  cacheIdx : Nat
  cacheValid : Nat
  isDirty : Bool
  fileSize : Nat
  deriving DecidableEq, Repr

/-! ## Checked machine operations -/

/-- `a - b` on `size_t`. -/
def subSize (a b : Nat) : Except Fault Nat :=
  if b ≤ a then .ok (a - b) else .error .underflow

/-- The `n` bytes at offset `off` of a region (the source of a `memcpy`). -/
def load (mem : List UInt8) (off n : Nat) : Except Fault (List UInt8) :=
  if off + n ≤ mem.length then .ok (slice mem off n) else .error .outOfBounds

/-- A region after `data` was copied to offset `off` (`memcpy`, `memset`). -/
def store (mem : List UInt8) (off : Nat) (data : List UInt8) : Except Fault (List UInt8) :=
  if off + data.length ≤ mem.length then .ok (overwrite 0 mem off data)
  else .error .outOfBounds

section

variable (cacheSize : Nat)

def checkInvariants (f : Io300File) : Except Fault Unit :=
  if f.cacheValid ≤ cacheSize ∧ f.cachePos % cacheSize = 0 ∧ f.cacheIdx ≤ cacheSize then .ok ()
  else .error .assertion

/-! ## `flush` and `fetch` -/

/-- The `while` loop of `flush`, `count` bytes in. -/
def flushLoop : Nat → Io300File → Nat → Except Fault (Int × Io300File)
  | 0, _, _ => .error .outOfFuel
  | fuel + 1, f, count =>
    if count < f.cacheValid then do
      let n ← subSize f.cacheValid count
      let data ← load f.cache count n
      let (bytesWritten, fd) := f.fd.write data
      let f := { f with fd := fd }
      if bytesWritten ≤ 0 then pure (-1, f)
      else flushLoop fuel f (count + bytesWritten.toNat)
    else pure (0, { f with isDirty := false })

def flush (f : Io300File) : Except Fault (Int × Io300File) := do
  checkInvariants cacheSize f
  if f.isDirty = false then pure (0, f)
  else
    let (offset, fd) := f.fd.lseekSet f.cachePos
    let f := { f with fd := fd }
    if offset < 0 then pure (offset, f)
    else flushLoop (f.cacheValid + 1) f 0

def fetch (f : Io300File) : Except Fault (Int × Io300File) := do
  checkInvariants cacheSize f
  if f.cachePos ≥ f.fileSize then pure (0, { f with cacheValid := 0 })
  else
    let (seekRc, fd) := f.fd.lseekSet f.cachePos
    let f := { f with fd := fd }
    if seekRc < 0 then pure (-1, f)
    else
      let (res, data, fd) := f.fd.read cacheSize
      let f := { f with fd := fd }
      if res < 0 then pure (res, f)
      else
        let cache ← store f.cache 0 data
        pure (res, { f with cache := cache, cacheValid := res.toNat })

/-! ## Opening, seeking, closing -/

/-- `io300_open`, with `fresh` the bytes `malloc` returned for the cache.
`none` is a null result. -/
def io300Open (mode : Nat) (content : List UInt8) (script : List Outcome) (fresh : List UInt8) :
    Except Fault (Option Io300File) :=
  match osOpen mode content script with
  | none => pure none
  | some fd =>
    let (fileSize, fd) := fd.lseekEnd
    if fileSize < 0 then pure none
    else
      let f : Io300File :=
        { fd := fd, cache := fresh, cachePos := 0, cacheIdx := 0,
          cacheValid := min fileSize.toNat cacheSize, isDirty := false,
          fileSize := fileSize.toNat }
      let (rc, fd) := f.fd.lseekSet 0
      let f := { f with fd := fd }
      if rc < 0 then pure none
      else do
        let (bytesFetched, f) ← fetch cacheSize f
        if bytesFetched < 0 then pure none
        else
          let f :=
            if bytesFetched < cacheSize then { f with cacheValid := bytesFetched.toNat } else f
          checkInvariants cacheSize f
          pure (some f)

def io300Seek (f : Io300File) (pos : Int) : Except Fault (Int × Io300File) := do
  checkInvariants cacheSize f
  if pos < 0 then pure (-1, f)
  else
    let p := pos.toNat
    if f.cachePos ≤ p ∧ p < f.cachePos + cacheSize then
      pure (toInt32 pos, { f with cacheIdx := p - f.cachePos })
    else
      -- the results of `flush` and `fetch` are not looked at
      let (_, f) ← flush cacheSize f
      let f := { f with cachePos := p - p % cacheSize, cacheIdx := p % cacheSize }
      let (_, f) ← fetch cacheSize f
      pure (toInt32 pos, f)

def io300Filesize (f : Io300File) : Except Fault (Int × Io300File) := do
  checkInvariants cacheSize f
  let (r, fd) := f.fd.fstat
  pure (r, { f with fd := fd })

/-- `io300_close`: the returned value and what is on disk afterwards. -/
def io300Close (f : Io300File) : Except Fault (Int × List UInt8) := do
  checkInvariants cacheSize f
  let (_, f) ← flush cacheSize f
  pure (0, f.fd.disk)

/-! ## Reading -/

/-- Flush, move to the next block, fetch it: the statements that
`io300_read` issues at the end of a block, in both of its branches. The
value is the first negative result, else 0. -/
def nextBlock (f : Io300File) : Except Fault (Int × Io300File) := do
  let (flushRes, f) ← flush cacheSize f
  if flushRes < 0 then pure (flushRes, f)
  else
    let (fetchRes, f) ← fetch cacheSize { f with cachePos := f.cachePos + cacheSize, cacheIdx := 0 }
    pure (if fetchRes < 0 then fetchRes else 0, f)

/-- `io300_read` to a recursion depth. -/
def io300ReadLoop :
    Nat → Io300File → List UInt8 → Nat → Except Fault (Int × List UInt8 × Io300File)
  | 0, _, _, _ => .error .outOfFuel
  | fuel + 1, f, buff, sz => do
    checkInvariants cacheSize f
    if f.cachePos + f.cacheIdx ≥ f.fileSize then pure (0, buff, f)
    else
      let bytesUntilCacheEnd ← subSize cacheSize f.cacheIdx
      let avail := if f.cacheIdx < f.cacheValid then f.cacheValid - f.cacheIdx else 0
      let readable := min sz (min bytesUntilCacheEnd avail)
      let data ← load f.cache f.cacheIdx readable
      let buff ← store buff 0 data
      if readable = sz ∨ f.cachePos + f.cacheIdx + readable = f.fileSize then
        let f := { f with cacheIdx := f.cacheIdx + readable }
        if f.cacheIdx = cacheSize then
          let (rc, f) ← nextBlock cacheSize f
          pure (if rc < 0 then rc else readable, buff, f)
        else pure (readable, buff, f)
      else
        let (rc, f) ← nextBlock cacheSize f
        if rc < 0 then pure (rc, buff, f)
        else
          let rest ← subSize sz readable
          -- the caller's buffer from `buff + readable` on
          let (n, tail, f) ← io300ReadLoop fuel f (buff.drop readable) rest
          pure (readable + n, buff.take readable ++ tail, f)

def io300Read (f : Io300File) (buff : List UInt8) (sz : Nat) :
    Except Fault (Int × List UInt8 × Io300File) :=
  io300ReadLoop cacheSize (f.fileSize + 1) f buff sz

def io300Readc (f : Io300File) : Except Fault (Int × Io300File) := do
  checkInvariants cacheSize f
  let (res, ch, f) ← io300Read cacheSize f [0] 1
  pure (if res ≤ 0 then -1 else ((ch.headD 0).toNat : Int), f)

/-! ## Writing -/

/-- The index in the cache of the end of the file, 0 if it is not in the
cached block. -/
def eofIdx (f : Io300File) : Nat :=
  if f.fileSize > f.cachePos then f.fileSize - f.cachePos else 0

/-- The first part of the hole fill: zero the cache from the end of the
file to the head. -/
def fillCache (f : Io300File) : Except Fault Io300File :=
  if f.cacheIdx > eofIdx f then do
    let n ← subSize f.cacheIdx (eofIdx f)
    let cache ← store f.cache (eofIdx f) (List.replicate n 0)
    pure { f with cache := cache, isDirty := true }
  else pure f

/-- The second part: zeros on disk from the end of the file to the block.
The source takes them from an array of this length on its stack, which is
idealised: it has room for any length, and may be empty. -/
def fillDisk (f : Io300File) : Except Fault (Int × Io300File) :=
  if eofIdx f = 0 then
    let (seekRc, fd) := f.fd.lseekSet f.fileSize
    let f := { f with fd := fd }
    if seekRc < 0 then pure (seekRc, f)
    else do
      let bytesToFill ← subSize f.cachePos f.fileSize
      let (writeRc, fd) := f.fd.write (List.replicate bytesToFill 0)
      pure (if writeRc < 0 then writeRc else 0, { f with fd := fd })
  else pure (0, f)

/-- `io300_write`, "if over EOF, fill in hole and update file_size". -/
def fillHole (f : Io300File) : Except Fault (Int × Io300File) :=
  if f.fileSize < f.cachePos + f.cacheIdx then do
    let f ← fillCache f
    let (rc, f) ← fillDisk f
    if rc < 0 then pure (rc, f)
    else pure (0, { f with fileSize := f.cachePos + f.cacheIdx })
  else pure (0, f)

/-- "write whatever we can to the cache and mark dirty". -/
def cacheWrite (f : Io300File) (buff : List UInt8) (writable : Nat) : Except Fault Io300File :=
  if writable > 0 then do
    let data ← load buff 0 writable
    let cache ← store f.cache f.cacheIdx data
    pure { f with cache := cache, isDirty := true,
                  cacheValid := max f.cacheValid (f.cacheIdx + writable) }
  else pure f

/-- "if we want to write over EOF, update file_size". -/
def growFile (f : Io300File) (sz : Nat) : Io300File :=
  let potentialNewSz := f.cachePos + f.cacheIdx + sz
  if f.fileSize < potentialNewSz then { f with fileSize := potentialNewSz } else f

/-- "if we've filled the cache, flush and update metadata; and fetch if
not past EOF", else move the head. -/
def moveHead (f : Io300File) (writable : Nat) : Except Fault Io300File :=
  if f.cacheIdx + writable = cacheSize then do
    let (_, f) ← flush cacheSize f
    let f := { f with cachePos := f.cachePos + cacheSize, cacheIdx := 0, cacheValid := 0 }
    if f.fileSize > f.cachePos then do
      let (_, f) ← fetch cacheSize f
      pure f
    else pure f
  else pure { f with cacheIdx := f.cacheIdx + writable }

/-- `io300_write` to a recursion depth. -/
def io300WriteLoop : Nat → Io300File → List UInt8 → Nat → Except Fault (Int × Io300File)
  | 0, _, _, _ => .error .outOfFuel
  | fuel + 1, f, buff, sz => do
    checkInvariants cacheSize f
    let (rc, f) ← fillHole f
    if rc < 0 then pure (rc, f)
    else
      let room ← subSize cacheSize f.cacheIdx
      let writable := min sz room
      let f ← cacheWrite f buff writable
      let f ← moveHead cacheSize (growFile f sz) writable
      if writable = sz then pure (writable, f)
      else
        let rest ← subSize sz writable
        let (n, f) ← io300WriteLoop fuel f (buff.drop writable) rest
        pure (writable + n, f)

def io300Write (f : Io300File) (buff : List UInt8) (sz : Nat) : Except Fault (Int × Io300File) :=
  io300WriteLoop cacheSize (sz + 2) f buff sz

def io300Writec (f : Io300File) (ch : Int) : Except Fault (Int × Io300File) := do
  checkInvariants cacheSize f
  let c : UInt8 := UInt8.ofInt ch
  let (r, f) ← io300Write cacheSize f [c] 1
  pure (if r = 1 then (c.toNat : Int) else -1, f)

/-- One call of the interface. -/
def step (f : Io300File) : Call → Except Fault (Answer × Io300File)
  | .seek pos => do let (r, f) ← io300Seek cacheSize f pos; pure (⟨r, []⟩, f)
  | .read buff sz => do let (r, buff, f) ← io300Read cacheSize f buff sz; pure (⟨r, buff⟩, f)
  | .readc => do let (r, f) ← io300Readc cacheSize f; pure (⟨r, []⟩, f)
  | .write buff sz => do let (r, f) ← io300Write cacheSize f buff sz; pure (⟨r, buff⟩, f)
  | .writec ch => do let (r, f) ← io300Writec cacheSize f ch; pure (⟨r, []⟩, f)

end

end SystemsProjects.FileIO.Student
