/-
SystemsProjects.FileIO.Naive — `fileio/impl/naive.c`, the implementation
that wraps the system calls and keeps no cache.

Its whole state is the open file description. Each function below is one
function of the C file; the unused `description` argument and the
`fprintf` diagnostics are left out.
-/
import SystemsProjects.FileIO.OsFile

namespace SystemsProjects.FileIO

/-- Mode bits of `io300.h`. -/
def MODE_READ : Nat := 1
def MODE_WRITE : Nat := 2
def MODE_RDWR : Nat := 3

/-- `open(path, flags)` as both implementations compute the flags from
the mode: `MODE_READ` opens read-only, `MODE_WRITE` truncates, any other
mode is refused (`none`). -/
def osOpen (mode : Nat) (content : List UInt8) (script : List Outcome) : Option OsFile :=
  if mode = MODE_READ then some ⟨content, 0, false, script⟩
  else if mode = MODE_WRITE then some ⟨[], 0, true, script⟩
  else if mode = MODE_RDWR then some ⟨content, 0, true, script⟩
  else none

namespace Naive

structure Io300File where
  fd : OsFile
  deriving DecidableEq, Repr

def io300Open (mode : Nat) (content : List UInt8) (script : List Outcome) : Option Io300File :=
  (osOpen mode content script).map Io300File.mk

def io300Filesize (f : Io300File) : Int × Io300File :=
  let (r, fd) := f.fd.fstat
  (r, { f with fd := fd })

def io300Seek (f : Io300File) (pos : Int) : Int × Io300File :=
  let (r, fd) := f.fd.lseekSet pos
  (toInt32 r, { f with fd := fd })

/-- Place `data` at the start of the caller's buffer. -/
def fill (buff data : List UInt8) : List UInt8 := data ++ buff.drop data.length

def io300Read (f : Io300File) (buff : List UInt8) (sz : Nat) : Int × List UInt8 × Io300File :=
  let (r, data, fd) := f.fd.read sz
  (r, fill buff data, { f with fd := fd })

def io300Write (f : Io300File) (buff : List UInt8) (sz : Nat) : Int × Io300File :=
  let (r, fd) := f.fd.write (buff.take sz)
  (r, { f with fd := fd })

def io300Readc (f : Io300File) : Int × Io300File :=
  let (r, data, fd) := f.fd.read 1
  (if r = 1 then ((data.headD 0).toNat : Int) else -1, { f with fd := fd })

def io300Writec (f : Io300File) (ch : Int) : Int × Io300File :=
  let c : UInt8 := UInt8.ofInt ch
  let (r, fd) := f.fd.write [c]
  (if r = 1 then ch else -1, { f with fd := fd })

/-- `io300_close`: what is on disk afterwards. -/
def io300Close (f : Io300File) : Int × List UInt8 := (0, f.fd.disk)

/-- One call of the interface. -/
def step (f : Io300File) : Call → Answer × Io300File
  | .seek pos => let (r, f) := io300Seek f pos; (⟨r, []⟩, f)
  | .read buff sz => let (r, buff, f) := io300Read f buff sz; (⟨r, buff⟩, f)
  | .readc => let (r, f) := io300Readc f; (⟨r, []⟩, f)
  | .write buff sz => let (r, f) := io300Write f buff sz; (⟨r, buff⟩, f)
  | .writec ch => let (r, f) := io300Writec f ch; (⟨r, []⟩, f)

end Naive

end SystemsProjects.FileIO
