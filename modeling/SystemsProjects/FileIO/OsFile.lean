/-
SystemsProjects.FileIO.OsFile — the operating-system side of the
`fileio` project: one open file description of a regular POSIX file, and
the three system calls both implementations issue on it.

`fileio/impl/naive.c` and `fileio/impl/student.c` are compiled against
the same `lseek` / `read` / `write`; this module is their common
environment. What the kernel does with each call is a script of
`Outcome`s consumed one per call (an exhausted script answers every
further call in full), so a run of either implementation can be studied
under any pattern of failing and short calls. An all-success environment
is the empty script.

Offsets are unbounded naturals: no offset arithmetic wraps here.
-/
import SystemsProjects.Base.FileBytes
import Mathlib.Algebra.Group.Nat.Defs

namespace SystemsProjects.FileIO

open SystemsProjects.Base

/-- What the kernel does with one system call. -/
inductive Outcome where
  | full
  | fail
  | short (n : Nat)
  deriving DecidableEq, Repr

/-- How many bytes a transfer that could move `avail` bytes moves. -/
def Outcome.transfer (avail : Nat) : Outcome → Option Nat
  | .full => some avail
  | .fail => none
  | .short n => some (min n avail)

/-- An open file description: contents, kernel offset, whether the
descriptor may write (`O_RDONLY` clears it), and the outcomes of the
calls to come. -/
structure OsFile where
  disk : List UInt8
  offset : Nat
  writable : Bool
  script : List Outcome
  deriving DecidableEq, Repr

namespace OsFile

/-- The outcome of the next call, and the description after the kernel
took it. -/
def next (k : OsFile) : Outcome × OsFile :=
  match k.script with
  | [] => (.full, k)
  | o :: os => (o, { k with script := os })

/-- `lseek(fd, off, SEEK_SET)`: −1 on failure and on a negative offset. -/
def lseekSet (k : OsFile) (off : Int) : Int × OsFile :=
  match k.next with
  | (.fail, k) => (-1, k)
  | (_, k) => if off < 0 then (-1, k) else (off, { k with offset := off.toNat })

/-- `lseek(fd, 0, SEEK_END)`. -/
def lseekEnd (k : OsFile) : Int × OsFile :=
  match k.next with
  | (.fail, k) => (-1, k)
  | (_, k) => (k.disk.length, { k with offset := k.disk.length })

/-- `fstat(fd, &s)`, then `s.st_size` (−1 on failure); the file is a
regular one. -/
def fstat (k : OsFile) : Int × OsFile :=
  match k.next with
  | (.fail, k) => (-1, k)
  | (_, k) => (k.disk.length, k)

/-- `read(fd, buf, n)`: the count (−1 on failure) and the bytes placed
in the buffer. -/
def read (k : OsFile) (n : Nat) : Int × List UInt8 × OsFile :=
  let (o, k) := k.next
  match o.transfer (min n (k.disk.length - k.offset)) with
  | none => (-1, [], k)
  | some m =>
    let data := slice k.disk k.offset m
    (data.length, data, { k with offset := k.offset + data.length })

/-- `write(fd, buf, n)` with `data` the `n` bytes at `buf`: the count
(−1 on failure, and when the descriptor is read-only). A gap between the
end of the file and the offset becomes zeros. -/
def write (k : OsFile) (data : List UInt8) : Int × OsFile :=
  let (o, k) := k.next
  match o.transfer data.length, k.writable with
  | some m, true =>
    (m, { k with disk := overwrite 0 k.disk k.offset (data.take m), offset := k.offset + m })
  | _, _ => (-1, k)

@[simp] theorem next_disk (k : OsFile) : k.next.2.disk = k.disk := by
  unfold next; split <;> rfl

/-- Moving the offset and reading leave the contents alone. -/
theorem lseekSet_disk (k : OsFile) (off : Int) : (k.lseekSet off).2.disk = k.disk := by
  rw [← next_disk k, lseekSet]
  split
  · rename_i h; simp [h]
  · rename_i h; split <;> simp [h]

theorem read_disk (k : OsFile) (n : Nat) : (k.read n).2.2.disk = k.disk := by
  rw [← next_disk k, read]
  simp only
  split <;> rfl

/-! ## The all-success environment -/

/-- Every call succeeds in full and writing is allowed. -/
structure Reliable (k : OsFile) : Prop where
  script : k.script = []
  writable : k.writable = true

theorem Reliable.at {k : OsFile} (h : k.Reliable) (d : List UInt8) (off : Nat) :
    OsFile.Reliable { k with disk := d, offset := off } :=
  ⟨h.script, h.writable⟩

theorem next_reliable {k : OsFile} (h : k.Reliable) : k.next = (.full, k) := by
  simp [next, h.script]

theorem lseekSet_reliable {k : OsFile} (h : k.Reliable) (off : Nat) :
    k.lseekSet off = ((off : Int), { k with offset := off }) := by
  have hoff : ¬ (off : Int) < 0 := by omega
  simp [lseekSet, next_reliable h, hoff]

theorem lseekSet_neg {k : OsFile} (h : k.Reliable) {off : Int} (hoff : off < 0) :
    k.lseekSet off = (-1, k) := by
  simp [lseekSet, next_reliable h, hoff]

theorem lseekEnd_reliable {k : OsFile} (h : k.Reliable) :
    k.lseekEnd = ((k.disk.length : Int), { k with offset := k.disk.length }) := by
  simp [lseekEnd, next_reliable h]

theorem fstat_of_script {k : OsFile} (h : k.script = []) :
    k.fstat = ((k.disk.length : Int), k) := by
  simp [fstat, next, h]

theorem read_reliable {k : OsFile} (h : k.Reliable) (n : Nat) :
    k.read n =
      (((slice k.disk k.offset n).length : Int), slice k.disk k.offset n,
        { k with offset := k.offset + (slice k.disk k.offset n).length }) := by
  have hs : slice k.disk k.offset (min n (k.disk.length - k.offset)) = slice k.disk k.offset n := by
    apply List.ext_getElem?
    intro i
    simp only [getElem?_slice]
    by_cases hi : i < k.disk.length - k.offset
    · have : (i < min n (k.disk.length - k.offset)) = (i < n) := by
        simp only [Nat.lt_min, hi, and_true]
      simp only [this]
    · have : k.disk[k.offset + i]? = none := List.getElem?_eq_none (by omega)
      simp [this]
  simp only [read, next_reliable h, Outcome.transfer, hs]

theorem write_reliable {k : OsFile} (h : k.Reliable) (data : List UInt8) :
    k.write data =
      ((data.length : Int),
        { k with disk := overwrite 0 k.disk k.offset data,
                 offset := k.offset + data.length }) := by
  simp [write, next_reliable h, Outcome.transfer, h.writable]

end OsFile

/-! ## Calls of the io300 interface -/

/-- Conversion of an `off_t` to the `int` that `io300_seek` returns. -/
def toInt32 (x : Int) : Int := Int.bmod x (2 ^ 32)

/-- One call of `io300.h` on an open file. `buff` is the caller's buffer,
as the call finds it. -/
inductive Call where
  | seek (pos : Int)
  | read (buff : List UInt8) (sz : Nat)
  | readc
  | write (buff : List UInt8) (sz : Nat)
  | writec (ch : Int)
  deriving DecidableEq, Repr

/-- What a call gives back: the returned value, and the caller's buffer
as the call leaves it. -/
structure Answer where
  value : Int
  buff : List UInt8
  deriving DecidableEq, Repr

/-- The calls a caller may make: buffers hold what is asked of them, a
write carries at least one byte, and a character is a byte. -/
def Call.Admissible : Call → Prop
  | .seek _ => True
  | .read buff sz => sz ≤ buff.length
  | .readc => True
  | .write buff sz => 1 ≤ sz ∧ sz ≤ buff.length
  | .writec ch => 0 ≤ ch ∧ ch ≤ 255

end SystemsProjects.FileIO
