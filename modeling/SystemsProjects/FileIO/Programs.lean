/-
SystemsProjects.FileIO.Programs — what the programs of
`fileio/test_programs` have in common.

They read one file and write another, or work on one in place. The files
are different ones, the arguments have been converted, and every message on
stderr is left out. `reading`, `appending` and `updating` are the states of
their files under the contract of the interface, with what each call does
to them.
-/
import SystemsProjects.FileIO.Clients

namespace SystemsProjects.FileIO.Programs

open SystemsProjects.Base

/-- `argv`, the files. -/
inductive FileName where
  | inFile
  | outFile
  deriving DecidableEq, Repr

/-- How `main` ends. `overflow`: a counter of type `int` leaves its range.
`divByZero`: a remainder by zero. `outOfRounds`: an endless loop has used up
the rounds of the model. -/
inductive Exit where
  | status (n : Int)
  | overflow
  | divByZero
  | outOfRounds
  deriving DecidableEq, Repr

abbrev Program := Client FileName Request Answer

def INT_MAX : Nat := 2147483647

/-- A call of which only the result is of interest. -/
def value (file : FileName) (q : Request) : Program Int := do
  let a ← Client.request file q
  pure a.value

/-- A null pointer is 0. -/
def io300Open (file : FileName) (mode : Nat) : Program Int := value file (.open mode)

def io300Close (file : FileName) : Program Int := value file .close

def io300Filesize (file : FileName) : Program Int := value file .filesize

def io300Seek (file : FileName) (pos : Int) : Program Int := value file (.call (.seek pos))

def io300Readc (file : FileName) : Program Int := value file (.call .readc)

def io300Writec (file : FileName) (ch : Int) : Program Int := value file (.call (.writec ch))

def io300Write (file : FileName) (buff : List UInt8) (sz : Nat) : Program Int :=
  value file (.call (.write buff sz))

/-- The result and the buffer after the call. -/
def io300Read (file : FileName) (buff : List UInt8) (sz : Nat) : Program (Int × List UInt8) := do
  let a ← Client.request file (.call (.read buff sz))
  pure (a.value, a.buff)

/-! ## Files under the contract -/

abbrev ContractFile := Handle (Naive.Io300File × Option Nat)

/-- Open for reading, the head at `off`. -/
def reading (content : List UInt8) (off : Nat) : ContractFile :=
  .opened (⟨⟨content, off, false, []⟩⟩, none)

/-- Open for both, the head at `off`. -/
def updating (content : List UInt8) (off : Nat) (tail : Option Nat) : ContractFile :=
  .opened (⟨⟨content, off, true, []⟩⟩, tail)

/-- Open for writing, the head at the end. -/
def appending (out : List UInt8) (tail : Option Nat) : ContractFile :=
  updating out out.length tail

/-- The two files. -/
def files (i o : ContractFile) : FileName → ContractFile
  | .inFile => i
  | .outFile => o

@[simp] theorem update_inFile (i i' o : ContractFile) :
    Function.update (files i o) .inFile i' = files i' o := by
  funext k
  cases k <;> rfl

@[simp] theorem update_outFile (i o o' : ContractFile) :
    Function.update (files i o) .outFile o' = files i o' := by
  funext k
  cases k <;> rfl

section

variable {cacheSize : Nat} {content : List UInt8} {off : Nat} {tail : Option Nat}

theorem toInt32_of_le {p : Nat} (h : p ≤ INT_MAX) : toInt32 p = p := by
  have h' : p ≤ 2147483647 := h
  rw [toInt32, Int.bmod_def]
  omega

/-- Calls that leave the file as it is leave no block behind. -/
theorem contract_reading {c : Call} {a : Answer} {off' : Nat}
    (hc : Naive.Io300File.Allows ⟨⟨content, off, false, []⟩⟩ c)
    (h : Naive.step ⟨⟨content, off, false, []⟩⟩ c = (a, ⟨⟨content, off', false, []⟩⟩)) :
    contract cacheSize (reading content off) (.call c) = .ok (a, reading content off') := by
  rw [reading, contract, if_pos hc, watch, h, tailBlock, if_neg (Nat.lt_irrefl _)]
  rfl

theorem contract_seek (p : Nat) :
    contract cacheSize (reading content off) (.call (.seek p)) =
      .ok (⟨toInt32 p, []⟩, reading content p) := by
  refine contract_reading trivial ?_
  have hpos : ¬ ((p : Int) < 0) := by omega
  simp [Naive.step, Naive.io300Seek, OsFile.lseekSet, OsFile.next, hpos]

/-- `read` of a file that has no failures to come. -/
theorem osRead (content : List UInt8) (off : Nat) (w : Bool) (n : Nat) :
    OsFile.read ⟨content, off, w, []⟩ n =
      (((slice content off n).length : Int), slice content off n,
        ⟨content, off + (slice content off n).length, w, []⟩) := by
  have hread := OsFile.read_reliable (k := ⟨content, off, true, []⟩) ⟨rfl, rfl⟩ n
  cases w with
  | true => exact hread
  | false =>
    have hprotect := OsFile.read_protect ⟨content, off, true, []⟩ n
    rw [hread] at hprotect
    exact hprotect

theorem osReadc (h : off < content.length) (w : Bool) :
    Naive.io300Readc ⟨⟨content, off, w, []⟩⟩ =
      (((content[off]).toNat : Int), ⟨⟨content, off + 1, w, []⟩⟩) := by
  have hslice : slice content off 1 = [content[off]] := by
    rw [slice, List.drop_eq_getElem_cons h]
    rfl
  simp only [Naive.io300Readc, osRead, hslice]
  rfl

theorem contract_read {buff : List UInt8} {sz : Nat} (h : sz ≤ buff.length) :
    contract cacheSize (reading content off) (.call (.read buff sz)) =
      .ok (⟨((slice content off sz).length : Int), Naive.fill buff (slice content off sz)⟩,
        reading content (off + (slice content off sz).length)) := by
  refine contract_reading h ?_
  simp only [Naive.step, Naive.io300Read, osRead]

theorem contract_readc (h : off < content.length) :
    contract cacheSize (reading content off) (.call .readc) =
      .ok (⟨((content[off]).toNat : Int), []⟩, reading content (off + 1)) := by
  refine contract_reading trivial ?_
  simp only [Naive.step, osReadc h]

variable (cacheSize content off tail) in
/-- A call on a file open for both leaves some block behind, or none. -/
theorem contract_updating {c : Call} {a : Answer} {content' : List UInt8} {off' : Nat}
    (hc : Naive.Io300File.Allows ⟨⟨content, off, true, []⟩⟩ c)
    (h : Naive.step ⟨⟨content, off, true, []⟩⟩ c = (a, ⟨⟨content', off', true, []⟩⟩)) :
    ∃ tail', contract cacheSize (updating content off tail) (.call c) =
      .ok (a, updating content' off' tail') := by
  refine ⟨tailBlock cacheSize tail ⟨⟨content, off, true, []⟩⟩ ⟨⟨content', off', true, []⟩⟩, ?_⟩
  rw [updating, contract, if_pos hc, watch, h]
  rfl

theorem overwrite_end (out data : List UInt8) : overwrite 0 out out.length data = out ++ data := by
  rcases eq_or_ne data [] with rfl | hne
  · rw [overwrite_nil, List.append_nil]
  · rw [overwrite, if_neg hne, Nat.sub_self, List.replicate_zero, List.append_nil,
      List.take_length, List.drop_eq_nil_of_le (Nat.le_add_right _ _), List.append_nil]

end

/-! ## The calls of a program under the contract -/

section

variable {cacheSize : Nat} {i : ContractFile} {content out : List UInt8} {off : Nat}
  {tail : Option Nat} {o : ContractFile} {s : FileName → ContractFile}

/-- The run of a program under the contract. -/
abbrev runContract {α : Type} (cacheSize : Nat) (p : Program α) (s : FileName → ContractFile) :
    Except ClientFault (α × (FileName → ContractFile)) :=
  p.runM (fun _ => contract cacheSize) s

theorem run_inFile {q : Request} {r : Int} {b : List UInt8} {i' : ContractFile}
    (h : contract cacheSize i q = .ok (⟨r, b⟩, i')) :
    runContract cacheSize (value .inFile q) (files i o) = .ok (r, files i' o) := by
  rw [value, runContract, Client.runM_request (s := files i o) _ h, update_inFile]
  rfl

theorem run_outFile {q : Request} {r : Int} {b : List UInt8} {o' : ContractFile}
    (h : contract cacheSize o q = .ok (⟨r, b⟩, o')) :
    runContract cacheSize (value .outFile q) (files i o) = .ok (r, files i o') := by
  rw [value, runContract, Client.runM_request (s := files i o) _ h, update_outFile]
  rfl

theorem run_open_inFile (content : List UInt8) :
    runContract cacheSize (io300Open .inFile MODE_READ) (files (.closed content) o) =
      .ok (1, files (reading content 0) o) :=
  run_inFile rfl

theorem run_open_outFile (old : List UInt8) :
    runContract cacheSize (io300Open .outFile MODE_WRITE) (files i (.closed old)) =
      .ok (1, files i (appending [] none)) :=
  run_outFile rfl

theorem run_open_rdwr (content : List UInt8) :
    runContract cacheSize (io300Open .inFile MODE_RDWR) (files (.closed content) o) =
      .ok (1, files (updating content 0 none) o) :=
  run_inFile rfl

theorem run_filesize :
    runContract cacheSize (io300Filesize .inFile) (files (reading content off) o) =
      .ok ((content.length : Int), files (reading content off) o) :=
  run_inFile rfl

theorem run_filesize_rdwr :
    runContract cacheSize (io300Filesize .inFile) (files (updating content off none) o) =
      .ok ((content.length : Int), files (updating content off none) o) :=
  run_inFile rfl

theorem run_close_inFile :
    runContract cacheSize (io300Close .inFile) (files (reading content off) o) =
      .ok (0, files (.closed content) o) :=
  run_inFile rfl

theorem run_close_updating :
    runContract cacheSize (io300Close .inFile) (files (updating content off tail) o) =
      .ok (0, files (.closed content) o) :=
  run_inFile rfl

theorem run_close_outFile :
    runContract cacheSize (io300Close .outFile) (files i (appending out tail)) =
      .ok (0, files i (.closed out)) :=
  run_outFile rfl

variable (cacheSize content off o) in
theorem run_seek {p : Nat} (h : p ≤ INT_MAX) :
    runContract cacheSize (io300Seek .inFile p) (files (reading content off) o) =
      .ok ((p : Int), files (reading content p) o) :=
  (run_inFile (contract_seek p)).trans (by rw [toInt32_of_le h])

variable (cacheSize o) in
theorem run_readc (h : off < content.length) :
    runContract cacheSize (io300Readc .inFile) (files (reading content off) o) =
      .ok (((content[off]).toNat : Int), files (reading content (off + 1)) o) :=
  run_inFile (contract_readc h)

variable (cacheSize content off o) in
theorem run_read (buff : List UInt8) {sz : Nat} (h : sz ≤ buff.length) :
    runContract cacheSize (io300Read .inFile buff sz) (files (reading content off) o) =
      .ok ((((slice content off sz).length : Int), Naive.fill buff (slice content off sz)),
        files (reading content (off + (slice content off sz).length)) o) := by
  rw [io300Read, runContract, Client.runM_request (s := files (reading content off) o) _
    (contract_read h), update_inFile]
  rfl

variable (cacheSize i out tail) in
/-- A write at the end makes the file longer by what is written. -/
theorem run_write (buff : List UInt8) {sz : Nat} (h : sz ≤ buff.length) :
    ∃ tail', runContract cacheSize (io300Write .outFile buff sz) (files i (appending out tail)) =
      .ok ((sz : Int), files i (appending (out ++ buff.take sz) tail')) := by
  have hlen : (buff.take sz).length = sz := List.length_take_of_le h
  obtain ⟨tail', hcall⟩ := contract_updating cacheSize out out.length tail
    (c := .write buff sz)
    ⟨rfl, h, fun _ => Nat.le_refl _⟩
    (by rw [Naive.step, Naive.io300Write, OsFile.write_reliable ⟨rfl, rfl⟩])
  refine ⟨tail', (run_outFile hcall).trans ?_⟩
  simp only [overwrite_end, hlen, appending, List.length_append]

theorem ofInt_toNat (b : UInt8) : UInt8.ofInt (b.toNat : Int) = b := by
  apply UInt8.toNat_inj.mp
  exact Int.ofNat.inj
    (Refines.toNat_ofInt_byte (Int.natCast_nonneg _) (by have := b.toNat_lt; omega))

variable (cacheSize i out tail) in
theorem run_writec (b : UInt8) :
    ∃ tail', runContract cacheSize (io300Writec .outFile b.toNat) (files i (appending out tail)) =
      .ok ((b.toNat : Int), files i (appending (out ++ [b]) tail')) := by
  obtain ⟨tail', hcall⟩ := contract_updating cacheSize out out.length tail
    (c := .writec b.toNat)
    ⟨rfl, Int.natCast_nonneg _, by have := b.toNat_lt; omega⟩
    (by rw [Naive.step, Naive.io300Writec, OsFile.write_reliable ⟨rfl, rfl⟩])
  refine ⟨tail', (run_outFile hcall).trans ?_⟩
  simp only [overwrite_end, appending, List.length_append, ofInt_toNat]
  rfl

end

/-! ## What a program does to its files -/

section

variable {cacheSize : Nat} {p : Program Exit} {e : Exit} {before after : FileName → List UInt8}

/-- Linked with either implementation, the program ends with `e` and leaves
`after` on disk. -/
structure Leaves (cacheSize : Nat) (p : Program Exit) (before : FileName → List UInt8) (e : Exit)
    (after : FileName → List UInt8) : Prop where
  naive : ∃ n, p.runM (fun _ => naive.request) (closedAll before) = .ok (e, n) ∧
    ∀ k, n k = .closed (after k)
  student : ∀ fresh : FileName → List UInt8, (∀ k, (fresh k).length = cacheSize) →
    ∃ f, p.runM (fun k => (student cacheSize (fresh k)).request) (closedAll before) = .ok (e, f) ∧
      ∀ k, f k = .closed (after k)

theorem leaves_of_contract (hC : 0 < cacheSize)
    (h : runContract cacheSize p (closedAll before) = .ok (e, closedAll after)) :
    Leaves cacheSize p before e after := by
  refine ⟨?_, fun fresh hfresh => ?_⟩
  · obtain ⟨n, hn, hclosed⟩ := naive_of_contract h
    exact ⟨n, hn, fun k => hclosed k _ rfl⟩
  · obtain ⟨f, hf, hclosed⟩ := student_of_contract hC hfresh h
    exact ⟨f, hf, fun k => hclosed k _ rfl⟩

/-- The contents of the two files. -/
def contents (i o : List UInt8) : FileName → List UInt8
  | .inFile => i
  | .outFile => o

theorem closedAll_contents (i o : List UInt8) :
    closedAll (contents i o) = files (.closed i) (.closed o) := by
  funext k
  cases k <;> rfl

end

end SystemsProjects.FileIO.Programs
