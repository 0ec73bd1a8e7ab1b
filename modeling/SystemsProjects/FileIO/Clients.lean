/-
SystemsProjects.FileIO.Clients — programs over io300.h.

A program opens files, calls the interface on them, decides what to do
next by what the calls return, and closes the files. It is one `Client`,
whichever implementation it is linked with. `contract` is the naive
implementation with the rules of the interface: a request that breaks them
faults there. A program that keeps the rules does the same with both
implementations (`client_agrees`): the same results, and the same bytes in
every file it has closed.

The rules exclude two things that io300.h does not, because the
implementations differ there: a write of nothing beyond the end of the
file, and the question for its size while a block of the cache may hold
unflushed bytes past the end.
-/
import SystemsProjects.Base.Interaction
import SystemsProjects.FileIO.FileSize
import SystemsProjects.FileIO.ZeroWrite

namespace SystemsProjects.FileIO

open SystemsProjects.Base

/-! ## Files by name -/

/-- A file a program may open: its contents, or what `io300_open`
returned. -/
inductive Handle (σ : Type) where
  | closed (content : List UInt8)
  | opened (f : σ)

/-- The functions of `io300.h`. The answer to `open` is 1 for a file and 0
for a null pointer. -/
inductive Request where
  | open (mode : Nat)
  | call (c : Call)
  | filesize
  | close
  deriving DecidableEq, Repr

/-- What a program must not do to a file, or a fault inside the
implementation. -/
inductive ClientFault where
  | misuse
  | inside (e : Student.Fault)
  deriving DecidableEq, Repr

/-- An implementation of the interface. -/
structure Implementation (σ : Type) where
  io300Open : Nat → List UInt8 → Except Student.Fault (Option σ)
  step : σ → Call → Except Student.Fault (Answer × σ)
  io300Filesize : σ → Except Student.Fault (Int × σ)
  io300Close : σ → Except Student.Fault (Int × List UInt8)

def naive : Implementation Naive.Io300File where
  io300Open := fun mode content => .ok (Naive.io300Open mode content [])
  step := fun f c => .ok (Naive.step f c)
  io300Filesize := fun f => .ok (Naive.io300Filesize f)
  io300Close := fun f => .ok (Naive.io300Close f)

/-- `fresh` is what `malloc` returns for the cache. -/
def student (cacheSize : Nat) (fresh : List UInt8) : Implementation Student.Io300File where
  io300Open := fun mode content => Student.io300Open cacheSize mode content [] fresh
  step := Student.step cacheSize
  io300Filesize := Student.io300Filesize cacheSize
  io300Close := Student.io300Close cacheSize

variable {σ : Type}

/-- One request. Only a closed file can be opened, and only an open one
used. -/
def Implementation.request (impl : Implementation σ) :
    Handle σ → Request → Except ClientFault (Answer × Handle σ)
  | .closed content, .open mode =>
    match impl.io300Open mode content with
    | .error e => .error (.inside e)
    | .ok none => .ok (⟨0, []⟩, .closed content)
    | .ok (some f) => .ok (⟨1, []⟩, .opened f)
  | .opened f, .call c =>
    match impl.step f c with
    | .error e => .error (.inside e)
    | .ok (a, f) => .ok (a, .opened f)
  | .opened f, .filesize =>
    match impl.io300Filesize f with
    | .error e => .error (.inside e)
    | .ok (r, f) => .ok (⟨r, []⟩, .opened f)
  | .opened f, .close =>
    match impl.io300Close f with
    | .error e => .error (.inside e)
    | .ok (r, content) => .ok (⟨r, []⟩, .closed content)
  | _, _ => .error .misuse

/-! ## The rules of the interface -/

/-- What may be called: buffers hold what is asked of them, a character is
a byte, only a file opened for it is written, and a write of nothing is
made up to the end of the file. -/
def Naive.Io300File.Allows (n : Naive.Io300File) : Call → Prop
  | .seek _ => True
  | .read buff sz => sz ≤ buff.length
  | .readc => True
  | .write buff sz => n.fd.writable = true ∧ sz ≤ buff.length ∧
      (sz = 0 → n.fd.offset ≤ n.fd.disk.length)
  | .writec ch => n.fd.writable = true ∧ 0 ≤ ch ∧ ch ≤ 255

instance (n : Naive.Io300File) (c : Call) : Decidable (n.Allows c) := by
  cases c <;> unfold Naive.Io300File.Allows <;> infer_instance

/-- The naive implementation, with the block followed that may hold
unflushed bytes past the end of the file; a request that breaks the rules
faults. The size may be asked for when there is no such block, which
depends on the size of the cache. -/
def contract (cacheSize : Nat) :
    Handle (Naive.Io300File × Option Nat) → Request →
      Except ClientFault (Answer × Handle (Naive.Io300File × Option Nat))
  | .closed content, .open mode =>
    match Naive.io300Open mode content [] with
    | none => .ok (⟨0, []⟩, .closed content)
    | some n => .ok (⟨1, []⟩, .opened (n, none))
  | .opened t, .call c =>
    if t.1.Allows c then .ok ((watch cacheSize t c).1, .opened (watch cacheSize t c).2)
    else .error .misuse
  | .opened t, .filesize =>
    if t.2 = none then .ok (⟨t.1.fd.disk.length, []⟩, .opened t) else .error .misuse
  | .opened t, .close => .ok (⟨0, []⟩, .closed t.1.fd.disk)
  | _, _ => .error .misuse

/-! ## The naive implementation keeps the contract -/

/-- The same file without the block. -/
def Unwatched : Handle Naive.Io300File → Handle (Naive.Io300File × Option Nat) → Prop
  | .closed content, .closed content' => content = content'
  | .opened n, .opened t => n = t.1 ∧ n.fd.script = []
  | _, _ => False

theorem osOpen_script {mode : Nat} {content : List UInt8} {fd : OsFile}
    (h : osOpen mode content [] = some fd) : fd.script = [] := by
  unfold osOpen at h
  split at h
  · cases h
    rfl
  · split at h
    · cases h
      rfl
    · split at h
      · cases h
        rfl
      · cases h

theorem OsFile.next_of_script {k : OsFile} (h : k.script = []) : k.next = (.full, k) := by
  simp [next, h]

theorem Naive.step_script {n : Naive.Io300File} (h : n.fd.script = []) (c : Call) :
    (Naive.step n c).2.fd.script = [] := by
  have hnext := OsFile.next_of_script h
  cases c with
  | seek pos =>
    simp only [step, io300Seek, OsFile.lseekSet, hnext]
    split <;> exact h
  | read buff sz => simp only [step, io300Read, OsFile.read, hnext, Outcome.transfer, h]
  | readc => simp only [step, io300Readc, OsFile.read, hnext, Outcome.transfer, h]
  | write buff sz =>
    simp only [step, io300Write, OsFile.write, hnext, Outcome.transfer]
    split <;> exact h
  | writec ch =>
    simp only [step, io300Writec, OsFile.write, hnext, Outcome.transfer]
    split <;> exact h

theorem naive_simulates (cacheSize : Nat) :
    Client.Simulates Unwatched naive.request (contract cacheSize) := by
  intro s t i r t' hR h
  cases t with
  | closed content =>
    cases s with
    | opened n => exact hR.elim
    | closed content' =>
      obtain rfl : content' = content := hR
      cases i with
      | «open» mode =>
        dsimp only [contract, Implementation.request, naive] at h ⊢
        cases hopen : Naive.io300Open mode content' [] with
        | none =>
          rw [hopen] at h
          cases h
          exact ⟨_, rfl, rfl⟩
        | some n =>
          rw [hopen] at h
          cases h
          obtain ⟨fd, hfd, rfl⟩ := Option.map_eq_some_iff.mp hopen
          exact ⟨_, rfl, rfl, osOpen_script hfd⟩
      | call c => cases h
      | filesize => cases h
      | close => cases h
  | opened t =>
    cases s with
    | closed content => exact hR.elim
    | opened n =>
      obtain ⟨rfl, hscript⟩ := hR
      cases i with
      | «open» mode => cases h
      | call c =>
        dsimp only [contract] at h
        split at h
        · cases h
          exact ⟨_, rfl, rfl, Naive.step_script hscript c⟩
        · cases h
      | filesize =>
        dsimp only [contract] at h
        split at h
        · cases h
          refine ⟨.opened t.1, ?_, rfl, hscript⟩
          simp only [Implementation.request, naive, Naive.io300Filesize,
            OsFile.fstat_of_script hscript]
        · cases h
      | close =>
        cases h
        exact ⟨_, rfl, rfl⟩

/-! ## The cached implementation keeps the contract -/

/-- A cached file open for writing, or one that was opened for reading and
is the other without the right to write. -/
def Shadows (cacheSize : Nat) (f : Student.Io300File) (t : Naive.Io300File × Option Nat) : Prop :=
  (t.1.fd.writable = true ∧ Watched cacheSize f t) ∨
    ∃ f₀ n₀, f = f₀.protect ∧ t = (⟨OsFile.protect n₀.fd⟩, none) ∧ f₀.isDirty = false ∧
      Refines cacheSize f₀ n₀

def Tracks (cacheSize : Nat) :
    Handle Student.Io300File → Handle (Naive.Io300File × Option Nat) → Prop
  | .closed content, .closed content' => content = content'
  | .opened f, .opened t => Shadows cacheSize f t
  | _, _ => False

theorem Naive.step_protect (n : Naive.Io300File) {c : Call} (hc : c.Reads) :
    Naive.step ⟨n.fd.protect⟩ c = ((Naive.step n c).1, ⟨(Naive.step n c).2.fd.protect⟩) := by
  cases c with
  | seek pos => simp only [step, io300Seek, OsFile.lseekSet_protect]
  | read buff sz => simp only [step, io300Read, OsFile.read_protect]
  | readc => simp only [step, io300Readc, OsFile.read_protect]
  | write buff sz => exact hc.elim
  | writec ch => exact hc.elim

section

variable {cacheSize : Nat} {f : Student.Io300File} {t : Naive.Io300File × Option Nat} {c : Call}

theorem Naive.Io300File.Allows.reads {n : Naive.Io300File} (h : n.Allows c)
    (hw : n.fd.writable = false) : c.Reads := by
  cases c with
  | seek pos => trivial
  | read buff sz => trivial
  | readc => trivial
  | write buff sz =>
    rw [Naive.Io300File.Allows, hw] at h
    cases h.1
  | writec ch =>
    rw [Naive.Io300File.Allows, hw] at h
    cases h.1

/-- Anything allowed but a write of nothing is a call of the refinement. -/
theorem Naive.Io300File.Allows.admissible {n : Naive.Io300File} (h : n.Allows c) :
    c.Admissible ∨ ∃ buff, c = .write buff 0 ∧ n.fd.offset ≤ n.fd.disk.length := by
  cases c with
  | seek pos => exact .inl trivial
  | read buff sz => exact .inl h
  | readc => exact .inl trivial
  | write buff sz =>
    rcases Nat.eq_zero_or_pos sz with rfl | hpos
    · exact .inr ⟨buff, rfl, h.2.2 rfl⟩
    · exact .inl ⟨hpos, h.2.1⟩
  | writec ch => exact .inl h.2

theorem Naive.step_writable {n : Naive.Io300File} (hs : n.fd.script = []) (c : Call) :
    (Naive.step n c).2.fd.writable = n.fd.writable := by
  have hnext := OsFile.next_of_script hs
  cases c with
  | seek pos =>
    simp only [step, io300Seek, OsFile.lseekSet, hnext]
    split <;> rfl
  | read buff sz => simp only [step, io300Read, OsFile.read, hnext, Outcome.transfer]
  | readc => simp only [step, io300Readc, OsFile.read, hnext, Outcome.transfer]
  | write buff sz =>
    simp only [step, io300Write, OsFile.write, hnext, Outcome.transfer]
    split <;> rfl
  | writec ch =>
    simp only [step, io300Writec, OsFile.write, hnext, Outcome.transfer]
    split <;> rfl

/-- A write of nothing up to the end of the file leaves both files and the
block followed as they are. -/
theorem Watched.write_nothing (h : Watched cacheSize f t) (buff : List UInt8)
    (hin : t.1.fd.offset ≤ t.1.fd.disk.length) :
    Student.step cacheSize f (.write buff 0) = .ok ((watch cacheSize t (.write buff 0)).1, f) ∧
      (watch cacheSize t (.write buff 0)).2 = t := by
  obtain ⟨hrel, htail⟩ := h
  have hco := hrel.coherent
  have hhead : f.cachePos + f.cacheIdx ≤ f.fileSize := by
    rw [← hrel.head, hco.size]
    exact hin
  have hnaive := Student.naive_write_zero hrel.reliable buff
  constructor
  · rw [Student.step, Student.io300Write_nothing hco.toCaches.check hco.idxLt hhead buff]
    simp only [ok_bind, watch, Naive.step, hnaive]
    rfl
  · simp only [watch, Naive.step, hnaive]
    refine Prod.ext rfl ?_
    simp only [tailBlock, if_neg (Nat.lt_irrefl _), hrel.head,
      Student.block_of_head hco.posMod hco.idxLt]
    cases ht : t.2 with
    | none => rfl
    | some block =>
      rw [ht] at htail
      rw [Option.filter_some, if_pos (decide_eq_true htail.1)]

theorem Shadows.call (hC : 0 < cacheSize) (h : Shadows cacheSize f t) (hc : t.1.Allows c) :
    ∃ f', Student.step cacheSize f c = .ok ((watch cacheSize t c).1, f') ∧
      Shadows cacheSize f' (watch cacheSize t c).2 := by
  rcases h with ⟨hw, hwatched⟩ | ⟨f₀, n₀, rfl, rfl, hclean, hrel⟩
  · have hw' : (watch cacheSize t c).2.1.fd.writable = true :=
      (Naive.step_writable hwatched.1.reliable.script c).trans hw
    rcases hc.admissible with hadm | ⟨buff, rfl, hin⟩
    · obtain ⟨f', hstep, hwatched'⟩ := watched_step hC f t c hwatched hadm
      exact ⟨f', hstep, .inl ⟨hw', hwatched'⟩⟩
    · obtain ⟨hstep, hsame⟩ := hwatched.write_nothing buff hin
      exact ⟨f, hstep, .inl ⟨hw', by rw [hsame]; exact hwatched⟩⟩
  · -- the same call with the right to write, which it does not use
    have hreads : c.Reads := hc.reads rfl
    have hadm : c.Admissible := by
      rcases hc.admissible with hadm | ⟨buff, rfl, -⟩
      · exact hadm
      · exact hreads.elim
    obtain ⟨f', hstep, hrel'⟩ := step_refines hC f₀ n₀ c hrel hadm
    obtain ⟨hstep', hclean'⟩ := Student.step_protect hreads hclean hstep
    have hdisk := (Naive.step_reads hrel.reliable.script hreads).1
    refine ⟨f'.protect, ?_, .inr ⟨f', (Naive.step n₀ c).2, rfl, ?_, hclean', hrel'⟩⟩
    · rw [hstep', watch, Naive.step_protect n₀ hreads]
    · rw [watch, Naive.step_protect n₀ hreads]
      refine Prod.ext rfl ?_
      have hsame : ¬ (OsFile.protect n₀.fd).disk.length <
          (OsFile.protect (Naive.step n₀ c).2.fd).disk.length := by
        show ¬ n₀.fd.disk.length < (Naive.step n₀ c).2.fd.disk.length
        rw [hdisk]
        exact Nat.lt_irrefl _
      simp only [tailBlock, if_neg hsame, Option.filter_none]

theorem Shadows.filesize (h : Shadows cacheSize f t) (ht : t.2 = none) :
    Student.io300Filesize cacheSize f = .ok (t.1.fd.disk.length, f) := by
  rcases h with ⟨-, hwatched⟩ | ⟨f₀, n₀, rfl, rfl, hclean, hrel⟩
  · obtain ⟨hsize, hiff⟩ := hwatched.filesize
    rw [hsize, hiff.mpr ht, Naive.io300Filesize_eq hwatched.1.reliable.script]
  · have hco := hrel.coherent
    have hdisk := hco.clean hclean
    rw [Student.io300Filesize_eq (f := f₀.protect) hco.toCaches.check hco.reliable.script]
    show Except.ok ((f₀.fd.disk.length : Int), f₀.protect) = .ok ((n₀.fd.disk.length : Int), _)
    rw [hdisk]

theorem Shadows.close (h : Shadows cacheSize f t) :
    Student.io300Close cacheSize f = .ok (0, t.1.fd.disk) := by
  rcases h with ⟨-, hwatched⟩ | ⟨f₀, n₀, rfl, rfl, hclean, hrel⟩
  · exact Student.io300Close_spec hwatched.1.coherent.toCaches
  · have hco := hrel.coherent
    have hflush : Student.flush cacheSize f₀.protect = .ok (0, f₀.protect) := by
      rw [Student.flush, show Student.checkInvariants cacheSize f₀.protect = .ok () from
        hco.toCaches.check, ok_bind, if_pos (show f₀.protect.isDirty = false from hclean)]
      rfl
    rw [Student.io300Close, show Student.checkInvariants cacheSize f₀.protect = .ok () from
      hco.toCaches.check, ok_bind, hflush]
    show Except.ok ((0 : Int), f₀.fd.disk) = .ok (0, n₀.fd.disk)
    rw [hco.clean hclean]

theorem shadows_open (hC : 0 < cacheSize) (mode : Nat) (content : List UInt8) {fresh : List UInt8}
    (hfresh : fresh.length = cacheSize) :
    match Naive.io300Open mode content [] with
    | none => Student.io300Open cacheSize mode content [] fresh = .ok none
    | some n => ∃ f, Student.io300Open cacheSize mode content [] fresh = .ok (some f) ∧
        Shadows cacheSize f (n, none) := by
  by_cases hwrite : mode = MODE_WRITE ∨ mode = MODE_RDWR
  · obtain ⟨f, n, hf, hn, hrel⟩ := open_refines hC hwrite content hfresh
    obtain ⟨fd, hfd, rfl⟩ := Option.map_eq_some_iff.mp hn
    have hclean := Student.io300Open_clean hfd (osOpen_script hfd) hf
    rw [hn]
    exact ⟨f, hf, .inl ⟨hrel.reliable.writable, hrel, by rw [Tail, hrel.coherent.clean hclean]⟩⟩
  · by_cases hread : mode = MODE_READ
    · subst hread
      obtain ⟨f, n, hf, hn, hrel⟩ := open_refines hC (.inr rfl) content hfresh
      obtain ⟨fd, hfd, rfl⟩ := Option.map_eq_some_iff.mp hn
      have hclean := Student.io300Open_clean hfd (osOpen_script hfd) hf
      cases hfd
      exact ⟨f.protect, Student.io300Open_protect hf,
        .inr ⟨f, ⟨⟨content, 0, true, []⟩⟩, rfl, rfl, hclean, hrel⟩⟩
    · obtain ⟨hw, hrw⟩ := not_or.mp hwrite
      have hnone : osOpen mode content [] = none := by
        rw [osOpen, if_neg hread, if_neg hw, if_neg hrw]
      rw [Naive.io300Open, hnone, Option.map_none]
      simp only [Student.io300Open, hnone, pure_eq_ok]

end

theorem student_simulates {cacheSize : Nat} (hC : 0 < cacheSize) {fresh : List UInt8}
    (hfresh : fresh.length = cacheSize) :
    Client.Simulates (Tracks cacheSize) (student cacheSize fresh).request
      (contract cacheSize) := by
  intro s t i r t' hR h
  cases t with
  | closed content =>
    cases s with
    | opened f => exact hR.elim
    | closed content' =>
      obtain rfl : content' = content := hR
      cases i with
      | «open» mode =>
        have hopen := shadows_open hC mode content' hfresh
        dsimp only [contract, Implementation.request, student] at h ⊢
        cases hn : Naive.io300Open mode content' [] with
        | none =>
          rw [hn] at h hopen
          cases h
          exact ⟨.closed content', by rw [hopen], rfl⟩
        | some n =>
          rw [hn] at h hopen
          cases h
          obtain ⟨f, hf, hsh⟩ := hopen
          exact ⟨.opened f, by rw [hf], hsh⟩
      | call c => cases h
      | filesize => cases h
      | close => cases h
  | opened t =>
    cases s with
    | closed content => exact hR.elim
    | opened f =>
      have hsh : Shadows cacheSize f t := hR
      cases i with
      | «open» mode => cases h
      | call c =>
        dsimp only [contract] at h
        split at h
        · rename_i hallows
          cases h
          obtain ⟨f', hstep, hsh'⟩ := hsh.call hC hallows
          refine ⟨.opened f', ?_, hsh'⟩
          simp only [Implementation.request, student, hstep]
        · cases h
      | filesize =>
        dsimp only [contract] at h
        split at h
        · rename_i hnone
          cases h
          refine ⟨.opened f, ?_, hsh⟩
          simp only [Implementation.request, student, hsh.filesize hnone]
        · cases h
      | close =>
        cases h
        refine ⟨.closed t.1.fd.disk, ?_, rfl⟩
        simp only [Implementation.request, student, hsh.close]

/-! ## Programs -/

variable {κ α : Type} [DecidableEq κ]

/-- All files closed. -/
def closedAll (contents : κ → List UInt8) (k : κ) : Handle σ := .closed (contents k)

section

variable {cacheSize : Nat} {p : Client κ Request Answer α} {contents : κ → List UInt8} {a : α}
  {t : κ → Handle (Naive.Io300File × Option Nat)}

theorem naive_of_contract
    (h : p.runM (fun _ => contract cacheSize) (closedAll contents) = .ok (a, t)) :
    ∃ n, p.runM (fun _ => naive.request) (closedAll contents) = .ok (a, n) ∧
      ∀ k content, t k = .closed content → n k = .closed content := by
  obtain ⟨n, hrun, hun⟩ := Client.runM_simulates (R := fun _ => Unwatched)
    (fun _ => naive_simulates cacheSize) p (s := closedAll contents) (t := closedAll contents)
    (fun _ => rfl) h
  refine ⟨n, hrun, fun k content hk => ?_⟩
  have hun := hun k
  rw [hk] at hun
  cases hnk : n k with
  | closed content' =>
    rw [hnk] at hun
    exact congrArg Handle.closed hun
  | opened _ =>
    rw [hnk] at hun
    exact hun.elim

theorem student_of_contract (hC : 0 < cacheSize) {fresh : κ → List UInt8}
    (hfresh : ∀ k, (fresh k).length = cacheSize)
    (h : p.runM (fun _ => contract cacheSize) (closedAll contents) = .ok (a, t)) :
    ∃ f, p.runM (fun k => (student cacheSize (fresh k)).request) (closedAll contents) =
        .ok (a, f) ∧ ∀ k content, t k = .closed content → f k = .closed content := by
  obtain ⟨f, hrun, htr⟩ := Client.runM_simulates (R := fun _ => Tracks cacheSize)
    (fun k => student_simulates hC (hfresh k)) p (s := closedAll contents)
    (t := closedAll contents) (fun _ => rfl) h
  refine ⟨f, hrun, fun k content hk => ?_⟩
  have htr := htr k
  rw [hk] at htr
  cases hfk : f k with
  | closed content' =>
    rw [hfk] at htr
    exact congrArg Handle.closed htr
  | opened _ =>
    rw [hfk] at htr
    exact htr.elim

end

/-- **A program that keeps the rules of the interface does the same with
both implementations**: for every cache size, whatever the files hold and
`malloc` returns, it comes to the same result, and every file it has closed
holds the same bytes. Neither implementation faults. -/
theorem client_agrees {cacheSize : Nat} (hC : 4 ≤ cacheSize) {fresh : κ → List UInt8}
    (hfresh : ∀ k, (fresh k).length = cacheSize) (p : Client κ Request Answer α)
    (contents : κ → List UInt8) {a : α} {t : κ → Handle (Naive.Io300File × Option Nat)}
    (h : p.runM (fun _ => contract cacheSize) (closedAll contents) = .ok (a, t)) :
    ∃ n f, p.runM (fun _ => naive.request) (closedAll contents) = .ok (a, n) ∧
      p.runM (fun k => (student cacheSize (fresh k)).request) (closedAll contents) = .ok (a, f) ∧
      ∀ k content, t k = .closed content → n k = .closed content ∧ f k = .closed content := by
  obtain ⟨n, hn, hnaive⟩ := naive_of_contract h
  obtain ⟨f, hf, hstudent⟩ := student_of_contract (by omega) hfresh h
  exact ⟨n, f, hn, hf, fun k content hk => ⟨hnaive k content hk, hstudent k content hk⟩⟩

/-- A character written to a new file, which holds it after the close. -/
theorem client_agrees_writec :
    let p : Client Unit Request Answer Int :=
      .ask () (.open MODE_RDWR) fun _ =>
        .ask () (.call (.writec 104)) fun _ => .ask () .close fun a => .ret a.value
    ∃ n f, p.runM (fun _ => naive.request) (closedAll fun _ => []) = .ok (0, n) ∧
      p.runM (fun _ => (student 4 [0, 0, 0, 0]).request) (closedAll fun _ => []) = .ok (0, f) ∧
      ∀ k content,
        (Handle.closed [104] : Handle (Naive.Io300File × Option Nat)) = .closed content →
          n k = .closed content ∧ f k = .closed content :=
  client_agrees (Nat.le_refl 4) (fun _ => rfl) _ (fun _ => []) (t := fun _ => .closed [104]) rfl

end SystemsProjects.FileIO
