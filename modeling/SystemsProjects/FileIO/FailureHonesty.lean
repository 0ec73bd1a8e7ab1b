/-
SystemsProjects.FileIO.FailureHonesty — what the cached file owes its
caller when system calls fail.

`LogicalFile` is what the caller may believe: the bytes its successful
writes have put together, and a head. A run is honest when every read
answers from it and, once closed, the disk holds its bytes.

`Heeded` says of one call that what it does not check went well: `flush`
and `fetch` in `io300_seek`, and the sites inside `io300_read` and
`io300_write` that `ReadHeeded` and `WriteHeeded` name. `io300_close` does
not look at its `flush` either. Under these conditions, and only system
calls that are checked failing, success is the truth
(`heeded_success_honest`). Without them it need not be: a file opened
read-only accepts a write and closes without an error.
-/
import SystemsProjects.FileIO.CalmRuns
import SystemsProjects.Base.Transducer

namespace SystemsProjects.FileIO

open SystemsProjects.Base

namespace Student

variable {cacheSize : Nat}

/-! ## One call -/

section

variable (cacheSize : Nat)

/-- The head is put inside the cached block, or the block is written back
and the one at the new head fetched. -/
def SeekHeeded (f : Io300File) (pos : Int) : Prop :=
  0 ≤ pos → ¬ (f.cachePos ≤ pos.toNat ∧ pos.toNat < f.cachePos + cacheSize) →
    MoveWorks cacheSize (seekHead cacheSize pos.toNat) f

/-- The calls whose results one call does not look at do what they
should. A write of no bytes does not lie past the end of the file, where
it would grow the file. -/
def Heeded (f : Io300File) : Call → Prop
  | .seek pos => SeekHeeded cacheSize f pos
  | .read _ sz => ReadHeeded cacheSize (f.fileSize + 1) 0 f sz
  | .readc => ReadHeeded cacheSize (f.fileSize + 1) 0 f 1
  | .write buff sz =>
    WriteHeeded cacheSize (sz + 2) f buff sz ∧ (sz = 0 → f.cachePos + f.cacheIdx ≤ f.fileSize)
  | .writec ch => WriteHeeded cacheSize 3 f [UInt8.ofInt ch] 1

end

theorem io300Seek_calm {f f' : Io300File} {pos r : Int} (hg : SeekHeeded cacheSize f pos)
    (h : io300Seek cacheSize f pos = .ok (r, f')) :
    io300Seek cacheSize f.calm pos = .ok (r, f'.calm) := by
  unfold io300Seek at h ⊢
  obtain ⟨u, hcheck, h⟩ := bind_eq_ok h
  rw [checkInvariants_calm, hcheck, ok_bind]
  split at h
  · rename_i hneg
    cases h
    rw [if_pos hneg]
    rfl
  · rename_i hpos
    rw [if_neg hpos]
    dsimp only at h ⊢
    by_cases hin : f.cachePos ≤ pos.toNat ∧ pos.toNat < f.cachePos + cacheSize
    · rw [if_pos hin] at h
      cases h
      rw [Io300File.calm_cachePos, if_pos hin]
      rfl
    · rw [if_neg hin] at h
      obtain ⟨⟨rc, f₁⟩, hflush, h⟩ := bind_eq_ok h
      obtain ⟨⟨rc', f₂⟩, hfetch, h⟩ := bind_eq_ok h
      cases h
      obtain ⟨f₁', hflush', f₂', hfetch'⟩ := hg (Int.not_lt.mp hpos) hin
      cases hflush.symm.trans hflush'
      cases hfetch.symm.trans hfetch'
      rw [Io300File.calm_cachePos, if_neg hin, flush_calm hflush, ok_bind]
      show (fetch cacheSize (Io300File.calm (seekHead cacheSize pos.toNat f₁)) >>= _) = _
      rw [fetch_calm hfetch']
      rfl

theorem io300Close_calm {f : Io300File} {rc : Int} {disk : List UInt8} (hg : FlushWorks cacheSize f)
    (h : io300Close cacheSize f = .ok (rc, disk)) :
    io300Close cacheSize f.calm = .ok (rc, disk) := by
  unfold io300Close at h ⊢
  obtain ⟨u, hcheck, h⟩ := bind_eq_ok h
  obtain ⟨⟨r, f₁⟩, hflush, h⟩ := bind_eq_ok h
  cases h
  obtain ⟨f₁', hflush'⟩ := hg
  cases hflush.symm.trans hflush'
  rw [checkInvariants_calm, hcheck, ok_bind, flush_calm hflush]
  rfl

/-- A call that gets what it needs and does not fail does what it would
do in the calm state. -/
theorem step_calm {f f' : Io300File} {call : Call} {answer : Answer} (hg : Heeded cacheSize f call)
    (hok : 0 ≤ answer.value ∨ call = .readc ∧ f.fileSize ≤ f.cachePos + f.cacheIdx)
    (h : step cacheSize f call = .ok (answer, f')) :
    step cacheSize f.calm call = .ok (answer, f'.calm) := by
  cases call with
  | seek pos =>
    obtain ⟨⟨r, f₁⟩, hseek, h⟩ := bind_eq_ok h
    cases h
    rw [step, io300Seek_calm hg hseek]
    rfl
  | read buff sz =>
    obtain ⟨⟨r, buff', f₁⟩, hread, h⟩ := bind_eq_ok h
    cases h
    have hr : 0 ≤ r := by simpa using hok
    have hcalm := readLoop_calm hg (fun _ => hr) hread
    rw [step, show io300Read cacheSize f.calm buff sz = _ from hcalm]
    rfl
  | readc =>
    obtain ⟨⟨r, f₁⟩, hreadc, h⟩ := bind_eq_ok h
    cases h
    unfold io300Readc at hreadc
    obtain ⟨u, hcheck, hreadc⟩ := bind_eq_ok hreadc
    obtain ⟨⟨res, ch, f₂⟩, hread, hreadc⟩ := bind_eq_ok hreadc
    have hres : 0 ≤ res := by
      rcases hok with hval | ⟨-, heof⟩
      · have hr := (Prod.mk.inj (Except.ok.inj hreadc)).1
        dsimp only at hval
        split at hr <;> omega
      · -- at the end of the file nothing is read
        have hnone := io300ReadLoop_succ hcheck f.fileSize [0] 1
        rw [if_pos heof] at hnone
        cases hread.symm.trans hnone
        exact Int.le_refl 0
    have hcalm := readLoop_calm hg (fun _ => hres) hread
    rw [step, io300Readc, checkInvariants_calm, hcheck, ok_bind,
      show io300Read cacheSize f.calm [0] 1 = _ from hcalm]
    cases hreadc
    rfl
  | write buff sz =>
    obtain ⟨⟨r, f₁⟩, hwrite, h⟩ := bind_eq_ok h
    cases h
    have hr : 0 ≤ r := by simpa using hok
    have hcalm := writeLoop_calm hg.1 (fun _ => hr) hwrite
    rw [step, show io300Write cacheSize f.calm buff sz = _ from hcalm]
    rfl
  | writec ch =>
    obtain ⟨⟨r, f₁⟩, hwritec, h⟩ := bind_eq_ok h
    cases h
    unfold io300Writec at hwritec
    obtain ⟨u, hcheck, hwritec⟩ := bind_eq_ok hwritec
    obtain ⟨⟨n, f₂⟩, hwrite, hwritec⟩ := bind_eq_ok hwritec
    have hn : 0 ≤ n := by
      have hval : 0 ≤ r := by simpa using hok
      have hr := (Prod.mk.inj (Except.ok.inj hwritec)).1
      split at hr <;> omega
    have hcalm := writeLoop_calm hg (fun _ => hn) hwrite
    rw [step, io300Writec, checkInvariants_calm, hcheck, ok_bind]
    dsimp only
    rw [show io300Write cacheSize f.calm [UInt8.ofInt ch] 1 = _ from hcalm]
    cases hwritec
    rfl

/-! ## Opening -/

/-- The state in which `io300_open` fetches the first block. -/
def opening (cacheSize : Nat) (fd : OsFile) (fresh : List UInt8) : Io300File :=
  { fd := (fd.lseekEnd.2.lseekSet 0).2, cache := fresh, cachePos := 0, cacheIdx := 0,
    cacheValid := min fd.lseekEnd.1.toNat cacheSize, isDirty := false,
    fileSize := fd.lseekEnd.1.toNat }

/-- The first block is read whole, or `io300_open` says that it was not. -/
def OpenHeeded (cacheSize mode : Nat) (content : List UInt8) (script : List Outcome)
    (fresh : List UInt8) : Prop :=
  ∀ fd, osOpen mode content script = some fd → FetchHonest cacheSize (opening cacheSize fd fresh)

/-- What the file holds once it is open. -/
def opened (mode : Nat) (content : List UInt8) : List UInt8 :=
  if mode = MODE_WRITE then [] else content

/-- The calm state of a file just opened, read-only or not, is that of a
file opened for writing. -/
theorem osOpen_calm {mode : Nat} {content : List UInt8} {script : List Outcome} {fd : OsFile}
    (h : osOpen mode content script = some fd) :
    fd.calm = ⟨opened mode content, 0, true, []⟩ ∧
      osOpen MODE_RDWR (opened mode content) [] = some fd.calm := by
  unfold osOpen at h
  split at h
  · rename_i hmode
    cases h
    subst hmode
    exact ⟨rfl, rfl⟩
  · split at h
    · rename_i hmode
      cases h
      subst hmode
      exact ⟨rfl, rfl⟩
    · split at h
      · rename_i hmode
        cases h
        subst hmode
        exact ⟨rfl, rfl⟩
      · cases h

theorem io300Open_calm {mode : Nat} {content fresh : List UInt8} {script : List Outcome}
    {f : Io300File} (hg : OpenHeeded cacheSize mode content script fresh)
    (h : io300Open cacheSize mode content script fresh = .ok (some f)) :
    io300Open cacheSize MODE_RDWR (opened mode content) [] fresh = .ok (some f.calm) := by
  unfold io300Open at h ⊢
  cases hopen : osOpen mode content script with
  | none =>
    rw [hopen] at h
    cases h
  | some fd =>
    rw [hopen] at h
    obtain ⟨hcalm, hopen'⟩ := osOpen_calm hopen
    rw [hopen']
    dsimp only at h ⊢
    split at h
    · cases h
    rename_i hend
    rw [OsFile.lseekEnd_calm (Int.not_lt.mp hend)]
    dsimp only
    rw [if_neg hend]
    split at h
    · cases h
    rename_i hset
    rw [OsFile.lseekSet_calm (Int.not_lt.mp hset)]
    dsimp only
    rw [if_neg hset]
    obtain ⟨⟨res, f₁⟩, hfetch, h⟩ := bind_eq_ok h
    dsimp only at h
    split at h
    · cases h
    rename_i hres
    rcases hg fd hopen res f₁ hfetch with hneg | hwhole
    · exact absurd hneg hres
    have hcalm' : fetch cacheSize (opening cacheSize fd fresh).calm = .ok (res, f₁.calm) := by
      rw [hwhole] at hfetch ⊢
      exact fetch_calm hfetch
    show (fetch cacheSize (opening cacheSize fd fresh).calm >>= _) = _
    rw [hcalm', ok_bind]
    dsimp only
    rw [if_neg hres]
    obtain ⟨u, hcheck, h⟩ := bind_eq_ok h
    cases h
    split at hcheck
    · rename_i hshort
      rw [if_pos hshort, if_pos hshort]
      show (checkInvariants cacheSize
        (Io300File.calm { f₁ with cacheValid := res.toNat }) >>= _) = _
      rw [checkInvariants_calm, hcheck]
      rfl
    · rename_i hshort
      rw [if_neg hshort, if_neg hshort, checkInvariants_calm, hcheck]
      rfl

/-! ## Writing nothing -/

/-- Inside the file, with the head inside its block, nothing changes. -/
theorem io300Write_nothing {f : Io300File} (hcheck : checkInvariants cacheSize f = .ok ())
    (hidx : f.cacheIdx < cacheSize)
    (hin : f.cachePos + f.cacheIdx ≤ f.fileSize) (buff : List UInt8) :
    io300Write cacheSize f buff 0 = .ok (0, f) := by
  have hgrow : growFile f 0 = f := by
    rw [growFile_spec, Nat.max_eq_left (by omega)]
  have hmove : moveHead cacheSize f 0 = .ok f := by
    rw [moveHead, if_neg (by omega)]
    rfl
  rw [io300Write, io300WriteLoop, hcheck, ok_bind, fillHole_none hin, ok_bind]
  dsimp only
  rw [if_neg (Int.lt_irrefl 0), subSize_of_le (Nat.le_of_lt hidx), ok_bind, Nat.zero_min]
  rw [cacheWrite, if_neg (Nat.lt_irrefl 0), pure_eq_ok, ok_bind, hgrow, hmove]
  rfl

theorem io300Write_zero {f : Io300File} {D : List UInt8} (h : Coherent cacheSize f D)
    (hin : f.cachePos + f.cacheIdx ≤ f.fileSize) (buff : List UInt8) :
    io300Write cacheSize f buff 0 = .ok (0, f) :=
  io300Write_nothing h.toCaches.check h.idxLt hin buff

end Student

/-! ## The logical file -/

/-- The file as a caller may imagine it. -/
structure LogicalFile where
  bytes : List UInt8
  head : Nat
  deriving DecidableEq, Repr

/-- The caller's buffers hold what is asked of them. -/
def Call.Fits : Call → Prop
  | .read buff sz => sz ≤ buff.length
  | .write buff sz => sz ≤ buff.length
  | _ => True

namespace LogicalFile

/-- The call did not report a failure. The -1 of `io300_readc` at the end
of the file reports the end. -/
def Succeeds (l : LogicalFile) (call : Call) (answer : Answer) : Prop :=
  0 ≤ answer.value ∨ call = .readc ∧ l.bytes.length ≤ l.head

/-- What the answer to a call tells the caller: writes change the bytes,
and every call may move the head. -/
def after (l : LogicalFile) (call : Call) (answer : Answer) : LogicalFile :=
  match call with
  | .seek pos => { l with head := pos.toNat }
  | .read _ _ => { l with head := l.head + answer.value.toNat }
  | .readc => if answer.value < 0 then l else { l with head := l.head + 1 }
  | .write buff _ =>
    ⟨overwrite 0 l.bytes l.head (buff.take answer.value.toNat), l.head + answer.value.toNat⟩
  | .writec ch => ⟨overwrite 0 l.bytes l.head [UInt8.ofInt ch], l.head + 1⟩

/-- A call that reported success. -/
def Reports (l : LogicalFile) (call : Call) (answer : Answer) (l' : LogicalFile) : Prop :=
  l.Succeeds call answer ∧ l' = l.after call answer

/-- A read returned the bytes of the file. -/
def ReadsFrom (l : LogicalFile) : Call → Answer → Prop
  | .read buff sz, answer =>
    answer = ⟨(slice l.bytes l.head sz).length, Naive.fill buff (slice l.bytes l.head sz)⟩
  | .readc, answer => answer.value = (l.bytes[l.head]?.map fun b => (b.toNat : Int)).getD (-1)
  | _, _ => True

/-- A call that reported success and told the truth. -/
def Honest (l : LogicalFile) (call : Call) (answer : Answer) (l' : LogicalFile) : Prop :=
  l.ReadsFrom call answer ∧ l.Reports call answer l'

end LogicalFile

/-! ## Honesty -/

/-- The cached file, under calls that all succeed, holds the logical one. -/
structure Holds (cacheSize : Nat) (f : Student.Io300File) (l : LogicalFile) : Prop where
  coherent : Student.Coherent cacheSize f.calm l.bytes
  head : f.cachePos + f.cacheIdx = l.head

section

variable {cacheSize : Nat} {f f' : Student.Io300File} {l : LogicalFile} {answer : Answer}

theorem Holds.size (h : Holds cacheSize f l) : f.fileSize = l.bytes.length := h.coherent.size

theorem Holds.of_calm {f₁ : Student.Io300File} {a : Answer} (l' : LogicalFile)
    (hcalm : Except.ok (ε := Student.Fault) (a, f₁) = .ok (answer, f'.calm))
    (hco : Student.Coherent cacheSize f₁ l'.bytes) (hhead : f₁.cachePos + f₁.cacheIdx = l'.head) :
    answer = a ∧ Holds cacheSize f' l' := by
  obtain ⟨ha, hf⟩ := Prod.mk.inj (Except.ok.inj hcalm)
  rw [hf] at hco hhead
  exact ⟨ha.symm, hco, hhead⟩

theorem Holds.seek (hC : 0 < cacheSize) (h : Holds cacheSize f l) {pos : Int}
    (hok : l.Succeeds (.seek pos) answer)
    (hcalm : Student.step cacheSize f.calm (.seek pos) = .ok (answer, f'.calm)) :
    Holds cacheSize f' (l.after (.seek pos) answer) := by
  have hpos : 0 ≤ pos := by
    by_contra hneg
    rw [Student.step, Student.io300Seek_neg h.coherent (Int.not_le.mp hneg)] at hcalm
    have hval : (⟨-1, []⟩ : Answer) = answer := (Prod.mk.inj (Except.ok.inj hcalm)).1
    rw [← hval] at hok
    simp [LogicalFile.Succeeds] at hok
  obtain ⟨p, rfl⟩ := Int.eq_ofNat_of_zero_le hpos
  obtain ⟨f₁, hseek, hco₁, hhead₁⟩ := Student.io300Seek_spec hC h.coherent p
  rw [Student.step, hseek] at hcalm
  exact (Holds.of_calm ⟨l.bytes, p⟩ hcalm hco₁ hhead₁).2

theorem Holds.read (hC : 0 < cacheSize) (h : Holds cacheSize f l) {buff : List UInt8} {sz : Nat}
    (hfits : sz ≤ buff.length)
    (hcalm : Student.step cacheSize f.calm (.read buff sz) = .ok (answer, f'.calm)) :
    l.ReadsFrom (.read buff sz) answer ∧ Holds cacheSize f' (l.after (.read buff sz) answer) := by
  have hhead : f.calm.cachePos + f.calm.cacheIdx = l.head := h.head
  obtain ⟨f₁, hread, hco₁, hhead₁⟩ := Student.io300Read_spec hC h.coherent hfits
  rw [hhead] at hread hhead₁
  rw [Student.step, hread] at hcalm
  obtain ⟨rfl, hholds⟩ := Holds.of_calm ⟨l.bytes, l.head + (slice l.bytes l.head sz).length⟩ hcalm
    hco₁ hhead₁
  exact ⟨rfl, hholds⟩

theorem Holds.readc (hC : 0 < cacheSize) (h : Holds cacheSize f l)
    (hcalm : Student.step cacheSize f.calm .readc = .ok (answer, f'.calm)) :
    l.ReadsFrom .readc answer ∧ Holds cacheSize f' (l.after .readc answer) := by
  have hhead : f.calm.cachePos + f.calm.cacheIdx = l.head := h.head
  obtain ⟨f₁, hread, hco₁, hhead₁⟩ :=
    Student.io300Read_spec hC h.coherent (show 1 ≤ ([0] : List UInt8).length from Nat.le_refl 1)
  rw [hhead] at hread hhead₁
  rw [Student.step, Student.io300Readc, h.coherent.toCaches.check, ok_bind, hread] at hcalm
  have hslice : slice l.bytes l.head 1 = l.bytes[l.head]?.toList := by
    apply List.ext_getElem?
    intro i
    rw [getElem?_slice]
    cases hbyte : l.bytes[l.head]? <;> cases i <;> simp_all
  rw [hslice] at hcalm hhead₁
  cases hbyte : l.bytes[l.head]? with
  | none =>
    rw [hbyte] at hcalm hhead₁
    obtain ⟨rfl, hholds⟩ := Holds.of_calm ⟨l.bytes, l.head⟩ hcalm hco₁ hhead₁
    exact ⟨by rw [LogicalFile.ReadsFrom, hbyte]; rfl, hholds⟩
  | some b =>
    rw [hbyte] at hcalm hhead₁
    obtain ⟨rfl, hholds⟩ := Holds.of_calm ⟨l.bytes, l.head + 1⟩ hcalm hco₁ hhead₁
    refine ⟨by rw [LogicalFile.ReadsFrom, hbyte]; rfl, ?_⟩
    rw [LogicalFile.after, if_neg (by simp)]
    exact hholds

theorem Holds.write (hC : 0 < cacheSize) (h : Holds cacheSize f l) {buff : List UInt8} {sz : Nat}
    (hfits : sz ≤ buff.length) (hzero : sz = 0 → f.cachePos + f.cacheIdx ≤ f.fileSize)
    (hcalm : Student.step cacheSize f.calm (.write buff sz) = .ok (answer, f'.calm)) :
    Holds cacheSize f' (l.after (.write buff sz) answer) := by
  have hhead : f.calm.cachePos + f.calm.cacheIdx = l.head := h.head
  rcases Nat.eq_zero_or_pos sz with rfl | hpos
  · -- nothing is written
    rw [Student.step, Student.io300Write_zero h.coherent (hzero rfl)] at hcalm
    obtain ⟨rfl, hholds⟩ := Holds.of_calm l hcalm h.coherent hhead
    simpa [LogicalFile.after] using hholds
  · obtain ⟨f₁, hwrite, hco₁, hhead₁⟩ := Student.io300Write_spec hC h.coherent hpos hfits
    rw [hhead] at hco₁ hhead₁
    rw [Student.step, hwrite] at hcalm
    obtain ⟨rfl, hholds⟩ := Holds.of_calm ⟨overwrite 0 l.bytes l.head (buff.take sz), l.head + sz⟩
      hcalm hco₁ hhead₁
    exact hholds

theorem Holds.writec (hC : 0 < cacheSize) (h : Holds cacheSize f l) {ch : Int}
    (hcalm : Student.step cacheSize f.calm (.writec ch) = .ok (answer, f'.calm)) :
    Holds cacheSize f' (l.after (.writec ch) answer) := by
  have hhead : f.calm.cachePos + f.calm.cacheIdx = l.head := h.head
  obtain ⟨f₁, hwrite, hco₁, hhead₁⟩ :=
    Student.io300Write_spec hC h.coherent (Nat.le_refl 1)
      (show 1 ≤ [UInt8.ofInt ch].length from Nat.le_refl 1)
  rw [hhead] at hco₁ hhead₁
  rw [Student.step, Student.io300Writec, h.coherent.toCaches.check, ok_bind] at hcalm
  dsimp only at hcalm
  rw [hwrite] at hcalm
  exact (Holds.of_calm ⟨overwrite 0 l.bytes l.head [UInt8.ofInt ch], l.head + 1⟩ hcalm hco₁
    hhead₁).2

/-- A call that gets what it needs and reports success tells the truth. -/
theorem Holds.step (hC : 0 < cacheSize) {l' : LogicalFile} {call : Call} (h : Holds cacheSize f l)
    (hfits : call.Fits) (hg : Student.Heeded cacheSize f call)
    (hrep : l.Reports call answer l') (hstep : Student.step cacheSize f call = .ok (answer, f')) :
    l.Honest call answer l' ∧ Holds cacheSize f' l' := by
  obtain ⟨hok, rfl⟩ := hrep
  have hcalm := Student.step_calm hg (by
    rcases hok with hval | ⟨hreadc, heof⟩
    · exact Or.inl hval
    · exact Or.inr ⟨hreadc, by rw [h.size, h.head]; exact heof⟩) hstep
  cases call with
  | seek pos => exact ⟨⟨trivial, hok, rfl⟩, h.seek hC hok hcalm⟩
  | read buff sz =>
    obtain ⟨hreads, hholds⟩ := h.read hC hfits hcalm
    exact ⟨⟨hreads, hok, rfl⟩, hholds⟩
  | readc =>
    obtain ⟨hreads, hholds⟩ := h.readc hC hcalm
    exact ⟨⟨hreads, hok, rfl⟩, hholds⟩
  | write buff sz => exact ⟨⟨trivial, hok, rfl⟩, h.write hC hfits hg.2 hcalm⟩
  | writec ch => exact ⟨⟨trivial, hok, rfl⟩, h.writec hC hcalm⟩

end

/-! ## Runs -/

/-- Every call of a run finds what it needs. -/
def Student.RunHeeded (cacheSize : Nat) : Student.Io300File → List Call → Prop
  | _, [] => True
  | f, call :: calls =>
    Student.Heeded cacheSize f call ∧
      ∀ answer f', Student.step cacheSize f call = .ok (answer, f') →
        RunHeeded cacheSize f' calls

theorem Holds.run {cacheSize : Nat} (hC : 0 < cacheSize) {f f' : Student.Io300File}
    {l l' : LogicalFile} {calls : List Call} {answers : List Answer} (h : Holds cacheSize f l)
    (hfits : ∀ c ∈ calls, c.Fits) (hg : Student.RunHeeded cacheSize f calls)
    (hrep : Trace LogicalFile.Reports l calls answers l')
    (hrun : runM (Student.step cacheSize) f calls = .ok (answers, f')) :
    Trace LogicalFile.Honest l calls answers l' ∧ Holds cacheSize f' l' := by
  induction hrep generalizing f with
  | nil l =>
    cases hrun
    exact ⟨.nil l, h⟩
  | @cons l l₁ l' call answer calls answers hcall hcalls ih =>
    rw [runM] at hrun
    cases hstep : Student.step cacheSize f call with
    | error e =>
      rw [hstep] at hrun
      cases hrun
    | ok result =>
      obtain ⟨answer', f₁⟩ := result
      rw [hstep] at hrun
      dsimp only at hrun
      cases hrest : runM (Student.step cacheSize) f₁ calls with
      | error e =>
        rw [hrest] at hrun
        cases hrun
      | ok result =>
        obtain ⟨answers', f₂⟩ := result
        rw [hrest] at hrun
        cases hrun
        obtain ⟨hhonest, h₁⟩ :=
          h.step hC (hfits call List.mem_cons_self) hg.1 hcall hstep
        obtain ⟨htrace, hend⟩ := ih h₁ (fun c hc => hfits c (List.mem_cons_of_mem call hc))
          (hg.2 answer f₁ hstep) hrest
        exact ⟨.cons hhonest htrace, hend⟩

/-- **Success is the truth as long as what is not checked goes well**: in
every run, in every mode of `io300_open`, under every pattern of failing
and short system calls, if each call finds what it needs without looking
and every call reports success, `io300_close` included, then every read
returned the bytes of the logical file, and the disk holds them at the
end. -/
theorem heeded_success_honest {cacheSize : Nat} (hC : 0 < cacheSize) {mode : Nat}
    {content fresh disk : List UInt8} {script : List Outcome} {calls : List Call}
    {answers : List Answer} {f f' : Student.Io300File} {l : LogicalFile} {rc : Int}
    (hfresh : fresh.length = cacheSize) (hfits : ∀ c ∈ calls, c.Fits)
    (hopenHeeded : Student.OpenHeeded cacheSize mode content script fresh)
    (hrunHeeded : Student.RunHeeded cacheSize f calls)
    (hcloseHeeded : Student.FlushWorks cacheSize f')
    (hopen : Student.io300Open cacheSize mode content script fresh = .ok (some f))
    (hrun : runM (Student.step cacheSize) f calls = .ok (answers, f'))
    (hclose : Student.io300Close cacheSize f' = .ok (rc, disk))
    (hsuccess : Trace LogicalFile.Reports ⟨Student.opened mode content, 0⟩ calls answers l) :
    Trace LogicalFile.Honest ⟨Student.opened mode content, 0⟩ calls answers l ∧ disk = l.bytes := by
  have hcalm := Student.io300Open_calm hopenHeeded hopen
  obtain ⟨f₀, hopen₀, hco₀, hhead₀⟩ := Student.io300Open_spec hC hfresh
    (show osOpen MODE_RDWR (Student.opened mode content) [] =
      some ⟨Student.opened mode content, 0, true, []⟩ from rfl) rfl rfl
  cases hopen₀.symm.trans hcalm
  have hholds : Holds cacheSize f ⟨Student.opened mode content, 0⟩ := ⟨hco₀, hhead₀⟩
  obtain ⟨hhonest, hend⟩ := hholds.run hC hfits hrunHeeded hsuccess hrun
  have hclosed := Student.io300Close_calm hcloseHeeded hclose
  cases (Student.io300Close_spec hend.coherent.toCaches).symm.trans hclosed
  exact ⟨hhonest, rfl⟩

/-- One byte overwritten, and put on disk by two writes. -/
theorem heeded_success_honest_short :
    ∃ f f' l, Student.io300Open 8 MODE_RDWR [7, 8] [.full, .full, .full, .full, .full, .short 1]
        (List.replicate 8 0) = .ok (some f) ∧
      runM (Student.step 8) f [.writec 65] = .ok ([⟨65, []⟩], f') ∧
      Student.io300Close 8 f' = .ok (0, [65, 8]) ∧
      Trace LogicalFile.Honest ⟨[7, 8], 0⟩ [.writec 65] [⟨65, []⟩] l ∧ [65, 8] = l.bytes := by
  let f : Student.Io300File :=
    ⟨⟨[7, 8], 2, true, [.full, .short 1]⟩, [7, 8, 0, 0, 0, 0, 0, 0], 0, 0, 2, false, 2⟩
  let f' : Student.Io300File :=
    ⟨⟨[7, 8], 2, true, [.full, .short 1]⟩, [65, 8, 0, 0, 0, 0, 0, 0], 0, 1, 2, true, 2⟩
  have hopen : Student.io300Open 8 MODE_RDWR [7, 8] [.full, .full, .full, .full, .full, .short 1]
      (List.replicate 8 0) = .ok (some f) := rfl
  have hrun : runM (Student.step 8) f [.writec 65] = .ok ([⟨65, []⟩], f') := rfl
  have hclose : Student.io300Close 8 f' = .ok (0, [65, 8]) := rfl
  have hopenHeeded : Student.OpenHeeded 8 MODE_RDWR [7, 8]
      [.full, .full, .full, .full, .full, .short 1] (List.replicate 8 0) := by
    intro fd hfd r f₁ hfetch
    cases hfd
    have hwhole : Student.fetch 8 (Student.opening 8
        ⟨[7, 8], 0, true, [.full, .full, .full, .full, .full, .short 1]⟩ (List.replicate 8 0)) =
        .ok (2, f) := rfl
    cases hwhole.symm.trans hfetch
    exact Or.inr rfl
  have hrunHeeded : Student.RunHeeded 8 f [.writec 65] := by
    refine ⟨⟨fun hhole => absurd hhole (by decide), fun f₁ hfill f₂ hwrite => ?_⟩,
      fun _ _ _ => trivial⟩
    have hnone : Student.fillHole f = .ok (0, f) := rfl
    cases hnone.symm.trans hfill
    have hcache : Student.cacheWrite f [65] 1 = .ok { f' with cacheIdx := 0 } := rfl
    cases hcache.symm.trans hwrite
    exact ⟨fun hfull => absurd hfull (by decide), fun hmore => absurd rfl hmore⟩
  have hcloseHeeded : Student.FlushWorks 8 f' := ⟨_, rfl⟩
  exact ⟨f, f', ⟨[65, 8], 1⟩, hopen, hrun, hclose,
    heeded_success_honest (by decide) rfl (by simp [Call.Fits]) hopenHeeded hrunHeeded hcloseHeeded
      hopen hrun hclose (.cons ⟨Or.inl (by decide), rfl⟩ (.nil _))⟩

/-- A file opened read-only takes a write and loses it: every call
succeeds, and the byte is not on disk. -/
theorem readonly_write_lost :
    ∃ f f' l, Student.io300Open 8 MODE_READ [] [] (List.replicate 8 0) = .ok (some f) ∧
      runM (Student.step 8) f [.writec 65] = .ok ([⟨65, []⟩], f') ∧
      Student.io300Close 8 f' = .ok (0, []) ∧
      Trace LogicalFile.Reports ⟨[], 0⟩ [.writec 65] [⟨65, []⟩] l ∧ [] ≠ l.bytes :=
  ⟨⟨⟨[], 0, false, []⟩, List.replicate 8 0, 0, 0, 0, false, 0⟩,
    ⟨⟨[], 0, false, []⟩, 65 :: List.replicate 7 0, 0, 1, 1, true, 1⟩, ⟨[65], 1⟩, rfl, rfl, rfl,
    .cons ⟨Or.inl (by decide), rfl⟩ (.nil _), by decide⟩

end SystemsProjects.FileIO
