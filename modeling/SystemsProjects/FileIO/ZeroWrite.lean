/-
SystemsProjects.FileIO.ZeroWrite — writing nothing to a cached file.

`io300_write` fills the hole between the end of the file and the head, and
moves the end there, before it looks at the length. At or before the end a
write of nothing is nothing, as in naive.c; past the end it makes the file
longer (`write_zero_iff`).

`Working` is what a run keeps in which no system call fails: the head is
inside its block, since only a failed `flush` leaves it at the end.
-/
import SystemsProjects.FileIO.FileSize
import SystemsProjects.FileIO.MemorySafety

namespace SystemsProjects.FileIO

open SystemsProjects.Base

/-! ## System calls that do not fail -/

namespace OsFile

/-- No call to come fails, or moves nothing at all. -/
def Willing (k : OsFile) : Prop := ∀ o ∈ k.script, o ≠ .fail ∧ o ≠ .short 0

variable {k : OsFile}

theorem next_writable (k : OsFile) : k.next.2.writable = k.writable := by
  unfold next
  split <;> rfl

theorem Willing.next (h : k.Willing) :
    k.next.1 ≠ .fail ∧ k.next.1 ≠ .short 0 ∧ k.next.2.Willing := by
  unfold OsFile.next
  split
  · exact ⟨by simp, by simp, h⟩
  · next o os hs =>
    rw [Willing, hs] at h
    exact ⟨(h o List.mem_cons_self).1, (h o List.mem_cons_self).2,
      fun o' ho' => h o' (List.mem_cons_of_mem o ho')⟩

/-- What a call leaves of the description. -/
structure Kept (k k' : OsFile) : Prop where
  willing : k'.Willing
  writable : k'.writable = k.writable

theorem Kept.trans {k₁ k₂ k₃ : OsFile} (h : Kept k₁ k₂) (h' : Kept k₂ k₃) : Kept k₁ k₃ :=
  ⟨h'.willing, h'.writable.trans h.writable⟩

theorem Willing.kept (h : k.Willing) : Kept k k := ⟨h, rfl⟩

theorem Willing.lseekSet (h : k.Willing) (off : Nat) :
    0 ≤ (k.lseekSet off).1 ∧ Kept k (k.lseekSet off).2 := by
  obtain ⟨hfail, -, hnext⟩ := h.next
  have hw := next_writable k
  unfold OsFile.lseekSet
  split
  · next k' heq => exact absurd (congrArg Prod.fst heq) hfail
  · next o k' _ heq =>
    rw [heq] at hnext hw
    rw [if_neg (Int.not_lt.mpr (Int.natCast_nonneg off))]
    exact ⟨Int.natCast_nonneg off, hnext, hw⟩

theorem Willing.lseekEnd (h : k.Willing) : Kept k k.lseekEnd.2 := by
  have hnext := h.next.2.2
  have hw := next_writable k
  unfold OsFile.lseekEnd
  split
  · next k' heq =>
    rw [heq] at hnext hw
    exact ⟨hnext, hw⟩
  · next o k' _ heq =>
    rw [heq] at hnext hw
    exact ⟨hnext, hw⟩

theorem Willing.fstat (h : k.Willing) : Kept k k.fstat.2 := by
  have hnext := h.next.2.2
  have hw := next_writable k
  unfold OsFile.fstat
  split
  · next k' heq =>
    rw [heq] at hnext hw
    exact ⟨hnext, hw⟩
  · next o k' _ heq =>
    rw [heq] at hnext hw
    exact ⟨hnext, hw⟩

theorem Willing.read (h : k.Willing) (n : Nat) :
    0 ≤ (k.read n).1 ∧ Kept k (k.read n).2.2 := by
  obtain ⟨hfail, -, hnext⟩ := h.next
  have hw := next_writable k
  rw [OsFile.read]
  dsimp only
  split
  · next htransfer =>
    cases ho : k.next.1 with
    | fail => exact absurd ho hfail
    | full =>
      rw [ho] at htransfer
      cases htransfer
    | short m =>
      rw [ho] at htransfer
      cases htransfer
  · exact ⟨Int.natCast_nonneg _, hnext, hw⟩

theorem Willing.write (h : k.Willing) (data : List UInt8) : Kept k (k.write data).2 := by
  obtain ⟨-, -, hnext⟩ := h.next
  have hw := next_writable k
  rw [OsFile.write]
  dsimp only
  split
  · exact ⟨hnext, hw⟩
  · exact ⟨hnext, hw⟩

/-- Data that is written moves. -/
theorem Willing.write_pos (h : k.Willing) (hw : k.writable = true) {data : List UInt8}
    (hdata : 0 < data.length) : 0 < (k.write data).1 := by
  obtain ⟨hfail, hzero, -⟩ := h.next
  rw [OsFile.write]
  dsimp only
  rw [next_writable, hw]
  cases ho : k.next.1 with
  | fail => exact absurd ho hfail
  | full => exact Int.natCast_pos.mpr hdata
  | short m =>
    rw [ho] at hzero
    have hm : m ≠ 0 := fun hm => hzero (hm ▸ rfl)
    exact Int.natCast_pos.mpr (by omega)

end OsFile

namespace Student

variable {cacheSize : Nat} {f f' : Io300File}

/-! ## Runs without failures -/

/-- What is dirty can be written. -/
structure Orderly (f : Io300File) : Prop where
  willing : f.fd.Willing
  dirty : f.isDirty = true → f.fd.writable = true

/-- Orderly, and the head is inside its block. -/
structure Working (cacheSize : Nat) (f : Io300File) : Prop extends Orderly f where
  idx : f.cacheIdx < cacheSize

theorem flushLoop_working {fuel count : Nat} {r : Int} (h : flushLoop fuel f count = .ok (r, f'))
    (hf : f.fd.Willing) (hw : f.fd.writable = true) :
    r = 0 ∧ f.fd.Kept f'.fd ∧ f'.isDirty = false := by
  induction fuel generalizing f count with
  | zero => cases h
  | succ fuel ih =>
    rw [flushLoop] at h
    split at h
    · next hlt =>
      obtain ⟨n, hn, h⟩ := bind_eq_ok h
      obtain ⟨-, rfl⟩ := subSize_eq_ok hn
      obtain ⟨data, hdata, h⟩ := bind_eq_ok h
      obtain ⟨hle, rfl⟩ := load_eq_ok hdata
      have hpos : 0 < (slice f.cache count (f.cacheValid - count)).length := by
        rw [length_slice_of_le hle]
        omega
      have hkept := hf.write (slice f.cache count (f.cacheValid - count))
      dsimp only at h
      rw [if_neg (Int.not_le.mpr (hf.write_pos hw hpos))] at h
      obtain ⟨hr, hkept', hclean⟩ := ih h hkept.willing (hkept.writable.trans hw)
      exact ⟨hr, hkept.trans hkept', hclean⟩
    · cases h
      exact ⟨rfl, hf.kept, rfl⟩

theorem flush_working {r : Int} (h : flush cacheSize f = .ok (r, f')) (ho : Orderly f) : r = 0 ∧
    f.fd.Kept f'.fd ∧ f'.isDirty = false := by
  unfold flush at h
  obtain ⟨u, -, h⟩ := bind_eq_ok h
  split at h
  · next hclean =>
    cases h
    exact ⟨rfl, ho.willing.kept, hclean⟩
  · next hdirty =>
    obtain ⟨hoff, hkept⟩ := ho.willing.lseekSet f.cachePos
    have hw := ho.dirty (by simpa using hdirty)
    dsimp only at h
    rw [if_neg (Int.not_lt.mpr hoff)] at h
    obtain ⟨hr, hkept', hclean⟩ := flushLoop_working h hkept.willing (hkept.writable.trans hw)
    exact ⟨hr, hkept.trans hkept', hclean⟩

theorem fetch_working {r : Int} (h : fetch cacheSize f = .ok (r, f')) (hf : f.fd.Willing) :
    f.fd.Kept f'.fd ∧ f'.isDirty = f.isDirty := by
  unfold fetch at h
  obtain ⟨u, -, h⟩ := bind_eq_ok h
  split at h
  · cases h
    exact ⟨hf.kept, rfl⟩
  · obtain ⟨-, hkept⟩ := hf.lseekSet f.cachePos
    obtain ⟨-, hkept'⟩ := hkept.willing.read cacheSize
    dsimp only at h
    split at h
    · cases h
      exact ⟨hkept, rfl⟩
    · split at h
      · cases h
        exact ⟨hkept.trans hkept', rfl⟩
      · obtain ⟨cache, -, h⟩ := bind_eq_ok h
        cases h
        exact ⟨hkept.trans hkept', rfl⟩

/-- The next block is reached. -/
theorem nextBlock_working {r : Int} (h : nextBlock cacheSize f = .ok (r, f')) (hC : 0 < cacheSize)
    (ho : Orderly f) : Working cacheSize f' ∧ f.fd.Kept f'.fd := by
  unfold nextBlock at h
  obtain ⟨⟨flushRes, f₁⟩, hflush, h⟩ := bind_eq_ok h
  obtain ⟨rfl, hkept, hclean⟩ := flush_working hflush ho
  dsimp only at h
  rw [if_neg (Int.lt_irrefl 0)] at h
  obtain ⟨⟨fetchRes, f₂⟩, hfetch, h⟩ := bind_eq_ok h
  cases h
  obtain ⟨hkept', hdirty⟩ := fetch_working hfetch hkept.willing
  have hidx := (fetch_frame hfetch).2.1
  refine ⟨⟨⟨hkept'.willing, fun hd => ?_⟩, ?_⟩, hkept.trans hkept'⟩
  · rw [hdirty, hclean] at hd
    cases hd
  · rw [hidx]
    exact hC

theorem io300ReadLoop_working {fuel sz : Nat} {buff buff' : List UInt8} {n : Int}
    (hC : 0 < cacheSize)
    (hw : Working cacheSize f) (h : io300ReadLoop cacheSize fuel f buff sz = .ok (n, buff', f')) :
    Working cacheSize f' ∧ f.fd.Kept f'.fd := by
  induction fuel generalizing f buff buff' sz n with
  | zero => cases h
  | succ fuel ih =>
    rw [io300ReadLoop] at h
    obtain ⟨u, -, h⟩ := bind_eq_ok h
    split at h
    · cases h
      exact ⟨hw, hw.willing.kept⟩
    · obtain ⟨room, hroom, h⟩ := bind_eq_ok h
      obtain ⟨-, rfl⟩ := subSize_eq_ok hroom
      dsimp only at h
      generalize hn : min sz (min (cacheSize - f.cacheIdx)
        (if f.cacheIdx < f.cacheValid then f.cacheValid - f.cacheIdx else 0)) = readable at h
      obtain ⟨data, -, h⟩ := bind_eq_ok h
      obtain ⟨buff₁, -, h⟩ := bind_eq_ok h
      have hidx := hw.idx
      split at h
      · split at h
        · obtain ⟨⟨rc, f₁⟩, hnext, h⟩ := bind_eq_ok h
          cases h
          have hmoved : Orderly { f with cacheIdx := f.cacheIdx + readable } :=
            ⟨hw.willing, hw.dirty⟩
          have hnext' := nextBlock_working hnext hC hmoved
          exact hnext'
        · next hne =>
          cases h
          refine ⟨⟨⟨hw.willing, hw.dirty⟩, ?_⟩, hw.willing.kept⟩
          dsimp only at hne ⊢
          omega
      · obtain ⟨⟨rc, f₁⟩, hnext, h⟩ := bind_eq_ok h
        obtain ⟨hw₁, hkept⟩ := nextBlock_working hnext hC hw.toOrderly
        dsimp only at h
        split at h
        · cases h
          exact ⟨hw₁, hkept⟩
        · obtain ⟨rest, -, h⟩ := bind_eq_ok h
          obtain ⟨⟨n', tail, f₂⟩, hloop, h⟩ := bind_eq_ok h
          cases h
          obtain ⟨hw₂, hkept'⟩ := ih hw₁ hloop
          exact ⟨hw₂, hkept.trans hkept'⟩

theorem io300Seek_working {pos r : Int} (hC : 0 < cacheSize) (hw : Working cacheSize f)
    (h : io300Seek cacheSize f pos = .ok (r, f')) : Working cacheSize f' ∧ f.fd.Kept f'.fd := by
  unfold io300Seek at h
  obtain ⟨u, -, h⟩ := bind_eq_ok h
  split at h
  · cases h
    exact ⟨hw, hw.willing.kept⟩
  · dsimp only at h
    split at h
    · next hin =>
      cases h
      refine ⟨⟨⟨hw.willing, hw.dirty⟩, ?_⟩, hw.willing.kept⟩
      dsimp only
      omega
    · obtain ⟨⟨flushRes, f₁⟩, hflush, h⟩ := bind_eq_ok h
      obtain ⟨-, hkept, hclean⟩ := flush_working hflush hw.toOrderly
      obtain ⟨⟨fetchRes, f₂⟩, hfetch, h⟩ := bind_eq_ok h
      cases h
      obtain ⟨hkept', hdirty⟩ := fetch_working hfetch hkept.willing
      have hidx := (fetch_frame hfetch).2.1
      refine ⟨⟨⟨hkept'.willing, fun hd => ?_⟩, ?_⟩, hkept.trans hkept'⟩
      · rw [hdirty, hclean] at hd
        cases hd
      · rw [hidx]
        exact Nat.mod_lt _ hC

/-! Writing needs a descriptor that may write. -/

theorem fillCache_frame (h : fillCache f = .ok f') :
    f'.fd = f.fd ∧ f'.cachePos = f.cachePos ∧ f'.cacheIdx = f.cacheIdx ∧
    f'.fileSize = f.fileSize := by
  unfold fillCache at h
  split at h
  · obtain ⟨n, -, h⟩ := bind_eq_ok h
    obtain ⟨cache, -, h⟩ := bind_eq_ok h
    cases h
    exact ⟨rfl, rfl, rfl, rfl⟩
  · cases h
    exact ⟨rfl, rfl, rfl, rfl⟩

theorem fillDisk_frame {r : Int} (h : fillDisk f = .ok (r, f')) :
    f'.cachePos = f.cachePos ∧ f'.cacheIdx = f.cacheIdx := by
  unfold fillDisk at h
  split at h
  · dsimp only at h
    split at h
    · cases h
      exact ⟨rfl, rfl⟩
    · obtain ⟨n, -, h⟩ := bind_eq_ok h
      cases h
      exact ⟨rfl, rfl⟩
  · cases h
    exact ⟨rfl, rfl⟩

theorem fillHole_working {r : Int} (hw : Working cacheSize f) (h : fillHole f = .ok (r, f')) :
    f'.cacheIdx = f.cacheIdx ∧ f.fd.Kept f'.fd := by
  unfold fillHole at h
  split at h
  · obtain ⟨f₁, hcache, h⟩ := bind_eq_ok h
    obtain ⟨hfd, -, hidx, -⟩ := fillCache_frame hcache
    obtain ⟨⟨rc, f₂⟩, hdisk, h⟩ := bind_eq_ok h
    have hidx' := (fillDisk_frame hdisk).2
    have hkept : f.fd.Kept f₂.fd := by
      unfold fillDisk at hdisk
      split at hdisk
      · obtain ⟨-, hkept⟩ := hw.willing.lseekSet f₁.fileSize
        rw [hfd] at hdisk
        dsimp only at hdisk
        split at hdisk
        · cases hdisk
          exact hkept
        · obtain ⟨n, -, hdisk⟩ := bind_eq_ok hdisk
          cases hdisk
          exact hkept.trans (hkept.willing.write _)
      · cases hdisk
        exact hfd ▸ hw.willing.kept
    dsimp only at h
    split at h
    · cases h
      exact ⟨hidx'.trans hidx, hkept⟩
    · cases h
      exact ⟨hidx'.trans hidx, hkept⟩
  · cases h
    exact ⟨rfl, hw.willing.kept⟩

theorem moveHead_working {writable : Nat} (h : moveHead cacheSize f writable = .ok f')
    (hC : 0 < cacheSize) (ho : Orderly f) (hroom : f.cacheIdx + writable ≤ cacheSize) :
    f'.cacheIdx < cacheSize ∧ f.fd.Kept f'.fd := by
  unfold moveHead at h
  split at h
  · obtain ⟨⟨flushRes, f₁⟩, hflush, h⟩ := bind_eq_ok h
    obtain ⟨-, hkept, -⟩ := flush_working hflush ho
    dsimp only at h
    split at h
    · obtain ⟨⟨fetchRes, f₂⟩, hfetch, h⟩ := bind_eq_ok h
      cases h
      rw [(fetch_frame hfetch).2.1]
      exact ⟨hC, hkept.trans (fetch_working hfetch hkept.willing).1⟩
    · cases h
      exact ⟨hC, hkept⟩
  · next hne =>
    cases h
    exact ⟨by dsimp only; omega, ho.willing.kept⟩

theorem io300WriteLoop_working {fuel sz : Nat} {buff : List UInt8} {n : Int} (hC : 0 < cacheSize)
    (hw : Working cacheSize f) (hcan : f.fd.writable = true)
    (h : io300WriteLoop cacheSize fuel f buff sz = .ok (n, f')) :
    Working cacheSize f' ∧ f.fd.Kept f'.fd := by
  induction fuel generalizing f buff sz n with
  | zero => cases h
  | succ fuel ih =>
    rw [io300WriteLoop] at h
    obtain ⟨u, -, h⟩ := bind_eq_ok h
    obtain ⟨⟨rc, f₁⟩, hhole, h⟩ := bind_eq_ok h
    obtain ⟨hidx₁, hkept₁⟩ := fillHole_working hw hhole
    have hidx := hw.idx
    dsimp only at h
    split at h
    · cases h
      exact ⟨⟨⟨hkept₁.willing, fun _ => hkept₁.writable.trans hcan⟩, hidx₁ ▸ hw.idx⟩, hkept₁⟩
    · obtain ⟨room, hroom, h⟩ := bind_eq_ok h
      obtain ⟨-, rfl⟩ := subSize_eq_ok hroom
      obtain ⟨f₂, hcache, h⟩ := bind_eq_ok h
      obtain ⟨hidx₂, hfd₂⟩ : f₂.cacheIdx = f₁.cacheIdx ∧ f₂.fd = f₁.fd := by
        unfold cacheWrite at hcache
        split at hcache
        · obtain ⟨data, -, hcache⟩ := bind_eq_ok hcache
          obtain ⟨cache, -, hcache⟩ := bind_eq_ok hcache
          cases hcache
          exact ⟨rfl, rfl⟩
        · cases hcache
          exact ⟨rfl, rfl⟩
      obtain ⟨f₃, hmove, h⟩ := bind_eq_ok h
      have hwritable : f₂.fd.writable = true := by rw [hfd₂, hkept₁.writable, hcan]
      rw [growFile_spec] at hmove
      obtain ⟨hidx₃, hkept₃⟩ := moveHead_working hmove hC
        ⟨show f₂.fd.Willing from hfd₂ ▸ hkept₁.willing, fun _ => hwritable⟩
        (show f₂.cacheIdx + min sz (cacheSize - f₁.cacheIdx) ≤ cacheSize by omega)
      have hkept : f.fd.Kept f₃.fd := hkept₁.trans (hfd₂ ▸ hkept₃)
      have hw₃ : Working cacheSize f₃ :=
        ⟨⟨hkept.willing, fun _ => hkept.writable.trans hcan⟩, hidx₃⟩
      split at h
      · cases h
        exact ⟨hw₃, hkept⟩
      · obtain ⟨rest, -, h⟩ := bind_eq_ok h
        obtain ⟨⟨n', f₄⟩, hloop, h⟩ := bind_eq_ok h
        cases h
        obtain ⟨hw₄, hkept'⟩ := ih hw₃ (hkept.writable.trans hcan) hloop
        exact ⟨hw₄, hkept.trans hkept'⟩

/-! ## Reached states -/

/-- The states of an open file in runs in which every system call succeeds,
in full or in part; files that are open for reading are only read. -/
inductive Reached (cacheSize : Nat) : Io300File → Prop where
  | opened {mode : Nat} {content fresh : List UInt8} {script : List Outcome} {f : Io300File}
      (hfresh : fresh.length = cacheSize) (hscript : ∀ o ∈ script, o ≠ .fail ∧ o ≠ .short 0)
      (hopen : io300Open cacheSize mode content script fresh = .ok (some f)) : Reached cacheSize f
  | called {f f' : Io300File} {c : Call} {a : Answer} (h : Reached cacheSize f) (hc : c.Fits)
      (hcan : f.fd.writable = true ∨ c.Reads) (hstep : step cacheSize f c = .ok (a, f')) :
      Reached cacheSize f'
  | sized {f f' : Io300File} {r : Int} (h : Reached cacheSize f)
      (hsize : io300Filesize cacheSize f = .ok (r, f')) : Reached cacheSize f'

theorem osOpen_script {mode : Nat} {content : List UInt8} {script : List Outcome} {fd : OsFile}
    (h : osOpen mode content script = some fd) : fd.script = script := by
  unfold osOpen at h
  split at h
  · cases h
    rfl
  · split at h
    · cases h
      rfl
    · split at h
      · cases h
        rfl
      · cases h

theorem io300Open_working {mode : Nat} {content fresh : List UInt8} {script : List Outcome}
    (hC : 0 < cacheSize) (hscript : ∀ o ∈ script, o ≠ .fail ∧ o ≠ .short 0)
    (hopen : io300Open cacheSize mode content script fresh = .ok (some f)) :
    Working cacheSize f := by
  rcases io300Open_cases cacheSize mode content fresh script with hnone | ⟨fd, hfd, hcases⟩
  · rw [hnone] at hopen
    cases hopen
  · have hwill : fd.Willing := by
      rw [OsFile.Willing, osOpen_script hfd]
      exact hscript
    have hend := hwill.lseekEnd
    obtain ⟨-, hset⟩ := hend.willing.lseekSet 0
    rw [hcases] at hopen
    obtain ⟨⟨n, f₁⟩, hfetch, hopen⟩ := bind_eq_ok hopen
    obtain ⟨hkept, hdirty⟩ := fetch_working hfetch hset.willing
    have hidx := (fetch_frame hfetch).2.1
    have hw₁ : Working cacheSize f₁ := by
      refine ⟨⟨hkept.willing, fun hd => ?_⟩, ?_⟩
      · rw [hdirty] at hd
        cases hd
      · rw [hidx]
        exact hC
    dsimp only at hopen
    split at hopen
    · cases hopen
    · obtain ⟨u, -, hopen⟩ := bind_eq_ok hopen
      cases hopen
      split
      · exact ⟨⟨hw₁.willing, hw₁.dirty⟩, hw₁.idx⟩
      · exact hw₁

theorem step_working {c : Call} {a : Answer} (hC : 0 < cacheSize) (hw : Working cacheSize f)
    (hcan : f.fd.writable = true ∨ c.Reads) (h : step cacheSize f c = .ok (a, f')) :
    Working cacheSize f' := by
  cases c with
  | seek pos =>
    obtain ⟨⟨r, f₁⟩, hseek, h⟩ := bind_eq_ok h
    cases h
    exact (io300Seek_working hC hw hseek).1
  | read buff sz =>
    obtain ⟨⟨r, b, f₁⟩, hread, h⟩ := bind_eq_ok h
    cases h
    exact (io300ReadLoop_working hC hw hread).1
  | readc =>
    obtain ⟨⟨r, f₁⟩, hreadc, h⟩ := bind_eq_ok h
    cases h
    obtain ⟨u, -, hreadc⟩ := bind_eq_ok hreadc
    obtain ⟨⟨n, b, f₂⟩, hread, hreadc⟩ := bind_eq_ok hreadc
    cases hreadc
    exact (io300ReadLoop_working hC hw hread).1
  | write buff sz =>
    obtain ⟨⟨r, f₁⟩, hwrite, h⟩ := bind_eq_ok h
    cases h
    exact (io300WriteLoop_working hC hw (hcan.resolve_right id) hwrite).1
  | writec ch =>
    obtain ⟨⟨r, f₁⟩, hwritec, h⟩ := bind_eq_ok h
    cases h
    obtain ⟨u, -, hwritec⟩ := bind_eq_ok hwritec
    obtain ⟨⟨n, f₂⟩, hwrite, hwritec⟩ := bind_eq_ok hwritec
    cases hwritec
    exact (io300WriteLoop_working hC hw (hcan.resolve_right id) hwrite).1

theorem Reached.working (hC : 0 < cacheSize) (h : Reached cacheSize f) : Working cacheSize f := by
  induction h with
  | opened _ hscript hopen => exact io300Open_working hC hscript hopen
  | called _ _ hcan hstep ih => exact step_working hC ih hcan hstep
  | sized _ hsize ih =>
    obtain ⟨u, -, hsize⟩ := bind_eq_ok hsize
    cases hsize
    have hkept := ih.willing.fstat
    exact ⟨⟨hkept.willing, fun hd => hkept.writable.trans (ih.dirty hd)⟩, ih.idx⟩

/-- A run without failures is one of those under any results. -/
theorem Reached.hostile (h : Reached cacheSize f) : Hostile cacheSize f := by
  induction h with
  | @opened mode content fresh script f hfresh _ hopen =>
    rcases io300Open_cases cacheSize mode content fresh script with hnone | ⟨fd, -, hcases⟩
    · rw [hnone] at hopen
      cases hopen
    · exact .opened hfresh (hcases ▸ hopen)
  | @called f _ _ _ _ hc _ hstep ih => exact .called ih hc f.fd hstep
  | @sized f _ _ _ hsize ih => exact .sized ih f.fd hsize

/-! ## Writing nothing -/

/-- What the file holds: the disk with the valid part of the cache. -/
def contents (f : Io300File) : List UInt8 :=
  overwrite 0 f.fd.disk f.cachePos (f.cache.take f.cacheValid)

/-- A call that returns 0 and leaves the contents, the size, the position
and the results of all later calls. -/
def WritesNothing (cacheSize : Nat) (f : Io300File) (buff : List UInt8) : Prop :=
  ∃ f', io300Write cacheSize f buff 0 = .ok (0, f') ∧ contents f' = contents f ∧
    f'.fileSize = f.fileSize ∧ f'.cachePos + f'.cacheIdx = f.cachePos + f.cacheIdx ∧
    ∀ calls, (runM (step cacheSize) f' calls).map Prod.fst =
    (runM (step cacheSize) f calls).map Prod.fst

theorem fillHole_past_end {r : Int} (hpast : f.fileSize < f.cachePos + f.cacheIdx)
    (h : fillHole f = .ok (r, f')) : r < 0 ∨ f.fileSize < f'.fileSize := by
  rw [fillHole, if_pos hpast] at h
  obtain ⟨f₁, hcache, h⟩ := bind_eq_ok h
  obtain ⟨⟨rc, f₂⟩, hdisk, h⟩ := bind_eq_ok h
  obtain ⟨-, hpos, hidx, -⟩ := fillCache_frame hcache
  obtain ⟨hpos', hidx'⟩ := fillDisk_frame hdisk
  dsimp only at h
  split at h
  · next hneg =>
    cases h
    exact .inl hneg
  · cases h
    refine .inr ?_
    rw [hpos', hidx', hpos, hidx]
    exact hpast

theorem moveHead_size {writable : Nat} (h : moveHead cacheSize f writable = .ok f') :
    f'.fileSize = f.fileSize := by
  unfold moveHead at h
  split at h
  · obtain ⟨⟨flushRes, f₁⟩, hflush, h⟩ := bind_eq_ok h
    have hframe := (flush_frame hflush).2
    dsimp only at h
    split at h
    · obtain ⟨⟨fetchRes, f₂⟩, hfetch, h⟩ := bind_eq_ok h
      cases h
      rw [(fetch_frame hfetch).2.2, hframe]
    · cases h
      rw [hframe]
  · cases h
    rfl

/-- Past the end of the file, the end moves to the head, unless a call
fails. -/
theorem io300Write_past_end {buff : List UInt8} {r : Int}
    (hpast : f.fileSize < f.cachePos + f.cacheIdx)
    (h : io300Write cacheSize f buff 0 = .ok (r, f')) :
    r < 0 ∨ f.fileSize < f'.fileSize := by
  rw [io300Write, io300WriteLoop] at h
  obtain ⟨u, -, h⟩ := bind_eq_ok h
  obtain ⟨⟨rc, f₁⟩, hhole, h⟩ := bind_eq_ok h
  have hlonger := fillHole_past_end hpast hhole
  dsimp only at h
  split at h
  · next hneg =>
    cases h
    exact .inl hneg
  · next hrc =>
    have hlonger := hlonger.resolve_left hrc
    obtain ⟨room, -, h⟩ := bind_eq_ok h
    rw [Nat.zero_min] at h
    obtain ⟨f₂, hcache, h⟩ := bind_eq_ok h
    rw [cacheWrite, if_neg (Nat.lt_irrefl 0)] at hcache
    cases hcache
    obtain ⟨f₃, hmove, h⟩ := bind_eq_ok h
    have hsize := moveHead_size hmove
    rw [growFile_spec] at hsize
    cases h
    refine .inr ?_
    rw [hsize]
    exact Nat.lt_of_lt_of_le hlonger (Nat.le_max_left _ _)

/-- **A zero-length write changes nothing** exactly at positions up to the
end of the file. -/
theorem write_zero_iff (hC : 4 ≤ cacheSize) (hf : Reached cacheSize f) (buff : List UInt8) :
    WritesNothing cacheSize f buff ↔ f.cachePos + f.cacheIdx ≤ f.fileSize := by
  have hpos : 0 < cacheSize := by omega
  constructor
  · rintro ⟨f', hwrite, -, hsize, -⟩
    by_contra hpast
    rcases io300Write_past_end (Nat.not_le.mp hpast) hwrite with hneg | hlonger
    · exact absurd hneg (Int.lt_irrefl 0)
    · omega
  · intro hin
    have hrun := io300Write_nothing (hf.hostile.safe hpos).check (hf.working hpos).idx hin buff
    exact ⟨f, hrun, rfl, rfl, rfl, fun _ => rfl⟩

/-- `naive.c` leaves it to the kernel, which moves nothing. -/
theorem naive_write_zero {n : Naive.Io300File} (hn : n.fd.Reliable) (buff : List UInt8) :
    Naive.io300Write n buff 0 = (0, n) := by
  rw [Naive.io300Write, List.take_zero, OsFile.write_reliable hn, overwrite_nil]
  rfl

theorem write_zero_iff_opened :
    WritesNothing 4 ⟨⟨[7], 1, true, []⟩, [7, 0, 0, 0], 0, 0, 1, false, 1⟩ [] ↔ 0 + 0 ≤ 1 := by
  have hopen : Reached 4 ⟨⟨[7], 1, true, []⟩, [7, 0, 0, 0], 0, 0, 1, false, 1⟩ :=
    .opened (rfl : [0, 0, 0, 0].length = 4) (fun o ho => absurd ho List.not_mem_nil)
      (show io300Open 4 MODE_RDWR [7] [] [0, 0, 0, 0] = _ from rfl)
  exact write_zero_iff (by decide) hopen []

/-- `io300_seek(f, 2)` on an empty file, then `io300_write(f, buff, 0)`: the
file has two bytes. -/
theorem write_zero_extends :
    ¬ ∀ f, Reached 4 f → ∀ buff, WritesNothing 4 f buff := by
  intro hall
  have hopen : Reached 4 ⟨⟨[], 0, true, []⟩, [0, 0, 0, 0], 0, 0, 0, false, 0⟩ :=
    .opened (rfl : [0, 0, 0, 0].length = 4) (fun o ho => absurd ho List.not_mem_nil)
      (show io300Open 4 MODE_RDWR [] [] [0, 0, 0, 0] = _ from rfl)
  have hseek : Reached 4 ⟨⟨[], 0, true, []⟩, [0, 0, 0, 0], 0, 2, 0, false, 0⟩ :=
    .called (c := .seek 2) hopen trivial (.inl rfl) rfl
  obtain ⟨f', hwrite, -, hsize, -⟩ := hall _ hseek []
  rcases io300Write_past_end (by decide) hwrite with hneg | hlonger
  · exact absurd hneg (Int.lt_irrefl 0)
  · rw [hsize] at hlonger
    exact Nat.lt_irrefl _ hlonger

end Student

end SystemsProjects.FileIO
