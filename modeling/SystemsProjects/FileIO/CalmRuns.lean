/-
SystemsProjects.FileIO.CalmRuns — the cached implementation under failing
and short system calls, compared with the same state under calls that all
succeed.

`calm` forgets the outcomes to come and lets the descriptor write. Each
lemma below says that an operation which got from the kernel what it
needed does what it would have done in the calm state: `flush` when it
returns 0, however often its writes fell short; `fetch` when it has read
the whole block.

`ReadHeeded` and `WriteHeeded` go along the two recursions and name the
sites where a result is not looked at: a short `read` in every `fetch`,
a failure in a recursive `io300_read`, whose -1 is added to the bytes read
before, `flush` and `fetch` at the end of a block in `io300_write`, and a
short `write` into a hole.
-/
import SystemsProjects.FileIO.WriteCoherence

namespace SystemsProjects.FileIO

open SystemsProjects.Base

/-! ## System calls that succeed -/

namespace OsFile

/-- No failure to come, and writing allowed. -/
def calm (k : OsFile) : OsFile := { k with script := [], writable := true }

theorem calm_reliable (k : OsFile) : k.calm.Reliable := ⟨rfl, rfl⟩

theorem calm_next (k : OsFile) : k.next.2.calm = k.calm := by
  unfold next
  split <;> rfl

theorem lseekSet_calm {k : OsFile} {off : Int} (h : 0 ≤ (k.lseekSet off).1) :
    k.calm.lseekSet off = ((k.lseekSet off).1, (k.lseekSet off).2.calm) := by
  have hnext := calm_next k
  unfold lseekSet at h ⊢
  rw [next_reliable (calm_reliable k)]
  rcases hk : k.next with ⟨o, k'⟩
  rw [hk] at h hnext
  dsimp only at hnext
  cases o with
  | fail => simp at h
  | full | short _ =>
    dsimp only at h ⊢
    split at h
    · simp at h
    · rename_i hoff
      rw [if_neg hoff, if_neg hoff, ← hnext]
      rfl

theorem lseekEnd_calm {k : OsFile} (h : 0 ≤ (k.lseekEnd).1) :
    k.calm.lseekEnd = ((k.lseekEnd).1, (k.lseekEnd).2.calm) := by
  have hnext := calm_next k
  unfold lseekEnd at h ⊢
  rw [next_reliable (calm_reliable k)]
  rcases hk : k.next with ⟨o, k'⟩
  rw [hk] at h hnext
  dsimp only at hnext
  cases o with
  | fail => simp at h
  | full | short _ =>
    dsimp only
    rw [← hnext]
    rfl

/-- A read that is not short. -/
theorem read_calm {k : OsFile} {n : Nat}
    (h : (k.read n).1 = (min n (k.disk.length - k.offset) : Nat)) :
    k.calm.read n = ((k.read n).1, (k.read n).2.1, (k.read n).2.2.calm) := by
  have hnext := calm_next k
  have hdisk : k.next.2.disk = k.disk ∧ k.next.2.offset = k.offset := by
    unfold next
    split <;> exact ⟨rfl, rfl⟩
  unfold read at h ⊢
  rw [next_reliable (calm_reliable k)]
  rcases hk : k.next with ⟨o, k'⟩
  rw [hk] at h hnext hdisk
  obtain ⟨hd, ho⟩ := hdisk
  dsimp only at hnext hd ho h ⊢
  rw [hd, ho] at h ⊢
  have hcd : k.calm.disk = k.disk := rfl
  have hco : k.calm.offset = k.offset := rfl
  rw [hcd, hco]
  cases o with
  | fail =>
    dsimp only [Outcome.transfer] at h
    omega
  | full =>
    dsimp only [Outcome.transfer]
    rw [← hnext]
    rfl
  | short m =>
    dsimp only [Outcome.transfer] at h ⊢
    rw [length_slice] at h
    have hm : min m (min n (k.disk.length - k.offset)) = min n (k.disk.length - k.offset) := by
      omega
    rw [hm, ← hnext]
    rfl

/-- The description once `data` is written in full at its offset. -/
def wrote (k : OsFile) (data : List UInt8) : OsFile :=
  { k with disk := overwrite 0 k.disk k.offset data, offset := k.offset + data.length }

theorem wrote_append (k : OsFile) (a b : List UInt8) : (k.wrote a).wrote b = k.wrote (a ++ b) := by
  simp only [wrote, overwrite_append, List.length_append, Nat.add_assoc]

theorem write_wrote {k : OsFile} (h : k.Reliable) (data : List UInt8) :
    k.write data = ((data.length : Int), k.wrote data) :=
  write_reliable h data

/-- A write that does not fail has written a part of its data. -/
theorem write_calm {k : OsFile} {data : List UInt8} (h : 0 ≤ (k.write data).1) :
    ∃ m ≤ data.length, (k.write data).1 = m ∧
      (k.write data).2.calm = k.calm.wrote (data.take m) := by
  have hfields : k.next.2.disk = k.disk ∧ k.next.2.offset = k.offset := by
    unfold next
    split <;> exact ⟨rfl, rfl⟩
  unfold write at h ⊢
  rcases hk : k.next with ⟨o, k'⟩
  rw [hk] at h hfields
  obtain ⟨hd, ho⟩ := hfields
  dsimp only at hd ho h ⊢
  rcases ht : o.transfer data.length with - | m
  · rw [ht] at h
    simp at h
  · rw [ht] at h
    cases hw : k'.writable with
    | false =>
      rw [hw] at h
      simp at h
    | true =>
      have hm : m ≤ data.length := by
        cases o with
        | fail => cases ht
        | full => exact Nat.le_of_eq (Option.some.inj ht).symm
        | short n =>
          have := Option.some.inj ht
          omega
      refine ⟨m, hm, rfl, ?_⟩
      have hlen : (data.take m).length = m := by rw [List.length_take]; omega
      simp only [wrote, calm, hd, ho, hlen]

/-- A write that is not short. -/
theorem write_full_calm {k : OsFile} {data : List UInt8} (h : (k.write data).1 = data.length) :
    k.calm.write data = ((k.write data).1, (k.write data).2.calm) := by
  obtain ⟨m, hm, hval, hfd⟩ := write_calm (show 0 ≤ (k.write data).1 by omega)
  have hm : m = data.length := by omega
  rw [write_wrote (calm_reliable k), h, hfd, hm, List.take_length]

end OsFile

namespace Student

variable {cacheSize : Nat}

/-- The same state with calls that all succeed. -/
def Io300File.calm (f : Io300File) : Io300File := { f with fd := f.fd.calm }

namespace Io300File

variable (f : Io300File)

@[simp] theorem calm_cache : f.calm.cache = f.cache := rfl
@[simp] theorem calm_cachePos : f.calm.cachePos = f.cachePos := rfl
@[simp] theorem calm_cacheIdx : f.calm.cacheIdx = f.cacheIdx := rfl
@[simp] theorem calm_cacheValid : f.calm.cacheValid = f.cacheValid := rfl
@[simp] theorem calm_isDirty : f.calm.isDirty = f.isDirty := rfl
@[simp] theorem calm_fileSize : f.calm.fileSize = f.fileSize := rfl

end Io300File

@[simp] theorem checkInvariants_calm (f : Io300File) :
    checkInvariants cacheSize f.calm = checkInvariants cacheSize f := rfl

theorem subSize_eq_ok {a b n : Nat} (h : subSize a b = .ok n) : b ≤ a ∧ n = a - b := by
  unfold subSize at h
  split at h
  · rename_i hle
    cases h
    exact ⟨hle, rfl⟩
  · cases h

theorem load_eq_ok {mem data : List UInt8} {off n : Nat} (h : load mem off n = .ok data) :
    off + n ≤ mem.length ∧ data = slice mem off n := by
  unfold load at h
  split at h
  · rename_i hle
    cases h
    exact ⟨hle, rfl⟩
  · cases h

/-! ## `flush` -/

/-- What the loop of `flush` has written when it returns 0: all that was
left, whether in one write or in many. -/
theorem flushLoop_written {fuel : Nat} {f f' : Io300File} {count : Nat}
    (h : flushLoop fuel f count = .ok (0, f')) :
    (count < f.cacheValid → f.cacheValid ≤ f.cache.length) ∧
    f'.calm = { f.calm with
      fd := f.fd.calm.wrote (slice f.cache count (f.cacheValid - count)), isDirty := false } := by
  induction fuel generalizing f count with
  | zero => cases h
  | succ fuel ih =>
    rw [flushLoop] at h
    split at h
    · rename_i hlt
      obtain ⟨n, hn, h⟩ := bind_eq_ok h
      obtain ⟨-, rfl⟩ := subSize_eq_ok hn
      obtain ⟨data, hdata, h⟩ := bind_eq_ok h
      obtain ⟨hlen, rfl⟩ := load_eq_ok hdata
      dsimp only at h
      split at h
      · cases h
      · rename_i hpos
        rw [Int.not_le] at hpos
        obtain ⟨m, hm, hval, hfd⟩ := OsFile.write_calm (Int.le_of_lt hpos)
        rw [length_slice_of_le hlen] at hm
        rw [hval, Int.toNat_natCast] at h
        obtain ⟨-, hf'⟩ := ih h
        refine ⟨fun _ => by omega, ?_⟩
        -- the first write and those of the rest make one
        have htake : (slice f.cache count (f.cacheValid - count)).take m =
            slice f.cache count m := by
          rw [slice, List.take_take, Nat.min_eq_left hm]
          rfl
        have hall := slice_append f.cache count m (f.cacheValid - (count + m)) (by omega)
        rw [show m + (f.cacheValid - (count + m)) = f.cacheValid - count by omega] at hall
        have hone := OsFile.wrote_append f.fd.calm (slice f.cache count m)
          (slice f.cache (count + m) (f.cacheValid - (count + m)))
        rw [hall, ← htake, ← hfd] at hone
        rw [hf', ← hone]
        rfl
    · rename_i hge
      cases h
      refine ⟨fun hlt => absurd hlt hge, ?_⟩
      have hzero : f.cacheValid - count = 0 := by omega
      simp [Io300File.calm, slice, OsFile.calm, OsFile.wrote, hzero]

/-- In the calm state one write does. -/
theorem flushLoop_calm {f f' : Io300File} (h : flushLoop (f.cacheValid + 1) f 0 = .ok (0, f')) :
    flushLoop (f.cacheValid + 1) f.calm 0 = .ok (0, f'.calm) := by
  obtain ⟨hlen, hf'⟩ := flushLoop_written h
  rw [Nat.sub_zero] at hf'
  by_cases hv : f.cacheValid = 0
  · rw [hf']
    simp [flushLoop, Io300File.calm, hv, slice, OsFile.wrote]
  · have hle : f.cacheValid ≤ f.cache.length := hlen (by omega)
    have hdata : (slice f.cache 0 f.cacheValid).length = f.cacheValid :=
      length_slice_of_le (by omega)
    have hwrite := OsFile.write_wrote (OsFile.calm_reliable f.fd) (slice f.cache 0 f.cacheValid)
    rw [hdata] at hwrite
    obtain ⟨v, hv'⟩ : ∃ v, f.cacheValid = v + 1 := ⟨f.cacheValid - 1, by omega⟩
    have hpos : ¬ (f.cacheValid : Int) ≤ 0 := by omega
    rw [flushLoop, if_pos (show 0 < f.calm.cacheValid from Nat.pos_of_ne_zero hv),
      subSize_of_le (Nat.zero_le _)]
    show (load f.cache 0 f.cacheValid >>= _) = _
    rw [load_of_le (by omega), hf']
    simp only [ok_bind, Io300File.calm, hwrite, if_neg hpos]
    rw [hv', flushLoop, if_neg (by simp)]
    rfl

theorem flush_calm {f f' : Io300File} (h : flush cacheSize f = .ok (0, f')) :
    flush cacheSize f.calm = .ok (0, f'.calm) := by
  unfold flush at h ⊢
  obtain ⟨u, hcheck, h⟩ := bind_eq_ok h
  have hcheck' : checkInvariants cacheSize f.calm = .ok u := hcheck
  rw [hcheck', ok_bind]
  split at h
  · rename_i hclean
    cases h
    rw [if_pos (show f.calm.isDirty = false from hclean)]
    rfl
  · rename_i hdirty
    rw [if_neg (show ¬ f.calm.isDirty = false from hdirty)]
    dsimp only at h ⊢
    split at h
    · rename_i hneg
      have := (Prod.mk.inj (Except.ok.inj h)).1
      omega
    · rename_i hoff
      have hseek := OsFile.lseekSet_calm (Int.not_lt.mp hoff)
      have hseek' : f.calm.fd.lseekSet f.calm.cachePos =
          ((f.fd.lseekSet f.cachePos).1, (f.fd.lseekSet f.cachePos).2.calm) := hseek
      rw [hseek', if_neg hoff]
      exact flushLoop_calm h

theorem flushLoop_frame {fuel : Nat} {f f' : Io300File} {count : Nat} {r : Int}
    (h : flushLoop fuel f count = .ok (r, f')) :
    r ≤ 0 ∧ f' = { f with fd := f'.fd, isDirty := f'.isDirty } := by
  induction fuel generalizing f count with
  | zero => cases h
  | succ fuel ih =>
    rw [flushLoop] at h
    split at h
    · obtain ⟨n, -, h⟩ := bind_eq_ok h
      obtain ⟨data, -, h⟩ := bind_eq_ok h
      dsimp only at h
      split at h
      · cases h
        exact ⟨by decide, rfl⟩
      · have hrest := ih h
        exact ⟨hrest.1, hrest.2⟩
    · cases h
      exact ⟨Int.le_refl 0, rfl⟩

/-- `flush` reports 0 or a failure, and touches the descriptor and the
dirty flag only. -/
theorem flush_frame {f f' : Io300File} {r : Int} (h : flush cacheSize f = .ok (r, f')) :
    r ≤ 0 ∧ f' = { f with fd := f'.fd, isDirty := f'.isDirty } := by
  unfold flush at h
  obtain ⟨u, -, h⟩ := bind_eq_ok h
  split at h
  · cases h
    exact ⟨Int.le_refl 0, rfl⟩
  · dsimp only at h
    split at h
    · cases h
      exact ⟨by omega, rfl⟩
    · have hloop := flushLoop_frame h
      exact ⟨hloop.1, hloop.2⟩

/-! ## `fetch` -/

/-- The bytes of the file in the block: what `fetch` asks for and gets
when its `read` is not short. -/
def blockBytes (cacheSize : Nat) (f : Io300File) : Nat :=
  if f.cachePos ≥ f.fileSize then 0 else min cacheSize (f.fd.disk.length - f.cachePos)

theorem fetch_calm {f f' : Io300File}
    (h : fetch cacheSize f = .ok ((blockBytes cacheSize f : Int), f')) :
    fetch cacheSize f.calm = .ok ((blockBytes cacheSize f : Int), f'.calm) := by
  unfold fetch at h ⊢
  obtain ⟨u, hcheck, h⟩ := bind_eq_ok h
  have hcheck' : checkInvariants cacheSize f.calm = .ok u := hcheck
  rw [hcheck', ok_bind]
  split at h
  · rename_i hend
    rw [if_pos (show f.calm.cachePos ≥ f.calm.fileSize from hend)]
    have := Except.ok.inj h
    rw [Prod.mk.injEq] at this
    rw [← this.1, ← this.2]
    rfl
  · rename_i hin
    rw [if_neg (show ¬ f.calm.cachePos ≥ f.calm.fileSize from hin)]
    have hblock : blockBytes cacheSize f = min cacheSize (f.fd.disk.length - f.cachePos) :=
      if_neg hin
    dsimp only at h ⊢
    split at h
    · have := (Prod.mk.inj (Except.ok.inj h)).1
      omega
    · rename_i hoff
      have hseek := OsFile.lseekSet_calm (Int.not_lt.mp hoff)
      have hseek' : f.calm.fd.lseekSet f.calm.cachePos =
          ((f.fd.lseekSet f.cachePos).1, (f.fd.lseekSet f.cachePos).2.calm) := hseek
      have hat := hseek.symm.trans (OsFile.lseekSet_reliable (OsFile.calm_reliable f.fd) f.cachePos)
      have hfd := (Prod.mk.inj hat).2
      have hdisk : (f.fd.lseekSet f.cachePos).2.disk = f.fd.disk := (congrArg OsFile.disk hfd :)
      have hoffset : (f.fd.lseekSet f.cachePos).2.offset = f.cachePos :=
        (congrArg OsFile.offset hfd :)
      rw [hseek', if_neg hoff]
      dsimp only at h ⊢
      split at h
      · have := (Prod.mk.inj (Except.ok.inj h)).1
        omega
      · rename_i hres
        obtain ⟨cache, hstore, h⟩ := bind_eq_ok h
        obtain ⟨hval, rfl⟩ := Prod.mk.inj (Except.ok.inj h)
        have hread := OsFile.read_calm (by rw [hval, hblock, hdisk, hoffset])
        rw [hread]
        dsimp only
        rw [if_neg hres, show f.calm.cache = f.cache from rfl, hstore, ok_bind, hval]
        rfl

/-! ## What a move of the cache needs -/

section

variable (cacheSize : Nat)

/-- `flush` writes back what is dirty. -/
def FlushWorks (f : Io300File) : Prop := ∃ f', flush cacheSize f = .ok (0, f')

/-- `fetch` gets its block. -/
def FetchWorks (f : Io300File) : Prop :=
  ∃ f', fetch cacheSize f = .ok ((blockBytes cacheSize f : Int), f')

/-- `fetch` gets its block or says that it failed: its `read` is not
short. -/
def FetchHonest (f : Io300File) : Prop :=
  ∀ r f', fetch cacheSize f = .ok (r, f') → r < 0 ∨ r = blockBytes cacheSize f

/-- The block is written back and the one at the new head is fetched. -/
def MoveWorks (move : Io300File → Io300File) (f : Io300File) : Prop :=
  ∃ f', flush cacheSize f = .ok (0, f') ∧ FetchWorks cacheSize (move f')

/-- The same, up to failures that `flush` and `fetch` report. -/
def MoveHonest (move : Io300File → Io300File) (f : Io300File) : Prop :=
  ∀ f', flush cacheSize f = .ok (0, f') → FetchHonest cacheSize (move f')

/-- The head at the start of the next block. -/
def nextHead (f : Io300File) : Io300File :=
  { f with cachePos := f.cachePos + cacheSize, cacheIdx := 0 }

/-- The head at position `p`. -/
def seekHead (p : Nat) (f : Io300File) : Io300File :=
  { f with cachePos := p - p % cacheSize, cacheIdx := p % cacheSize }

end

theorem MoveWorks.honest {move : Io300File → Io300File} {f : Io300File}
    (h : MoveWorks cacheSize move f) : MoveHonest cacheSize move f := by
  obtain ⟨f₁, hflush, f₂, hfetch⟩ := h
  intro f' hf' r f'' hr
  cases hflush.symm.trans hf'
  cases hfetch.symm.trans hr
  exact Or.inr rfl

theorem nextBlock_calm {f f' : Io300File} {rc : Int}
    (hg : MoveHonest cacheSize (nextHead cacheSize) f)
    (hrc : 0 ≤ rc) (h : nextBlock cacheSize f = .ok (rc, f')) :
    rc = 0 ∧ nextBlock cacheSize f.calm = .ok (0, f'.calm) := by
  unfold nextBlock at h ⊢
  obtain ⟨⟨flushRes, f₁⟩, hflush, h⟩ := bind_eq_ok h
  dsimp only at h
  split at h
  · cases h
    omega
  · rename_i hfl
    have hzero : flushRes = 0 := by
      have := (flush_frame hflush).1
      omega
    subst hzero
    obtain ⟨⟨fetchRes, f₂⟩, hfetch, h⟩ := bind_eq_ok h
    dsimp only at h
    obtain ⟨hval, rfl⟩ := Prod.mk.inj (Except.ok.inj h)
    rcases hg f₁ hflush fetchRes f₂ hfetch with hneg | hwhole
    · rw [if_pos hneg] at hval
      omega
    · subst hwhole
      have hpos : ¬ (blockBytes cacheSize (nextHead cacheSize f₁) : Int) < 0 := by omega
      rw [if_neg hpos] at hval
      have hcalm : fetch cacheSize
          { f₁.calm with cachePos := f₁.calm.cachePos + cacheSize, cacheIdx := 0 } =
          .ok ((blockBytes cacheSize (nextHead cacheSize f₁) : Int), f₂.calm) := fetch_calm hfetch
      refine ⟨hval.symm, ?_⟩
      rw [flush_calm hflush]
      simp only [ok_bind, Int.lt_irrefl, if_false, hcalm, if_neg hpos, pure_eq_ok]

theorem MoveWorks.next {f f' : Io300File} {rc : Int}
    (hg : MoveWorks cacheSize (nextHead cacheSize) f)
    (h : nextBlock cacheSize f = .ok (rc, f')) : 0 ≤ rc := by
  obtain ⟨f₁, hflush, f₂, hfetch⟩ := hg
  have hpos : ¬ (blockBytes cacheSize (nextHead cacheSize f₁) : Int) < 0 := by omega
  have hfetch' : fetch cacheSize { f₁ with cachePos := f₁.cachePos + cacheSize, cacheIdx := 0 } =
      .ok ((blockBytes cacheSize (nextHead cacheSize f₁) : Int), f₂) := hfetch
  simp only [nextBlock, hflush, ok_bind, Int.lt_irrefl, if_false, hfetch', if_neg hpos,
    pure_eq_ok] at h
  cases h
  exact Int.le_refl 0

/-! ## Reading -/

section

variable (cacheSize : Nat)

/-- The bytes of a request that the cached block answers. -/
def readableBytes (f : Io300File) (sz : Nat) : Nat :=
  min sz (min (cacheSize - f.cacheIdx)
  (if f.cacheIdx < f.cacheValid then f.cacheValid - f.cacheIdx else 0))

/-- The move to the next block, `got` bytes into the read. A failure here
is reported as long as nothing was read before; afterwards it is lost in
the sum. -/
def NextHeeded (got : Nat) (f : Io300File) : Prop :=
  if got = 0 then MoveHonest cacheSize (nextHead cacheSize) f
  else MoveWorks cacheSize (nextHead cacheSize) f

/-- What `io300_read` needs, to a recursion depth. -/
def ReadHeeded : Nat → Nat → Io300File → Nat → Prop
  | 0, _, _, _ => True
  | fuel + 1, got, f, sz =>
    f.cachePos + f.cacheIdx < f.fileSize →
      let readable := readableBytes cacheSize f sz
      if readable = sz ∨ f.cachePos + f.cacheIdx + readable = f.fileSize then
        f.cacheIdx + readable = cacheSize →
          NextHeeded cacheSize got { f with cacheIdx := f.cacheIdx + readable }
      else
        NextHeeded cacheSize got f ∧
          ∀ f', nextBlock cacheSize f = .ok (0, f') →
            ReadHeeded fuel (got + readable) f' (sz - readable)

end

theorem NextHeeded.next {got : Nat} {f f' : Io300File} {rc : Int}
    (hg : NextHeeded cacheSize got f) (hrc : got = 0 → 0 ≤ rc)
    (h : nextBlock cacheSize f = .ok (rc, f')) :
    rc = 0 ∧ nextBlock cacheSize f.calm = .ok (0, f'.calm) := by
  unfold NextHeeded at hg
  split at hg
  · rename_i hgot
    exact nextBlock_calm hg (hrc hgot) h
  · exact nextBlock_calm hg.honest (hg.next h) h

/-- One level of `io300_read`, its `size_t` subtractions discharged. -/
theorem io300ReadLoop_succ {f : Io300File} (hcheck : checkInvariants cacheSize f = .ok ())
    (fuel : Nat) (buff : List UInt8) (sz : Nat) :
    io300ReadLoop cacheSize (fuel + 1) f buff sz =
      if f.fileSize ≤ f.cachePos + f.cacheIdx then .ok (0, buff, f)
      else (do
        let n := readableBytes cacheSize f sz
        let data ← load f.cache f.cacheIdx n
        let buff ← store buff 0 data
        if n = sz ∨ f.cachePos + f.cacheIdx + n = f.fileSize then
          if f.cacheIdx + n = cacheSize then
            let (rc, f) ← nextBlock cacheSize { f with cacheIdx := f.cacheIdx + n }
            .ok (if rc < 0 then rc else n, buff, f)
          else .ok (n, buff, { f with cacheIdx := f.cacheIdx + n })
        else
          let (rc, f) ← nextBlock cacheSize f
          if rc < 0 then .ok (rc, buff, f)
          else
            let (m, tail, f) ← io300ReadLoop cacheSize fuel f (buff.drop n) (sz - n)
            .ok (n + m, buff.take n ++ tail, f)) := by
  have hidx : f.cacheIdx ≤ cacheSize := by
    unfold checkInvariants at hcheck
    split at hcheck
    · rename_i h
      exact h.2.2
    · cases hcheck
  have hle : readableBytes cacheSize f sz ≤ sz := Nat.min_le_left _ _
  rw [io300ReadLoop, hcheck, ok_bind, subSize_of_le hidx]
  simp only [ok_bind]
  rw [show min sz (min (cacheSize - f.cacheIdx)
      (if f.cacheIdx < f.cacheValid then f.cacheValid - f.cacheIdx else 0)) =
      readableBytes cacheSize f sz from rfl, subSize_of_le hle]
  rfl

theorem readLoop_calm {fuel got : Nat} {f f' : Io300File} {buff buff' : List UInt8} {sz : Nat}
    {r : Int} (hg : ReadHeeded cacheSize fuel got f sz) (hr : got = 0 → 0 ≤ r)
    (h : io300ReadLoop cacheSize fuel f buff sz = .ok (r, buff', f')) :
    io300ReadLoop cacheSize fuel f.calm buff sz = .ok (r, buff', f'.calm) := by
  induction fuel generalizing got f buff sz r buff' with
  | zero => cases h
  | succ fuel ih =>
    have hcheck : checkInvariants cacheSize f = .ok () := by
      rw [io300ReadLoop] at h
      obtain ⟨u, hu, -⟩ := bind_eq_ok h
      exact hu
    rw [io300ReadLoop_succ hcheck] at h
    rw [io300ReadLoop_succ (f := f.calm) hcheck]
    split at h
    · rename_i heof
      cases h
      exact if_pos (show f'.calm.fileSize ≤ f'.calm.cachePos + f'.calm.cacheIdx from heof)
    · rename_i hin
      rw [if_neg (show ¬ f.calm.fileSize ≤ f.calm.cachePos + f.calm.cacheIdx from hin)]
      rw [ReadHeeded] at hg
      have hg := hg (by omega)
      dsimp only at h hg ⊢
      rw [show readableBytes cacheSize f.calm sz = readableBytes cacheSize f sz from rfl]
      obtain ⟨data, hdata, h⟩ := bind_eq_ok h
      obtain ⟨buff₁, hbuff, h⟩ := bind_eq_ok h
      obtain ⟨n, hn⟩ : ∃ n, n = readableBytes cacheSize f sz := ⟨_, rfl⟩
      rw [← hn] at hdata h hg ⊢
      rw [Io300File.calm_cache, Io300File.calm_cacheIdx, hdata, ok_bind, hbuff, ok_bind]
      by_cases hdone : n = sz ∨ f.cachePos + f.cacheIdx + n = f.fileSize
      · rw [if_pos hdone] at h hg
        rw [if_pos (show n = sz ∨ f.calm.cachePos + f.cacheIdx + n = f.calm.fileSize from hdone)]
        by_cases hend : f.cacheIdx + n = cacheSize
        · -- the block is used up
          rw [if_pos hend] at h ⊢
          obtain ⟨⟨rc, f₁⟩, hnext, h⟩ := bind_eq_ok h
          dsimp only at h
          have hrc : got = 0 → 0 ≤ rc := by
            intro hgot
            have := hr hgot
            have hval := (Prod.mk.inj (Except.ok.inj h)).1
            split at hval <;> omega
          obtain ⟨rfl, hcalm⟩ := (hg hend).next hrc hnext
          cases h
          show (nextBlock cacheSize
            (Io300File.calm { f with cacheIdx := f.cacheIdx + n }) >>= _) = _
          rw [hcalm]
          rfl
        · rw [if_neg hend] at h ⊢
          cases h
          rfl
      · rw [if_neg hdone] at h hg
        rw [if_neg (show ¬ (n = sz ∨
          f.calm.cachePos + f.cacheIdx + n = f.calm.fileSize) from hdone)]
        obtain ⟨⟨rc, f₁⟩, hnext, h⟩ := bind_eq_ok h
        dsimp only at h
        have hrc : got = 0 → 0 ≤ rc := by
          intro hgot
          have := hr hgot
          by_cases hneg : rc < 0
          · rw [if_pos hneg] at h
            have hval := (Prod.mk.inj (Except.ok.inj h)).1
            omega
          · omega
        obtain ⟨rfl, hcalm⟩ := hg.1.next hrc hnext
        rw [if_neg (Int.lt_irrefl 0)] at h
        obtain ⟨⟨m, tail, f₂⟩, hrest, h⟩ := bind_eq_ok h
        cases h
        -- a failure further on shows in the sum only while nothing was read
        have hm : got + n = 0 → 0 ≤ m := by
          intro hzero
          have := hr (by omega)
          omega
        have hrest' := ih (hg.2 f₁ hnext) hm hrest
        rw [hcalm]
        simp only [ok_bind, Int.lt_irrefl, if_false, hrest']

/-! ## Writing -/

section

variable (cacheSize : Nat)

/-- The zeros between the end of the file and the cached block reach the
disk, or `write` says that it failed: it is not short. -/
def HoleHeeded (f : Io300File) : Prop :=
  f.fileSize < f.cachePos + f.cacheIdx → eofIdx f = 0 →
    let zeros := List.replicate (f.cachePos - f.fileSize) 0
    let written := ((f.fd.lseekSet f.fileSize).2.write zeros).1
    written < 0 ∨ written = zeros.length

/-- A block that was filled is written back, and the next one is fetched
if the file goes on. -/
def FillHeeded (f : Io300File) : Prop :=
  ∃ f', flush cacheSize f = .ok (0, f') ∧
    (f'.fileSize > f'.cachePos + cacheSize →
      FetchWorks cacheSize
        { f' with cachePos := f'.cachePos + cacheSize, cacheIdx := 0, cacheValid := 0 })

/-- What `io300_write` needs, to a recursion depth. -/
def WriteHeeded : Nat → Io300File → List UInt8 → Nat → Prop
  | 0, _, _, _ => True
  | fuel + 1, f, buff, sz =>
    HoleHeeded f ∧ ∀ f₁, fillHole f = .ok (0, f₁) →
      let writable := min sz (cacheSize - f₁.cacheIdx)
      ∀ f₂, cacheWrite f₁ buff writable = .ok f₂ →
        let f₂ := growFile f₂ sz
        (f₂.cacheIdx + writable = cacheSize → FillHeeded cacheSize f₂) ∧
        (writable ≠ sz → ∀ f₃, moveHead cacheSize f₂ writable = .ok f₃ →
          WriteHeeded fuel f₃ (buff.drop writable) (sz - writable))

end

theorem fillCache_calm {f f' : Io300File} (h : fillCache f = .ok f') :
    fillCache f.calm = .ok f'.calm ∧ f' = { f with cache := f'.cache, isDirty := f'.isDirty } := by
  unfold fillCache at h ⊢
  split at h
  · rename_i hidx
    obtain ⟨n, hn, h⟩ := bind_eq_ok h
    obtain ⟨cache, hcache, h⟩ := bind_eq_ok h
    cases h
    refine ⟨?_, rfl⟩
    rw [if_pos (show f.calm.cacheIdx > eofIdx f.calm from hidx)]
    show (subSize f.cacheIdx (eofIdx f) >>= _) = _
    rw [hn, ok_bind]
    show (store f.cache (eofIdx f) (List.replicate n 0) >>= _) = _
    rw [hcache]
    rfl
  · rename_i hidx
    cases h
    exact ⟨if_neg (show ¬ f.calm.cacheIdx > eofIdx f.calm from hidx), rfl⟩

theorem fillDisk_calm {f f' : Io300File} {rc : Int} (hrc : 0 ≤ rc)
    (hg : eofIdx f = 0 →
      let zeros := List.replicate (f.cachePos - f.fileSize) 0
      let written := ((f.fd.lseekSet f.fileSize).2.write zeros).1
      written < 0 ∨ written = zeros.length)
    (h : fillDisk f = .ok (rc, f')) :
    rc = 0 ∧ fillDisk f.calm = .ok (0, f'.calm) ∧ f' = { f with fd := f'.fd } := by
  unfold fillDisk at h ⊢
  split at h
  · rename_i he
    have hg := hg he
    dsimp only at hg h
    rw [if_pos (show eofIdx f.calm = 0 from he)]
    split at h
    · cases h
      omega
    · rename_i hseek
      obtain ⟨n, hn, h⟩ := bind_eq_ok h
      obtain ⟨-, rfl⟩ := subSize_eq_ok hn
      obtain ⟨hval, rfl⟩ := Prod.mk.inj (Except.ok.inj h)
      have hfull : ((f.fd.lseekSet f.fileSize).2.write
          (List.replicate (f.cachePos - f.fileSize) 0)).1 =
          (List.replicate (f.cachePos - f.fileSize) (0 : UInt8)).length := by
        rcases hg with hneg | hfull
        · rw [if_pos hneg] at hval
          omega
        · exact hfull
      have hpos := hfull ▸ Int.not_lt.mpr (Int.natCast_nonneg
        (List.replicate (f.cachePos - f.fileSize) (0 : UInt8)).length)
      rw [if_neg hpos] at hval
      refine ⟨hval.symm, ?_, rfl⟩
      have hseek' : f.calm.fd.lseekSet f.calm.fileSize =
          ((f.fd.lseekSet f.fileSize).1, (f.fd.lseekSet f.fileSize).2.calm) :=
        OsFile.lseekSet_calm (Int.not_lt.mp hseek)
      rw [hseek']
      dsimp only
      rw [if_neg hseek, Io300File.calm_cachePos, Io300File.calm_fileSize, hn, ok_bind,
        OsFile.write_full_calm hfull]
      dsimp only
      rw [if_neg hpos]
      rfl
  · rename_i he
    cases h
    exact ⟨rfl, if_neg (show ¬ eofIdx f.calm = 0 from he), rfl⟩

theorem fillHole_calm {f f' : Io300File} {rc : Int} (hrc : 0 ≤ rc) (hg : HoleHeeded f)
    (h : fillHole f = .ok (rc, f')) :
    rc = 0 ∧ fillHole f.calm = .ok (0, f'.calm) ∧ f'.cachePos = f.cachePos ∧
      f'.cacheIdx = f.cacheIdx ∧ f.cachePos + f.cacheIdx ≤ f'.fileSize := by
  unfold fillHole at h ⊢
  split at h
  · rename_i hhole
    rw [if_pos (show f.calm.fileSize < f.calm.cachePos + f.calm.cacheIdx from hhole)]
    obtain ⟨f₁, hcache, h⟩ := bind_eq_ok h
    obtain ⟨⟨rc₁, f₂⟩, hdisk, h⟩ := bind_eq_ok h
    obtain ⟨hcalm₁, hf₁⟩ := fillCache_calm hcache
    dsimp only at h
    split at h
    · cases h
      omega
    · rename_i hpos
      have hdiskHeeded : eofIdx f₁ = 0 →
          let zeros := List.replicate (f₁.cachePos - f₁.fileSize) 0
          let written := ((f₁.fd.lseekSet f₁.fileSize).2.write zeros).1
          written < 0 ∨ written = zeros.length := by
        rw [hf₁]
        exact hg hhole
      obtain ⟨rfl, hcalm₂, hf₂⟩ := fillDisk_calm (Int.not_lt.mp hpos) hdiskHeeded hdisk
      cases h
      rw [hcalm₁, ok_bind, hcalm₂]
      have hsame : f₂.cachePos = f.cachePos ∧ f₂.cacheIdx = f.cacheIdx := by
        rw [hf₂, hf₁]
        exact ⟨rfl, rfl⟩
      exact ⟨rfl, rfl, hsame.1, hsame.2, by dsimp only; omega⟩
  · rename_i hhole
    cases h
    refine ⟨rfl, ?_, rfl, rfl, by omega⟩
    exact if_neg (show ¬ f.calm.fileSize < f.calm.cachePos + f.calm.cacheIdx from hhole)

theorem cacheWrite_calm {f f' : Io300File} {buff : List UInt8} {writable : Nat}
    (h : cacheWrite f buff writable = .ok f') :
    cacheWrite f.calm buff writable = .ok f'.calm ∧ f'.cachePos = f.cachePos ∧
      f'.cacheIdx = f.cacheIdx ∧ f'.fileSize = f.fileSize := by
  unfold cacheWrite at h ⊢
  split at h
  · rename_i hpos
    obtain ⟨data, hdata, h⟩ := bind_eq_ok h
    obtain ⟨cache, hcache, h⟩ := bind_eq_ok h
    cases h
    rw [if_pos hpos, hdata, ok_bind, Io300File.calm_cache, Io300File.calm_cacheIdx, hcache]
    exact ⟨rfl, rfl, rfl, rfl⟩
  · rename_i hpos
    cases h
    exact ⟨if_neg hpos, rfl, rfl, rfl⟩

theorem growFile_calm (f : Io300File) (sz : Nat) : growFile f.calm sz = (growFile f sz).calm := by
  rw [growFile_spec, growFile_spec]
  rfl

theorem moveHead_calm {f f' : Io300File} {writable : Nat}
    (hg : f.cacheIdx + writable = cacheSize → FillHeeded cacheSize f)
    (h : moveHead cacheSize f writable = .ok f') :
    moveHead cacheSize f.calm writable = .ok f'.calm ∧
      f'.cachePos + f'.cacheIdx = f.cachePos + f.cacheIdx + writable ∧
      f'.fileSize = f.fileSize := by
  unfold moveHead at h ⊢
  split at h
  · rename_i hend
    rw [if_pos (show f.calm.cacheIdx + writable = cacheSize from hend)]
    obtain ⟨⟨rc, f₁⟩, hflush, h⟩ := bind_eq_ok h
    obtain ⟨f₁', hflush', hfetch⟩ := hg hend
    cases hflush.symm.trans hflush'
    rw [flush_calm hflush, ok_bind]
    have hf₁ := (flush_frame hflush).2
    have hpos : f₁.cachePos = f.cachePos ∧ f₁.fileSize = f.fileSize := by
      rw [hf₁]
      exact ⟨rfl, rfl⟩
    dsimp only at h ⊢
    split at h
    · rename_i hmore
      obtain ⟨⟨rc, f₂⟩, hf₂, h⟩ := bind_eq_ok h
      obtain ⟨f₂', hf₂'⟩ := hfetch hmore
      cases hf₂.symm.trans hf₂'
      cases h
      have hcalm := fetch_calm hf₂
      obtain ⟨hp, hi, hs⟩ := fetch_frame hf₂
      rw [if_pos (show f₁.calm.fileSize > f₁.calm.cachePos + cacheSize from hmore)]
      refine ⟨?_, ?_, ?_⟩
      · show (fetch cacheSize (Io300File.calm { f₁ with
          cachePos := f₁.cachePos + cacheSize, cacheIdx := 0, cacheValid := 0 }) >>= _) = _
        rw [hcalm]
        rfl
      · rw [hp, hi]
        dsimp only
        omega
      · rw [hs]
        exact hpos.2
    · rename_i hmore
      cases h
      rw [if_neg (show ¬ f₁.calm.fileSize > f₁.calm.cachePos + cacheSize from hmore)]
      exact ⟨rfl, by dsimp only; omega, hpos.2⟩
  · rename_i hend
    cases h
    exact ⟨if_neg (show ¬ f.calm.cacheIdx + writable = cacheSize from hend),
      by dsimp only; omega, rfl⟩

theorem writeLoop_calm {fuel : Nat} {f f' : Io300File} {buff : List UInt8} {sz : Nat} {r : Int}
    (hg : WriteHeeded cacheSize fuel f buff sz)
    (hr : f.fileSize < f.cachePos + f.cacheIdx → 0 ≤ r)
    (h : io300WriteLoop cacheSize fuel f buff sz = .ok (r, f')) :
    io300WriteLoop cacheSize fuel f.calm buff sz = .ok (r, f'.calm) := by
  induction fuel generalizing f buff sz r with
  | zero => cases h
  | succ fuel ih =>
    rw [io300WriteLoop] at h ⊢
    obtain ⟨u, hcheck, h⟩ := bind_eq_ok h
    rw [checkInvariants_calm, hcheck, ok_bind]
    obtain ⟨⟨rc, f₁⟩, hfill, h⟩ := bind_eq_ok h
    dsimp only at h
    have hrc : 0 ≤ rc := by
      by_cases hneg : rc < 0
      · rw [if_pos hneg] at h
        cases h
        by_cases hhole : f.fileSize < f.cachePos + f.cacheIdx
        · exact hr hhole
        · cases hfill.symm.trans (fillHole_none (Nat.not_lt.mp hhole))
          exact Int.le_refl 0
      · omega
    obtain ⟨rfl, hcalm₁, hp₁, hi₁, hs₁⟩ := fillHole_calm hrc hg.1 hfill
    rw [if_neg (Int.lt_irrefl 0)] at h
    obtain ⟨room, hroom, h⟩ := bind_eq_ok h
    obtain ⟨-, rfl⟩ := subSize_eq_ok hroom
    obtain ⟨f₂, hcw, h⟩ := bind_eq_ok h
    obtain ⟨hcalm₂, hp₂, hi₂, hs₂⟩ := cacheWrite_calm hcw
    obtain ⟨f₃, hmove, h⟩ := bind_eq_ok h
    obtain ⟨hfillBlock, hrest⟩ := hg.2 f₁ hfill f₂ hcw
    obtain ⟨hcalm₃, hp₃, hs₃⟩ := moveHead_calm hfillBlock hmove
    rw [hcalm₁, ok_bind]
    dsimp only
    rw [if_neg (Int.lt_irrefl 0), Io300File.calm_cacheIdx, hroom, ok_bind, hcalm₂, ok_bind,
      growFile_calm, hcalm₃, ok_bind]
    split at h
    · rename_i hdone
      cases h
      rw [if_pos hdone]
      rfl
    · rename_i hmore
      obtain ⟨rest, hsub, h⟩ := bind_eq_ok h
      obtain ⟨-, rfl⟩ := subSize_eq_ok hsub
      obtain ⟨⟨n, f₄⟩, hrec, h⟩ := bind_eq_ok h
      cases h
      -- the size already covers the request, so no hole is filled further on
      have hcover : ¬ f₃.fileSize < f₃.cachePos + f₃.cacheIdx := by
        rw [hs₃, hp₃, growFile_spec]
        dsimp only
        omega
      rw [if_neg hmore, hsub, ok_bind, ih
        (hrest hmore f₃ hmove) (fun hlt => absurd hlt hcover) hrec]
      rfl

end Student

end SystemsProjects.FileIO
