/-
SystemsProjects.FileIO.FileSize — when `io300_filesize` of the cached
implementation tells the size of the file.

`io300_filesize` asks the kernel, in both implementations. The kernel
does not know the bytes past the end of the file that still sit in the
cache, so the cached answer is right exactly when there are none. Which
calls leave some is a matter of the caller's calls alone: a call that
makes the file longer leaves its last block in the cache, unless it ends
on a block boundary, and the block stays there until the head leaves it.
`tailBlock` follows that block along the uncached run, and `Tail` says
what it means for the cached file.

A file opened with `MODE_READ` is the same file opened for writing as
long as nothing is written (`step_protect`).
-/
import SystemsProjects.FileIO.CacheRefinement

namespace SystemsProjects.FileIO

open SystemsProjects.Base

/-! ## The block that holds unflushed bytes past the end of the file -/

/-- The block with the last byte of the last call that made the file
longer, as long as every call since has ended with the head in it. -/
def tailBlock (cacheSize : Nat) (tail : Option Nat) (n n' : Naive.Io300File) : Option Nat :=
  (if n.fd.disk.length < n'.fd.disk.length then some ((n'.fd.offset - 1) / cacheSize)
    else tail).filter (fun block => block = n'.fd.offset / cacheSize)

/-- The uncached implementation, with the block followed. -/
def watch (cacheSize : Nat) (t : Naive.Io300File × Option Nat) (c : Call) :
    Answer × Naive.Io300File × Option Nat :=
  let r := Naive.step t.1 c
  (r.1, r.2, tailBlock cacheSize t.2 t.1 r.2)

/-- After these calls the head has left the block in which the last call
that made the file longer ended, if there was one. -/
def TailLeft (cacheSize : Nat) (n : Naive.Io300File) (calls : List Call) : Prop :=
  (run (watch cacheSize) (n, none) calls).2.2 = none

instance (cacheSize : Nat) (n : Naive.Io300File) (calls : List Call) :
    Decidable (TailLeft cacheSize n calls) :=
  inferInstanceAs (Decidable (_ = none))

theorem run_watch (cacheSize : Nat) (t : Naive.Io300File × Option Nat) (calls : List Call) :
    (run (watch cacheSize) t calls).1 = (run Naive.step t.1 calls).1 ∧
      (run (watch cacheSize) t calls).2.1 = (run Naive.step t.1 calls).2 := by
  induction calls generalizing t with
  | nil => exact ⟨rfl, rfl⟩
  | cons c cs ih =>
    obtain ⟨h₁, h₂⟩ := ih (watch cacheSize t c).2
    simp only [run_cons, h₁, h₂]
    exact ⟨rfl, rfl⟩

/-- What the followed block says about the cached file: without one the
disk has the length of the contents, with one it is shorter and the file
ends in that block. -/
def Tail (cacheSize : Nat) (f : Student.Io300File) (D : List UInt8) : Option Nat → Prop
  | none => f.fd.disk.length = D.length
  | some block => block = f.cachePos / cacheSize ∧ f.cachePos < D.length ∧
      D.length ≤ f.cachePos + cacheSize ∧ f.fd.disk.length < D.length

section

variable {cacheSize : Nat} {f f' : Student.Io300File} {D : List UInt8} {tail : Option Nat}

/-- Two cached blocks with the same number are the same block. -/
theorem pos_eq_of_block {p q : Nat} (hp : p % cacheSize = 0)
    (hq : q % cacheSize = 0) (h : p / cacheSize = q / cacheSize) : p = q := by
  have h₁ := Nat.div_add_mod p cacheSize
  have h₂ := Nat.div_add_mod q cacheSize
  rw [h] at h₁
  omega

/-- Seeking and reading keep the unflushed bytes exactly while the head
stays in their block. -/
theorem Tail.settled (ht : Tail cacheSize f D tail)
    (h : Student.Coherent cacheSize f D) (h' : Student.Coherent cacheSize f' D)
    (hs : Student.Settled f f' D) :
    Tail cacheSize f' D
      (tail.filter (fun block => block = (f'.cachePos + f'.cacheIdx) / cacheSize)) := by
  rw [Student.block_of_head h'.posMod h'.idxLt]
  cases tail with
  | none =>
    simp only [Option.filter_none, Tail] at ht ⊢
    rcases hs with ⟨-, hd⟩ | ⟨-, hd⟩
    · rw [hd]
    · rw [hd, ht]
  | some block =>
    obtain ⟨hb, hpos, hend, hlt⟩ := ht
    rcases hs with ⟨hne, hd⟩ | ⟨heq, hd⟩
    · -- the head has left the block
      have hne' : ¬ block = f'.cachePos / cacheSize := by
        intro he
        exact hne (pos_eq_of_block h'.posMod h.posMod (by rw [← he, hb]))
      simp only [Option.filter_some, hne', decide_false, Bool.false_eq_true, if_false, Tail, hd]
    · have he : block = f'.cachePos / cacheSize := by rw [heq, hb]
      simp only [Option.filter_some, ← he, decide_true, if_true, Tail]
      exact ⟨trivial, by omega, by omega, by rw [hd]; exact hlt⟩

/-- A write that makes the file longer leaves its last block unflushed,
unless it ends at the start of a block. -/
theorem Tail.longer (hC : 0 < cacheSize) {D' : List UInt8} {head : Nat}
    (h : Student.Coherent cacheSize f D) (h' : Student.Coherent cacheSize f' D')
    (hhead : f'.cachePos + f'.cacheIdx = head) (hlen : D'.length = head)
    (hlonger : D.length < D'.length) (ha : Student.Advance f f' D') :
    Tail cacheSize f' D' ((some ((head - 1) / cacheSize)).filter
      (fun block => block = head / cacheSize)) := by
  have hblock := Student.block_of_head h'.posMod h'.idxLt
  rw [hhead] at hblock
  by_cases h0 : f'.cacheIdx = 0
  · have hne : ¬ (head - 1) / cacheSize = head / cacheSize := by
      have h₁ := Nat.div_add_mod head cacheSize
      have hmod : head % cacheSize = 0 := by rw [← hhead, h0, Nat.add_zero]; exact h'.posMod
      have hlt : (head - 1) / cacheSize < head / cacheSize := by
        rw [Nat.div_lt_iff_lt_mul hC, Nat.mul_comm]
        omega
      omega
    simp only [Option.filter_some, hne, decide_false, Bool.false_eq_true, if_false, Tail,
      ha.boundary h0]
  · have hi := h'.idxLt
    have heq : (head - 1) / cacheSize = f'.cachePos / cacheSize := by
      rw [show head - 1 = f'.cachePos + (f'.cacheIdx - 1) by omega]
      exact Student.block_of_head h'.posMod (by omega)
    have hle := h.toCaches.disk_le
    have hb := ha.bound
    simp only [Option.filter_some, heq, hblock, decide_true, if_true, Tail]
    exact ⟨trivial, by omega, by omega, by omega⟩

/-- A write inside the file. -/
theorem Tail.within {D' : List UInt8} (ht : Tail cacheSize f D tail)
    (h : Student.Coherent cacheSize f D) (h' : Student.Coherent cacheSize f' D')
    (hhead : f.cachePos + f.cacheIdx ≤ f'.cachePos + f'.cacheIdx)
    (hin : f'.cachePos + f'.cacheIdx ≤ D.length) (hlen : D'.length = D.length)
    (ha : Student.Advance f f' D') :
    Tail cacheSize f' D'
      (tail.filter (fun block => block = (f'.cachePos + f'.cacheIdx) / cacheSize)) := by
  have hle' := h'.toCaches.disk_le
  have hg := ha.grows
  have hb := ha.bound
  rw [Student.block_of_head h'.posMod h'.idxLt]
  cases tail with
  | none =>
    simp only [Option.filter_none, Tail] at ht ⊢
    omega
  | some block =>
    obtain ⟨hblock, hpos, hend, hlt⟩ := ht
    by_cases he : block = f'.cachePos / cacheSize
    · have heq : f'.cachePos = f.cachePos :=
        pos_eq_of_block h'.posMod h.posMod (by rw [← he, hblock])
      simp only [Option.filter_some, ← he, decide_true, if_true, Tail]
      exact ⟨trivial, by omega, by omega, by omega⟩
    · -- the file ends in the block left behind, so the head is at its end
      have hmono := Student.block_mono h.posMod h.idxLt h'.posMod h'.idxLt hhead
      have hne : f'.cachePos ≠ f.cachePos := by
        intro heq
        exact he (by rw [heq, hblock])
      have hnext : f.cachePos + cacheSize ≤ f'.cachePos := by
        have h₁ := Nat.div_add_mod f.cachePos cacheSize
        have h₂ := Nat.div_add_mod f'.cachePos cacheSize
        have hq : f.cachePos / cacheSize + 1 ≤ f'.cachePos / cacheSize := by
          rcases Nat.lt_or_ge (f.cachePos / cacheSize) (f'.cachePos / cacheSize) with hlt | hge
          · exact hlt
          · have := Nat.div_le_div_right (c := cacheSize) hmono
            omega
        have hm := Nat.mul_le_mul_left cacheSize hq
        have hp := h.posMod
        have hp' := h'.posMod
        rw [Nat.mul_add, Nat.mul_one] at hm
        omega
      simp only [Option.filter_some, he, decide_false, Bool.false_eq_true, if_false, Tail,
        ha.boundary (by omega)]

/-! ## The followed block along a run -/

variable {n n' : Naive.Io300File}

theorem Refines.tail_settled (h : Refines cacheSize f n) (ht : Tail cacheSize f n.fd.disk tail)
    (h' : Refines cacheSize f' n') (hdisk : n'.fd.disk = n.fd.disk)
    (hs : Student.Settled f f' n.fd.disk) :
    Tail cacheSize f' n'.fd.disk (tailBlock cacheSize tail n n') := by
  have hco' := h'.coherent
  have hkept : ¬ n.fd.disk.length < n'.fd.disk.length := by
    rw [hdisk]
    exact Nat.lt_irrefl _
  rw [tailBlock, if_neg hkept, h'.head, hdisk]
  rw [hdisk] at hco'
  exact ht.settled h.coherent hco' hs

theorem Refines.tail_advance (hC : 0 < cacheSize) (h : Refines cacheSize f n)
    (ht : Tail cacheSize f n.fd.disk tail) (h' : Refines cacheSize f' n')
    (hhead : n.fd.offset ≤ n'.fd.offset)
    (hlen : n'.fd.disk.length = max n.fd.disk.length n'.fd.offset)
    (ha : Student.Advance f f' n'.fd.disk) :
    Tail cacheSize f' n'.fd.disk (tailBlock cacheSize tail n n') := by
  have hnew := h'.head
  by_cases hlonger : n.fd.disk.length < n'.fd.disk.length
  · rw [tailBlock, if_pos hlonger]
    exact Tail.longer hC h.coherent h'.coherent hnew.symm (by omega) hlonger ha
  · have hold := h.head
    rw [tailBlock, if_neg hlonger, hnew]
    exact ht.within h.coherent h'.coherent (by omega) (by omega) (by omega) ha

/-- The refinement relation, with the followed block. -/
def Watched (cacheSize : Nat) (f : Student.Io300File) (t : Naive.Io300File × Option Nat) : Prop :=
  Refines cacheSize f t.1 ∧ Tail cacheSize f t.1.fd.disk t.2

theorem Watched.seek (hC : 0 < cacheSize) (h : Refines cacheSize f n)
    (ht : Tail cacheSize f n.fd.disk tail) (pos : Int) :
    ∃ f', Student.io300Seek cacheSize f pos = .ok ((Naive.io300Seek n pos).1, f') ∧
      Watched cacheSize f' ((Naive.io300Seek n pos).2,
        tailBlock cacheSize tail n (Naive.io300Seek n pos).2) := by
  obtain ⟨f', hcall, hrel⟩ := h.seek hC pos
  have hdisk : (Naive.io300Seek n pos).2.fd.disk = n.fd.disk := n.fd.lseekSet_disk pos
  refine ⟨f', hcall, hrel, h.tail_settled ht hrel hdisk ?_⟩
  by_cases hneg : pos < 0
  · rw [Student.io300Seek_neg h.coherent hneg] at hcall
    obtain ⟨-, rfl⟩ := Prod.mk.inj (Except.ok.inj hcall)
    exact Or.inr ⟨rfl, rfl⟩
  · obtain ⟨p, rfl⟩ := Int.eq_ofNat_of_zero_le (Int.not_lt.mp hneg)
    obtain ⟨f₁, hrun, -, -, hs⟩ := Student.io300Seek_run hC h.coherent p
    rw [hrun] at hcall
    obtain ⟨-, rfl⟩ := Prod.mk.inj (Except.ok.inj hcall)
    exact hs

theorem Watched.read (hC : 0 < cacheSize) (h : Refines cacheSize f n)
    (ht : Tail cacheSize f n.fd.disk tail) (buff : List UInt8) {sz : Nat}
    (hbuff : sz ≤ buff.length) :
    ∃ f', Student.io300Read cacheSize f buff sz =
        .ok ((Naive.io300Read n buff sz).1, (Naive.io300Read n buff sz).2.1, f') ∧
      Watched cacheSize f' ((Naive.io300Read n buff sz).2.2,
        tailBlock cacheSize tail n (Naive.io300Read n buff sz).2.2) := by
  obtain ⟨f', hcall, hrel⟩ := h.read hC buff hbuff
  have hdisk : (Naive.io300Read n buff sz).2.2.fd.disk = n.fd.disk := n.fd.read_disk sz
  refine ⟨f', hcall, hrel, h.tail_settled ht hrel hdisk ?_⟩
  obtain ⟨f₁, hrun, -, -, hs⟩ := Student.io300Read_run hC h.coherent hbuff
  rw [hrun] at hcall
  obtain ⟨-, hstate⟩ := Prod.mk.inj (Except.ok.inj hcall)
  obtain ⟨-, rfl⟩ := Prod.mk.inj hstate
  exact hs

theorem Watched.write (hC : 0 < cacheSize) (h : Refines cacheSize f n)
    (ht : Tail cacheSize f n.fd.disk tail) (buff : List UInt8) {sz : Nat} (h1 : 1 ≤ sz)
    (hbuff : sz ≤ buff.length) :
    ∃ f', Student.io300Write cacheSize f buff sz = .ok ((Naive.io300Write n buff sz).1, f') ∧
      Watched cacheSize f' ((Naive.io300Write n buff sz).2,
        tailBlock cacheSize tail n (Naive.io300Write n buff sz).2) := by
  obtain ⟨f', hcall, hrel, -⟩ := h.write hC buff h1 hbuff
  refine ⟨f', hcall, hrel, ?_⟩
  obtain ⟨f₁, hrun, -, -, ha⟩ := Student.io300Write_run hC h.coherent h1 hbuff
  rw [hrun] at hcall
  obtain ⟨-, rfl⟩ := Prod.mk.inj (Except.ok.inj hcall)
  have hlen : (buff.take sz).length = sz := by
    rw [List.length_take]
    omega
  have hne : buff.take sz ≠ [] := by
    intro he
    rw [he, List.length_nil] at hlen
    omega
  have hafter : (Naive.io300Write n buff sz).2.fd =
      { n.fd with disk := overwrite 0 n.fd.disk n.fd.offset (buff.take sz),
                  offset := n.fd.offset + sz } := by
    rw [Naive.io300Write, OsFile.write_reliable h.reliable, hlen]
  rw [← h.head] at ha
  refine h.tail_advance hC ht hrel ?_ ?_ ?_
  · rw [hafter]
    exact Nat.le_add_right _ _
  · rw [hafter, length_overwrite _ _ _ hne, hlen]
  · rw [hafter]
    exact ha

theorem watched_step (hC : 0 < cacheSize) :
    StepRefines (Watched cacheSize) Call.Admissible (Student.step cacheSize)
      (watch cacheSize) := by
  rintro f ⟨n, tail⟩ call ⟨h, ht⟩ hadm
  cases call with
  | seek pos =>
    obtain ⟨f', hcall, hw⟩ := Watched.seek hC h ht pos
    exact ⟨f', by simp [Student.step, watch, Naive.step, hcall], hw⟩
  | read buff sz =>
    obtain ⟨f', hcall, hw⟩ := Watched.read hC h ht buff hadm
    exact ⟨f', by simp [Student.step, watch, Naive.step, hcall], hw⟩
  | readc =>
    obtain ⟨f', hcall, hrel⟩ := h.readc hC
    obtain ⟨f₁, hread, hw⟩ := Watched.read hC h ht [0] (Nat.le_refl 1)
    simp only [Student.io300Readc, h.coherent.toCaches.check, ok_bind, hread,
      pure_eq_ok] at hcall
    obtain ⟨hval, rfl⟩ := Prod.mk.inj (Except.ok.inj hcall)
    refine ⟨f₁, ?_, hw⟩
    simp only [Student.step, Student.io300Readc, h.coherent.toCaches.check, ok_bind,
      hread, pure_eq_ok, hval]
    rfl
  | write buff sz =>
    obtain ⟨f', hcall, hw⟩ := Watched.write hC h ht buff hadm.1 hadm.2
    exact ⟨f', by simp [Student.step, watch, Naive.step, hcall], hw⟩
  | writec ch =>
    obtain ⟨f', hcall, hrel⟩ := h.writec hC hadm.1 hadm.2
    obtain ⟨f₁, hwrite, hw⟩ :=
      Watched.write hC h ht [UInt8.ofInt ch] (Nat.le_refl 1) (Nat.le_refl 1)
    simp only [Student.io300Writec, h.coherent.toCaches.check, ok_bind, hwrite,
      pure_eq_ok] at hcall
    obtain ⟨hval, rfl⟩ := Prod.mk.inj (Except.ok.inj hcall)
    refine ⟨f₁, ?_, hw⟩
    simp only [Student.step, Student.io300Writec, h.coherent.toCaches.check, ok_bind,
      hwrite, pure_eq_ok, hval]
    rfl

end

/-! ## Files opened for reading -/

/-- The same description, opened with `O_RDONLY`. -/
def OsFile.protect (k : OsFile) : OsFile := { k with writable := false }

theorem OsFile.next_protect (k : OsFile) : k.protect.next = (k.next.1, k.next.2.protect) := by
  simp only [OsFile.next, OsFile.protect]
  split <;> rfl

theorem OsFile.lseekSet_protect (k : OsFile) (off : Int) :
    k.protect.lseekSet off = ((k.lseekSet off).1, (k.lseekSet off).2.protect) := by
  rw [OsFile.lseekSet, OsFile.lseekSet, OsFile.next_protect]
  rcases k.next with ⟨o, k'⟩
  cases o with
  | fail => rfl
  | full => dsimp only; split <;> rfl
  | short m => dsimp only; split <;> rfl

theorem OsFile.read_protect (k : OsFile) (n : Nat) :
    k.protect.read n = ((k.read n).1, (k.read n).2.1, (k.read n).2.2.protect) := by
  rw [OsFile.read, OsFile.read, OsFile.next_protect]
  dsimp only [OsFile.protect]
  split <;> rfl

/-- A call that only moves the head or reads. -/
def Call.Reads : Call → Prop
  | .seek _ | .read _ _ | .readc => True
  | .write _ _ | .writec _ => False

namespace Student

def Io300File.protect (f : Io300File) : Io300File := { f with fd := f.fd.protect }

variable {cacheSize : Nat} {f f' : Io300File}

theorem flush_clean (hd : f.isDirty = false) {r : Int} (h : flush cacheSize f = .ok (r, f')) :
    flush cacheSize f.protect = .ok (r, f'.protect) ∧ f'.isDirty = false := by
  unfold flush at h ⊢
  obtain ⟨u, hcheck, h⟩ := bind_eq_ok h
  rw [if_pos hd] at h
  cases h
  rw [show checkInvariants cacheSize f.protect = .ok u from hcheck, ok_bind,
    if_pos (show f.protect.isDirty = false from hd)]
  exact ⟨rfl, hd⟩

theorem fetch_protect {r : Int} (h : fetch cacheSize f = .ok (r, f')) :
    fetch cacheSize f.protect = .ok (r, f'.protect) ∧ f'.isDirty = f.isDirty := by
  unfold fetch at h ⊢
  obtain ⟨u, hcheck, h⟩ := bind_eq_ok h
  rw [show checkInvariants cacheSize f.protect = .ok u from hcheck, ok_bind]
  simp only [Io300File.protect, OsFile.lseekSet_protect, OsFile.read_protect]
  split at h
  · rename_i hpos
    cases h
    rw [if_pos hpos]
    exact ⟨rfl, rfl⟩
  · rename_i hpos
    rw [if_neg hpos]
    dsimp only at h ⊢
    split at h
    · rename_i hseek
      cases h
      rw [if_pos hseek]
      exact ⟨rfl, rfl⟩
    · rename_i hseek
      rw [if_neg hseek]
      split at h
      · rename_i hread
        cases h
        rw [if_pos hread]
        exact ⟨rfl, rfl⟩
      · rename_i hread
        obtain ⟨cache, hstore, h⟩ := bind_eq_ok h
        cases h
        rw [if_neg hread, hstore]
        exact ⟨rfl, rfl⟩

theorem nextBlock_protect (hd : f.isDirty = false) {r : Int}
    (h : nextBlock cacheSize f = .ok (r, f')) :
    nextBlock cacheSize f.protect = .ok (r, f'.protect) ∧ f'.isDirty = false := by
  unfold nextBlock at h ⊢
  obtain ⟨⟨r₁, f₁⟩, hflush, h⟩ := bind_eq_ok h
  obtain ⟨hflush', hd₁⟩ := flush_clean hd hflush
  rw [hflush', ok_bind]
  dsimp only at h ⊢
  split at h
  · rename_i hneg
    cases h
    rw [if_pos hneg]
    exact ⟨rfl, hd₁⟩
  · rename_i hneg
    obtain ⟨⟨r₂, f₂⟩, hfetch, h⟩ := bind_eq_ok h
    obtain ⟨hfetch', hd₂⟩ := fetch_protect hfetch
    cases h
    rw [if_neg hneg]
    exact ⟨by rw [show ({ f₁.protect with cachePos := f₁.protect.cachePos + cacheSize,
                                          cacheIdx := 0 } : Io300File) =
      ({ f₁ with cachePos := f₁.cachePos + cacheSize, cacheIdx := 0 } : Io300File).protect
      from rfl, hfetch']; rfl, hd₂.trans hd₁⟩

theorem io300ReadLoop_protect (fuel : Nat) (hd : f.isDirty = false) (buff : List UInt8)
    (sz : Nat) {r : Int} {out : List UInt8}
    (h : io300ReadLoop cacheSize fuel f buff sz = .ok (r, out, f')) :
    io300ReadLoop cacheSize fuel f.protect buff sz = .ok (r, out, f'.protect) ∧
      f'.isDirty = false := by
  induction fuel generalizing f buff sz r out f' with
  | zero => cases h
  | succ fuel ih =>
    unfold io300ReadLoop at h ⊢
    obtain ⟨u, hcheck, h⟩ := bind_eq_ok h
    rw [show checkInvariants cacheSize f.protect = .ok u from hcheck, ok_bind]
    simp only [show f.protect.cachePos = f.cachePos from rfl,
      show f.protect.cacheIdx = f.cacheIdx from rfl,
      show f.protect.cacheValid = f.cacheValid from rfl,
      show f.protect.fileSize = f.fileSize from rfl, show f.protect.cache = f.cache from rfl]
    split at h
    · rename_i heof
      cases h
      rw [if_pos heof]
      exact ⟨rfl, hd⟩
    · rename_i heof
      rw [if_neg heof]
      obtain ⟨room, hroom, h⟩ := bind_eq_ok h
      rw [hroom, ok_bind]
      dsimp only at h
      generalize min sz (min room (if f.cacheIdx < f.cacheValid then
        f.cacheValid - f.cacheIdx else 0)) = readable at h ⊢
      obtain ⟨data, hdata, h⟩ := bind_eq_ok h
      obtain ⟨buff₁, hbuff₁, h⟩ := bind_eq_ok h
      simp only [hdata, hbuff₁, ok_bind]
      split at h
      · rename_i hdone
        rw [if_pos hdone]
        split at h
        · rename_i hend
          rw [if_pos hend]
          obtain ⟨⟨r₁, f₁⟩, hnext, h⟩ := bind_eq_ok h
          obtain ⟨hnext', hd₁⟩ := nextBlock_protect (by exact hd) hnext
          cases h
          exact ⟨by
            dsimp only [Io300File.protect] at hnext' ⊢
            rw [hnext']
            rfl, hd₁⟩
        · rename_i hend
          rw [if_neg hend]
          cases h
          exact ⟨rfl, hd⟩
      · rename_i hdone
        rw [if_neg hdone]
        obtain ⟨⟨r₁, f₁⟩, hnext, h⟩ := bind_eq_ok h
        obtain ⟨hnext', hd₁⟩ := nextBlock_protect hd hnext
        rw [hnext', ok_bind]
        dsimp only at h ⊢
        split at h
        · rename_i hneg
          rw [if_pos hneg]
          cases h
          exact ⟨rfl, hd₁⟩
        · rename_i hneg
          rw [if_neg hneg]
          obtain ⟨rest, hrest, h⟩ := bind_eq_ok h
          obtain ⟨⟨m, tail, f₂⟩, hrec, h⟩ := bind_eq_ok h
          obtain ⟨hrec', hd₂⟩ := ih hd₁ _ _ hrec
          cases h
          rw [hrest, ok_bind, hrec']
          exact ⟨rfl, hd₂⟩

theorem io300Seek_protect (hd : f.isDirty = false) {pos r : Int}
    (h : io300Seek cacheSize f pos = .ok (r, f')) :
    io300Seek cacheSize f.protect pos = .ok (r, f'.protect) ∧ f'.isDirty = false := by
  unfold io300Seek at h ⊢
  obtain ⟨u, hcheck, h⟩ := bind_eq_ok h
  rw [show checkInvariants cacheSize f.protect = .ok u from hcheck, ok_bind]
  split at h
  · rename_i hneg
    cases h
    rw [if_pos hneg]
    exact ⟨rfl, hd⟩
  · rename_i hneg
    rw [if_neg hneg]
    dsimp only at h ⊢
    split at h
    · rename_i hin
      cases h
      rw [if_pos (by exact hin)]
      exact ⟨rfl, hd⟩
    · rename_i hout
      obtain ⟨⟨r₁, f₁⟩, hflush, h⟩ := bind_eq_ok h
      obtain ⟨⟨r₂, f₂⟩, hfetch, h⟩ := bind_eq_ok h
      obtain ⟨hflush', hd₁⟩ := flush_clean hd hflush
      obtain ⟨hfetch', hd₂⟩ := fetch_protect hfetch
      cases h
      rw [if_neg (by exact hout), hflush', ok_bind]
      exact ⟨by
        dsimp only [Io300File.protect] at hfetch' ⊢
        rw [hfetch']
        rfl, hd₂.trans hd₁⟩

theorem step_protect {c : Call} (hc : c.Reads) (hd : f.isDirty = false) {a : Answer}
    (h : step cacheSize f c = .ok (a, f')) :
    step cacheSize f.protect c = .ok (a, f'.protect) ∧ f'.isDirty = false := by
  cases c with
  | seek pos =>
    dsimp only [step] at h ⊢
    obtain ⟨⟨r, f₁⟩, hseek, h⟩ := bind_eq_ok h
    obtain ⟨hseek', hd₁⟩ := io300Seek_protect hd hseek
    cases h
    exact ⟨by rw [hseek']; rfl, hd₁⟩
  | read buff sz =>
    dsimp only [step, io300Read] at h ⊢
    obtain ⟨⟨r, out, f₁⟩, hread, h⟩ := bind_eq_ok h
    obtain ⟨hread', hd₁⟩ := io300ReadLoop_protect _ hd _ _ hread
    cases h
    exact ⟨by rw [show f.protect.fileSize = f.fileSize from rfl, hread']; rfl, hd₁⟩
  | readc =>
    dsimp only [step, io300Readc, io300Read] at h ⊢
    obtain ⟨⟨r, f₁⟩, hreadc, h⟩ := bind_eq_ok h
    obtain ⟨u, hcheck, hreadc⟩ := bind_eq_ok hreadc
    obtain ⟨⟨r, out, f₂⟩, hread, hreadc⟩ := bind_eq_ok hreadc
    obtain ⟨hread', hd₁⟩ := io300ReadLoop_protect _ hd _ _ hread
    cases hreadc
    cases h
    exact ⟨by
      rw [show checkInvariants cacheSize f.protect = .ok u from hcheck, ok_bind,
        show f.protect.fileSize = f.fileSize from rfl, hread']; rfl, hd₁⟩
  | write buff sz => exact hc.elim
  | writec ch => exact hc.elim

theorem runM_protect {calls : List Call} (hcalls : ∀ c ∈ calls, c.Reads)
    (hd : f.isDirty = false) {as : List Answer}
    (h : runM (step cacheSize) f calls = .ok (as, f')) :
    runM (step cacheSize) f.protect calls = .ok (as, f'.protect) := by
  induction calls generalizing f as with
  | nil =>
    cases h
    rfl
  | cons c cs ih =>
    obtain ⟨a, f₁, as₁, hstep, hrun, rfl⟩ := runM_cons_inv h
    obtain ⟨hstep', hd₁⟩ := step_protect (hcalls c List.mem_cons_self) hd hstep
    exact runM_cons_ok hstep' (ih (fun d hd => hcalls d (List.mem_cons_of_mem c hd)) hd₁ hrun)

/-- What `io300_open` does once the file is open. -/
theorem io300Open_of_osOpen {mode : Nat} {content fresh : List UInt8} {fd : OsFile}
    (ho : osOpen mode content [] = some fd) (hs : fd.script = []) :
    io300Open cacheSize mode content [] fresh = (do
      let (bytesFetched, f) ← fetch cacheSize
        { fd := { fd with offset := 0 }, cache := fresh, cachePos := 0, cacheIdx := 0,
          cacheValid := min fd.disk.length cacheSize, isDirty := false,
          fileSize := fd.disk.length }
      if bytesFetched < 0 then pure none
      else
        let f := if bytesFetched < cacheSize then { f with cacheValid := bytesFetched.toNat } else f
        checkInvariants cacheSize f
        pure (some f)) := by
  have hend : fd.lseekEnd = ((fd.disk.length : Int), { fd with offset := fd.disk.length }) := by
    simp [OsFile.lseekEnd, OsFile.next, hs]
  have hset : OsFile.lseekSet { fd with offset := fd.disk.length } 0 =
      (0, { fd with offset := 0 }) := by
    simp [OsFile.lseekSet, OsFile.next, hs]
  have hlen : ¬ ((fd.disk.length : Int) < 0) := by omega
  simp only [io300Open, ho, hend, if_neg hlen, hset, Int.lt_irrefl, if_false,
    Int.toNat_natCast]

theorem io300Open_clean {mode : Nat} {content fresh : List UInt8} {fd : OsFile}
    (ho : osOpen mode content [] = some fd) (hs : fd.script = [])
    (h : io300Open cacheSize mode content [] fresh = .ok (some f)) : f.isDirty = false := by
  rw [io300Open_of_osOpen ho hs] at h
  obtain ⟨⟨r, f₁⟩, hfetch, h⟩ := bind_eq_ok h
  have hd := (fetch_protect hfetch).2
  dsimp only at h
  split at h
  · cases h
  · obtain ⟨u, -, h⟩ := bind_eq_ok h
    cases h
    split <;> exact hd

/-- Opening for reading is opening for both, less the right to write. -/
theorem io300Open_protect {content fresh : List UInt8}
    (h : io300Open cacheSize MODE_RDWR content [] fresh = .ok (some f)) :
    io300Open cacheSize MODE_READ content [] fresh = .ok (some f.protect) := by
  have hw : osOpen MODE_RDWR content [] = some ⟨content, 0, true, []⟩ := rfl
  have hr : osOpen MODE_READ content [] = some ⟨content, 0, false, []⟩ := rfl
  rw [io300Open_of_osOpen hw rfl] at h
  rw [io300Open_of_osOpen hr rfl]
  obtain ⟨⟨r, f₁⟩, hfetch, h⟩ := bind_eq_ok h
  have hfetch' := (fetch_protect hfetch).1
  dsimp only [Io300File.protect, OsFile.protect] at hfetch'
  rw [hfetch', ok_bind]
  dsimp only at h ⊢
  split at h
  · cases h
  · rename_i hr
    obtain ⟨u, hcheck, h⟩ := bind_eq_ok h
    cases h
    rw [if_neg hr]
    split at hcheck
    · rename_i hlt
      have hcheck' : checkInvariants cacheSize
          (Io300File.protect { f₁ with cacheValid := r.toNat }) = .ok u := hcheck
      dsimp only [Io300File.protect, OsFile.protect] at hcheck' ⊢
      rw [if_pos hlt, hcheck', if_pos hlt]
      rfl
    · rename_i hge
      have hcheck' : checkInvariants cacheSize f₁.protect = .ok u := hcheck
      dsimp only [Io300File.protect, OsFile.protect] at hcheck' ⊢
      rw [if_neg hge, hcheck', if_neg hge]
      rfl

theorem io300Filesize_eq (hcheck : checkInvariants cacheSize f = .ok ())
    (hscript : f.fd.script = []) :
    io300Filesize cacheSize f = .ok ((f.fd.disk.length : Int), f) := by
  simp only [io300Filesize, hcheck, ok_bind, OsFile.fstat_of_script hscript, pure_eq_ok]

end Student

theorem Naive.step_reads {n : Naive.Io300File} (hs : n.fd.script = []) {c : Call}
    (hc : c.Reads) : (Naive.step n c).2.fd.disk = n.fd.disk ∧
      (Naive.step n c).2.fd.script = [] := by
  have hnext : n.fd.next = (.full, n.fd) := by simp [OsFile.next, hs]
  cases c with
  | seek pos =>
    refine ⟨n.fd.lseekSet_disk pos, ?_⟩
    simp only [step, io300Seek, OsFile.lseekSet, hnext]
    split <;> exact hs
  | read buff sz =>
    refine ⟨n.fd.read_disk sz, ?_⟩
    simp only [step, io300Read, OsFile.read, hnext, Outcome.transfer]
    exact hs
  | readc =>
    refine ⟨n.fd.read_disk 1, ?_⟩
    simp only [step, io300Readc, OsFile.read, hnext, Outcome.transfer]
    exact hs
  | write buff sz => exact hc.elim
  | writec ch => exact hc.elim

theorem Naive.io300Filesize_eq {n : Naive.Io300File} (hs : n.fd.script = []) :
    (Naive.io300Filesize n).1 = (n.fd.disk.length : Int) := by
  rw [Naive.io300Filesize, OsFile.fstat_of_script hs]

/-- Reading leaves the file alone, and no block behind. -/
theorem watch_reads (cacheSize : Nat) {n : Naive.Io300File} (hs : n.fd.script = [])
    {calls : List Call} (hcalls : ∀ c ∈ calls, c.Reads) :
    TailLeft cacheSize n calls ∧
      (Naive.io300Filesize (run Naive.step n calls).2).1 = (n.fd.disk.length : Int) := by
  have hinv : ((run (watch cacheSize) (n, none) calls).2.1.fd.disk = n.fd.disk ∧
      (run (watch cacheSize) (n, none) calls).2.1.fd.script = []) ∧
      (run (watch cacheSize) (n, none) calls).2.2 = none := by
    refine run_invariant (I := fun t : Naive.Io300File × Option Nat =>
      (t.1.fd.disk = n.fd.disk ∧ t.1.fd.script = []) ∧ t.2 = none) (fun c hc t ht => ?_)
      ⟨⟨rfl, hs⟩, rfl⟩
    obtain ⟨hd, hs'⟩ := Naive.step_reads ht.1.2 (hcalls c hc)
    refine ⟨⟨hd.trans ht.1.1, hs'⟩, ?_⟩
    have hkept : ¬ t.1.fd.disk.length < (Naive.step t.1 c).2.fd.disk.length := by
      rw [hd]
      exact Nat.lt_irrefl _
    simp only [watch, tailBlock, if_neg hkept, ht.2, Option.filter_none]
  refine ⟨hinv.2, ?_⟩
  rw [← (run_watch cacheSize (n, none) calls).2, Naive.io300Filesize_eq hinv.1.2, hinv.1.1]

/-! ## The size -/

theorem Watched.filesize {cacheSize : Nat} {f : Student.Io300File}
    {t : Naive.Io300File × Option Nat} (h : Watched cacheSize f t) :
    Student.io300Filesize cacheSize f = .ok ((f.fd.disk.length : Int), f) ∧
      ((f.fd.disk.length : Int) = (Naive.io300Filesize t.1).1 ↔ t.2 = none) := by
  obtain ⟨hrel, htail⟩ := h
  have hco := hrel.coherent
  refine ⟨Student.io300Filesize_eq hco.toCaches.check hco.reliable.script, ?_⟩
  rw [Naive.io300Filesize_eq hrel.reliable.script]
  cases ht : t.2 with
  | none =>
    rw [ht] at htail
    simp only [Tail] at htail
    simp [htail]
  | some block =>
    rw [ht] at htail
    obtain ⟨-, -, -, hlt⟩ := htail
    constructor
    · intro he
      omega
    · intro he
      cases he

/-- Opened for writing. -/
theorem filesize_writable {cacheSize : Nat} (hC : 0 < cacheSize) {mode : Nat}
    (hmode : mode = MODE_WRITE ∨ mode = MODE_RDWR) (content : List UInt8) {fresh : List UInt8}
    (hfresh : fresh.length = cacheSize) (calls : List Call)
    (hcalls : ∀ c ∈ calls, c.Admissible) :
    ∃ f n as f', Student.io300Open cacheSize mode content [] fresh = .ok (some f) ∧
      Naive.io300Open mode content [] = some n ∧ f.isDirty = false ∧
      runM (Student.step cacheSize) f calls = .ok (as, f') ∧
      Watched cacheSize f' (run (watch cacheSize) (n, none) calls).2 := by
  obtain ⟨f, n, hf, hn, hrel⟩ := open_refines hC hmode content hfresh
  obtain ⟨fd, hopen, hs⟩ : ∃ fd, osOpen mode content [] = some fd ∧ fd.script = [] := by
    rcases hmode with rfl | rfl
    · exact ⟨⟨[], 0, true, []⟩, rfl, rfl⟩
    · exact ⟨⟨content, 0, true, []⟩, rfl, rfl⟩
  have hclean := Student.io300Open_clean hopen hs hf
  have hw : Watched cacheSize f (n, none) := ⟨hrel, by rw [Tail, hrel.coherent.clean hclean]⟩
  obtain ⟨f', hrun, hw'⟩ := runM_refines (watched_step hC) hw calls hcalls
  exact ⟨f, n, _, f', hf, hn, hclean, hrun, hw'⟩

/-- **`io300_filesize` tells the logical size exactly when the tail of
the file is not in the cache**: for every cache size, mode, initial
contents and sequence of successful calls, the cached implementation's
size is the uncached one's if and only if the head has left the block in
which the last call that made the file longer ended. -/
theorem filesize_agrees_iff {cacheSize : Nat} (hC : 0 < cacheSize) {mode : Nat}
    (hmode : mode = MODE_READ ∨ mode = MODE_WRITE ∨ mode = MODE_RDWR) (content : List UInt8)
    {fresh : List UInt8} (hfresh : fresh.length = cacheSize) (calls : List Call)
    (hcalls : ∀ c ∈ calls, c.Admissible)
    (hreads : mode = MODE_READ → ∀ c ∈ calls, c.Reads) :
    ∃ f n as f' size, Student.io300Open cacheSize mode content [] fresh = .ok (some f) ∧
      Naive.io300Open mode content [] = some n ∧
      runM (Student.step cacheSize) f calls = .ok (as, f') ∧
      Student.io300Filesize cacheSize f' = .ok (size, f') ∧
      (size = (Naive.io300Filesize (run Naive.step n calls).2).1 ↔
        TailLeft cacheSize n calls) := by
  rcases hmode with rfl | hmode
  · -- the run for both, less the right to write
    obtain ⟨f, n, as, f', hf, hn, hclean, hrun, hw⟩ :=
      filesize_writable hC (Or.inr rfl) content hfresh calls hcalls
    obtain rfl : (⟨⟨content, 0, true, []⟩⟩ : Naive.Io300File) = n := Option.some.inj hn
    obtain ⟨hleft, hsize⟩ := watch_reads cacheSize (n := ⟨⟨content, 0, true, []⟩⟩) rfl (hreads rfl)
    obtain ⟨hleft', hsize'⟩ :=
      watch_reads cacheSize (n := ⟨⟨content, 0, false, []⟩⟩) rfl (hreads rfl)
    have hdisk := hw.filesize.2.mpr hleft
    rw [(run_watch cacheSize _ calls).2, hsize] at hdisk
    refine ⟨f.protect, ⟨⟨content, 0, false, []⟩⟩, as, f'.protect, _,
      Student.io300Open_protect hf, rfl, Student.runM_protect (hreads rfl) hclean hrun,
      Student.io300Filesize_eq ?_ ?_, ?_⟩
    · exact hw.1.coherent.toCaches.check
    · exact hw.1.coherent.reliable.script
    · rw [hsize']
      exact ⟨fun _ => hleft', fun _ => hdisk⟩
  · obtain ⟨f, n, as, f', hf, hn, -, hrun, hw⟩ :=
      filesize_writable hC hmode content hfresh calls hcalls
    obtain ⟨hsize, hiff⟩ := hw.filesize
    rw [(run_watch cacheSize (n, none) calls).2] at hiff
    exact ⟨f, n, as, f', _, hf, hn, hrun, hsize, hiff⟩

/-- A byte written past the block boundary, and the size asked for while
it is in the cache and after the head has left. -/
theorem filesize_agrees_iff_boundary :
    ∃ f n as f' size, Student.io300Open 4 MODE_RDWR [1, 2, 3, 4] [] [0, 0, 0, 0] = .ok (some f) ∧
      Naive.io300Open MODE_RDWR [1, 2, 3, 4] [] = some n ∧
      runM (Student.step 4) f [.seek 4, .writec 5, .seek 0] = .ok (as, f') ∧
      Student.io300Filesize 4 f' = .ok (size, f') ∧
      (size = (Naive.io300Filesize (run Naive.step n [.seek 4, .writec 5, .seek 0]).2).1 ↔
        TailLeft 4 n [.seek 4, .writec 5, .seek 0]) :=
  filesize_agrees_iff (by decide) (Or.inr (Or.inr rfl)) [1, 2, 3, 4] rfl _
    (by simp [Call.Admissible]) (fun h => absurd h (by decide))

/-- One byte written to an empty file: the cached size is 0, the
uncached one 1. -/
theorem filesize_before_flush :
    ∃ f n as f', Student.io300Open 4 MODE_RDWR [] [] [0, 0, 0, 0] = .ok (some f) ∧
      Naive.io300Open MODE_RDWR [] [] = some n ∧
      runM (Student.step 4) f [.writec 5] = .ok (as, f') ∧
      Student.io300Filesize 4 f' = .ok (0, f') ∧
      (Naive.io300Filesize (run Naive.step n [.writec 5]).2).1 = 1 := by
  refine ⟨_, _, _, _, rfl, rfl, rfl, rfl, rfl⟩

end SystemsProjects.FileIO
