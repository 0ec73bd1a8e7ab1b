/-
SystemsProjects.FileIO.CacheRefinement — the cached implementation
refines the uncached one.

`Refines` relates a cached file to an uncached one: the uncached disk is
the cached file's contents, and the kernel offset is the cached head.
Each call keeps it and answers alike (`step_refines`), so every sequence
of calls does (`Base.runM_refines`), and closing leaves the same bytes.
-/
import SystemsProjects.FileIO.WriteCoherence
import SystemsProjects.Base.Transducer

namespace SystemsProjects.FileIO

open SystemsProjects.Base

/-- The refinement relation. -/
structure Refines (cacheSize : Nat) (f : Student.Io300File) (n : Naive.Io300File) : Prop where
  coherent : Student.Coherent cacheSize f n.fd.disk
  reliable : n.fd.Reliable
  head : n.fd.offset = f.cachePos + f.cacheIdx

namespace Refines

variable {cacheSize : Nat} {f : Student.Io300File} {n : Naive.Io300File}

theorem seek (hC : 0 < cacheSize) (h : Refines cacheSize f n) (pos : Int) :
    ∃ f', Student.io300Seek cacheSize f pos = .ok ((Naive.io300Seek n pos).1, f') ∧
      Refines cacheSize f' (Naive.io300Seek n pos).2 := by
  by_cases hneg : pos < 0
  · refine ⟨f, ?_, ?_⟩
    · rw [Student.io300Seek_neg h.coherent hneg, Naive.io300Seek,
        OsFile.lseekSet_neg h.reliable hneg]
      rfl
    · rw [Naive.io300Seek, OsFile.lseekSet_neg h.reliable hneg]
      exact h
  · obtain ⟨p, rfl⟩ := Int.eq_ofNat_of_zero_le (Int.not_lt.mp hneg)
    obtain ⟨f', hseek, hco, hhead⟩ := Student.io300Seek_spec hC h.coherent p
    refine ⟨f', ?_, ?_⟩
    · rw [hseek, Naive.io300Seek, OsFile.lseekSet_reliable h.reliable]
    · rw [Naive.io300Seek, OsFile.lseekSet_reliable h.reliable]
      exact ⟨hco, h.reliable.at _ _, hhead.symm⟩

theorem read (hC : 0 < cacheSize) (h : Refines cacheSize f n) (buff : List UInt8) {sz : Nat}
    (hbuff : sz ≤ buff.length) :
    ∃ f', Student.io300Read cacheSize f buff sz =
        .ok ((Naive.io300Read n buff sz).1, (Naive.io300Read n buff sz).2.1, f') ∧
      Refines cacheSize f' (Naive.io300Read n buff sz).2.2 := by
  obtain ⟨f', hread, hco, hhead⟩ := Student.io300Read_spec hC h.coherent hbuff
  rw [← h.head] at hread hhead
  refine ⟨f', ?_, ?_⟩
  · rw [hread, Naive.io300Read, OsFile.read_reliable h.reliable]
  · rw [Naive.io300Read, OsFile.read_reliable h.reliable]
    exact ⟨hco, h.reliable.at _ _, hhead.symm⟩

theorem write (hC : 0 < cacheSize) (h : Refines cacheSize f n) (buff : List UInt8) {sz : Nat}
    (h1 : 1 ≤ sz) (hbuff : sz ≤ buff.length) :
    ∃ f', Student.io300Write cacheSize f buff sz = .ok ((Naive.io300Write n buff sz).1, f') ∧
      Refines cacheSize f' (Naive.io300Write n buff sz).2 ∧
      (Naive.io300Write n buff sz).1 = sz := by
  obtain ⟨f', hwrite, hco, hhead⟩ := Student.io300Write_spec hC h.coherent h1 hbuff
  have hlen : (buff.take sz).length = sz := by rw [List.length_take]; omega
  rw [← h.head] at hco hhead
  rw [Naive.io300Write, OsFile.write_reliable h.reliable, hlen]
  exact ⟨f', hwrite, ⟨hco, h.reliable.at _ _, hhead.symm⟩, rfl⟩

theorem readc (hC : 0 < cacheSize) (h : Refines cacheSize f n) :
    ∃ f', Student.io300Readc cacheSize f = .ok ((Naive.io300Readc n).1, f') ∧
      Refines cacheSize f' (Naive.io300Readc n).2 := by
  obtain ⟨f', hread, hrel⟩ := h.read hC [0] (Nat.le_refl 1)
  have hlen : (slice n.fd.disk n.fd.offset 1).length ≤ 1 := by rw [length_slice]; omega
  simp only [Naive.io300Read, OsFile.read_reliable h.reliable] at hread hrel
  refine ⟨f', ?_, by simpa only [Naive.io300Readc, OsFile.read_reliable h.reliable] using hrel⟩
  simp only [Student.io300Readc, h.coherent.toCaches.check, ok_bind, hread,
    Naive.io300Readc, OsFile.read_reliable h.reliable, pure_eq_ok]
  match hs : slice n.fd.disk n.fd.offset 1 with
  | [] => rfl
  | [c] => rfl
  | _ :: _ :: _ => rw [hs] at hlen; simp at hlen

theorem toNat_ofInt_byte {ch : Int} (h0 : 0 ≤ ch) (h255 : ch ≤ 255) :
    ((UInt8.ofInt ch).toNat : Int) = ch := by
  obtain ⟨c, rfl⟩ := Int.eq_ofNat_of_zero_le h0
  have : (UInt8.ofInt (c : Int)).toNat = c % 256 := by
    simp [UInt8.ofInt, UInt8.toNat_ofNat']
    omega
  rw [this]; omega

theorem writec (hC : 0 < cacheSize) (h : Refines cacheSize f n) {ch : Int} (h0 : 0 ≤ ch)
    (h255 : ch ≤ 255) :
    ∃ f', Student.io300Writec cacheSize f ch = .ok ((Naive.io300Writec n ch).1, f') ∧
      Refines cacheSize f' (Naive.io300Writec n ch).2 := by
  obtain ⟨f', hwrite, hrel, hval⟩ :=
    h.write hC [UInt8.ofInt ch] (Nat.le_refl 1) (Nat.le_refl 1)
  have hret : (Naive.io300Writec n ch).1 = ch := by
    simp [Naive.io300Writec, OsFile.write_reliable h.reliable]
  refine ⟨f', ?_, hrel⟩
  rw [hret]
  simp only [Student.io300Writec, h.coherent.toCaches.check, ok_bind, hwrite, hval,
    pure_eq_ok]
  rw [if_pos (by rfl), toNat_ofInt_byte h0 h255]

end Refines

/-- Every call of the cached implementation answers as the uncached one. -/
theorem step_refines {cacheSize : Nat} (hC : 0 < cacheSize) :
    StepRefines (Refines cacheSize) Call.Admissible (Student.step cacheSize) Naive.step := by
  intro f n call h hadm
  cases call with
  | seek pos =>
    obtain ⟨f', hcall, hrel⟩ := h.seek hC pos
    exact ⟨f', by simp [Student.step, Naive.step, hcall], hrel⟩
  | read buff sz =>
    obtain ⟨f', hcall, hrel⟩ := h.read hC buff hadm
    exact ⟨f', by simp [Student.step, Naive.step, hcall], hrel⟩
  | readc =>
    obtain ⟨f', hcall, hrel⟩ := h.readc hC
    exact ⟨f', by simp [Student.step, Naive.step, hcall], hrel⟩
  | write buff sz =>
    obtain ⟨f', hcall, hrel, -⟩ := h.write hC buff hadm.1 hadm.2
    exact ⟨f', by simp [Student.step, Naive.step, hcall], hrel⟩
  | writec ch =>
    obtain ⟨f', hcall, hrel⟩ := h.writec hC hadm.1 hadm.2
    exact ⟨f', by simp [Student.step, Naive.step, hcall], hrel⟩

/-- Opening a file both ways gives related states. -/
theorem open_refines {cacheSize : Nat} (hC : 0 < cacheSize) {mode : Nat}
    (hmode : mode = MODE_WRITE ∨ mode = MODE_RDWR) (content : List UInt8) {fresh : List UInt8}
    (hfresh : fresh.length = cacheSize) :
    ∃ f n, Student.io300Open cacheSize mode content [] fresh = .ok (some f) ∧
      Naive.io300Open mode content [] = some n ∧ Refines cacheSize f n := by
  obtain ⟨fd, hopen, hoff, hw, hsc⟩ : ∃ fd : OsFile, osOpen mode content [] = some fd ∧
      fd.offset = 0 ∧ fd.writable = true ∧ fd.script = [] := by
    rcases hmode with rfl | rfl
    · exact ⟨⟨[], 0, true, []⟩, rfl, rfl, rfl, rfl⟩
    · exact ⟨⟨content, 0, true, []⟩, rfl, rfl, rfl, rfl⟩
  obtain ⟨f, hf, hco, hhead⟩ := Student.io300Open_spec hC hfresh hopen hw hsc
  exact ⟨f, ⟨fd⟩, hf, by simp [Naive.io300Open, hopen], hco, ⟨hsc, hw⟩, by rw [hhead, hoff]⟩

/-- **The cached file refines the uncached one**: for every cache size,
initial contents, writable mode and sequence of calls, both
implementations open the file, give the same value and leave the same
bytes in the caller's buffer at every call, and leave the same bytes on
disk once closed. No call of the cached implementation faults. -/
theorem cached_refines_uncached {cacheSize : Nat} (hC : 4 ≤ cacheSize) {mode : Nat}
    (hmode : mode = MODE_WRITE ∨ mode = MODE_RDWR) (content : List UInt8) {fresh : List UInt8}
    (hfresh : fresh.length = cacheSize) (calls : List Call)
    (hcalls : ∀ c ∈ calls, c.Admissible) :
    ∃ f n f', Student.io300Open cacheSize mode content [] fresh = .ok (some f) ∧
      Naive.io300Open mode content [] = some n ∧
      runM (Student.step cacheSize) f calls = .ok ((run Naive.step n calls).1, f') ∧
      Student.io300Close cacheSize f' = .ok (Naive.io300Close (run Naive.step n calls).2) := by
  have hpos : 0 < cacheSize := by omega
  obtain ⟨f, n, hf, hn, hrel⟩ := open_refines hpos hmode content hfresh
  obtain ⟨f', hrun, hrel'⟩ := runM_refines (step_refines hpos) hrel calls hcalls
  exact ⟨f, n, f', hf, hn, hrun, Student.io300Close_spec hrel'.coherent.toCaches⟩

/-- A write past the end of the file that crosses a block, and the gap
read back. -/
theorem cached_refines_uncached_gap :
    ∃ f n f', Student.io300Open 4 MODE_RDWR [7] [] [1, 2, 3, 4] = .ok (some f) ∧
      Naive.io300Open MODE_RDWR [7] [] = some n ∧
      runM (Student.step 4) f [.seek 6, .write [8, 9, 10] 3, .seek (-1), .seek 0, .readc,
          .read [0, 0, 0, 0, 0, 0, 0, 0, 0] 9, .writec 255] =
        .ok ((run Naive.step n [.seek 6, .write [8, 9, 10] 3, .seek (-1), .seek 0, .readc,
          .read [0, 0, 0, 0, 0, 0, 0, 0, 0] 9, .writec 255]).1, f') ∧
      Student.io300Close 4 f' =
        .ok (Naive.io300Close (run Naive.step n [.seek 6, .write [8, 9, 10] 3, .seek (-1), .seek 0,
          .readc, .read [0, 0, 0, 0, 0, 0, 0, 0, 0] 9, .writec 255]).2) :=
  cached_refines_uncached (Nat.le_refl 4) (Or.inr rfl) [7] (by rfl) _
    (by simp [Call.Admissible])

end SystemsProjects.FileIO
