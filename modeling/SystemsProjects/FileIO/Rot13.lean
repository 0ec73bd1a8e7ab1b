/-
SystemsProjects.FileIO.Rot13 — `rot13`, which works in place.

For every character the program seeks, reads it, seeks back and writes the
cipher of it over it, all on one file. That is a read and a write of the
same block in turn, so the cache is dirty nearly all the time.
-/
import SystemsProjects.FileIO.Programs

namespace SystemsProjects.FileIO.Programs

open SystemsProjects.Base

/-- `rot13` of an `unsigned char`. -/
def rot13 (ch : UInt8) : UInt8 :=
  if 65 ≤ ch ∧ ch ≤ 90 then 65 + ((ch - 65) + 13) % 26
  else if 97 ≤ ch ∧ ch ≤ 122 then 97 + ((ch - 97) + 13) % 26
  else ch

/-- A round of `for (int i = 0; i < filesize; i++)`. -/
def rot13Round (filesize : Int) (i : Nat) : Program (Nat ⊕ Exit) := do
  if i < filesize then
    let r ← io300Seek .inFile i
    if r = -1 then pure (.inr (.status 1))
    else
      let ch ← io300Readc .inFile
      if ch = -1 then pure (.inr (.status 1))
      else
        let r ← io300Seek .inFile i
        if r = -1 then pure (.inr (.status 1))
        else
          let w ← io300Writec .inFile (rot13 (UInt8.ofInt ch)).toNat
          if w = -1 then pure (.inr (.status 1))
          else pure (if i < INT_MAX then .inl (i + 1) else .inr .overflow)
  else pure (.inr (.status 0))

/-- The file closed and the end of `main`. -/
def rot13Finish : Option Exit → Program Exit
  | some (.status n) => do
    let _ ← io300Close .inFile
    pure (.status n)
  | some e => pure e
  | none => pure .outOfRounds

/-- `rot13.c`. -/
def rot13Main (rounds : Nat) : Program Exit := do
  let inf ← io300Open .inFile MODE_RDWR
  if inf = 0 then pure (.status 1)
  else
    let filesize ← io300Filesize .inFile
    if filesize = -1 then rot13Finish (some (.status 1))
    else rot13Finish (← Client.iterate (rot13Round filesize) rounds 0)

/-- The cipher is its own inverse. -/
theorem rot13_rot13 (ch : UInt8) : rot13 (rot13 ch) = ch := by
  have hall : ∀ n < 256, rot13 (rot13 (UInt8.ofNat n)) = UInt8.ofNat n := by decide +kernel
  have hch := hall ch.toNat ch.toNat_lt
  rwa [UInt8.ofNat_toNat] at hch

/-! ## Calls in the middle of a file -/

section

variable {cacheSize : Nat} {content : List UInt8} {off : Nat} {tail : Option Nat}
  {o : ContractFile}

variable (cacheSize content off tail o) in
theorem run_seek_updating {p : Nat} (h : p ≤ INT_MAX) :
    ∃ tail', runContract cacheSize (io300Seek .inFile p) (files (updating content off tail) o) =
      .ok ((p : Int), files (updating content p tail') o) := by
  obtain ⟨tail', hcall⟩ := contract_updating cacheSize content off tail
    (c := .seek p) trivial
    (by rw [Naive.step, Naive.io300Seek, OsFile.lseekSet_reliable ⟨rfl, rfl⟩])
  refine ⟨tail', (run_inFile hcall).trans ?_⟩
  rw [toInt32_of_le h]

variable (cacheSize tail o) in
theorem run_readc_updating (h : off < content.length) :
    ∃ tail', runContract cacheSize (io300Readc .inFile) (files (updating content off tail) o) =
      .ok (((content[off]).toNat : Int), files (updating content (off + 1) tail') o) := by
  obtain ⟨tail', hcall⟩ := contract_updating cacheSize content off tail
    (c := .readc) trivial
    (by rw [Naive.step, osReadc h])
  exact ⟨tail', run_inFile hcall⟩

theorem overwrite_singleton (b : UInt8) (h : off < content.length) :
    overwrite 0 content off [b] = content.set off b := by
  rw [overwrite, if_neg (List.cons_ne_nil b []), Nat.sub_eq_zero_of_le (by omega),
    List.replicate_zero, List.append_nil, List.set_eq_take_append_cons_drop, if_pos h,
    List.append_assoc]
  rfl

variable (cacheSize tail o) in
/-- A character written over another one. -/
theorem run_writec_updating (b : UInt8) (h : off < content.length) :
    ∃ tail', runContract cacheSize (io300Writec .inFile b.toNat)
        (files (updating content off tail) o) =
      .ok ((b.toNat : Int), files (updating (content.set off b) (off + 1) tail') o) := by
  obtain ⟨tail', hcall⟩ := contract_updating cacheSize content off tail
    (c := .writec b.toNat)
    ⟨rfl, Int.natCast_nonneg _, by have := b.toNat_lt; omega⟩
    (by rw [Naive.step, Naive.io300Writec, OsFile.write_reliable ⟨rfl, rfl⟩])
  refine ⟨tail', (run_inFile hcall).trans ?_⟩
  simp only [ofInt_toNat, overwrite_singleton b h]
  rfl

end

/-! ## The loop -/

section

variable {cacheSize : Nat} {content : List UInt8} {o : ContractFile}

/-- The first `i` characters have been replaced, `m` are left. -/
def Replaced (content : List UInt8) (o : ContractFile) (m i : Nat)
    (s : FileName → ContractFile) : Prop :=
  i + m = content.length ∧ ∃ off tail,
    s = files (updating ((content.take i).map rot13 ++ content.drop i) off tail) o

def ReplaceDone (content : List UInt8) (o : ContractFile) (e : Exit)
    (s : FileName → ContractFile) : Prop :=
  e = .status 0 ∧ ∃ off tail, s = files (updating (content.map rot13) off tail) o

/-- Character `i` of a file whose first `i` have been replaced. -/
theorem getElem_replaced {i : Nat} (h : i < content.length)
    (h' : i < ((content.take i).map rot13 ++ content.drop i).length) :
    ((content.take i).map rot13 ++ content.drop i)[i] = content[i] := by
  have hlen : ((content.take i).map rot13).length = i := by
    rw [List.length_map, List.length_take_of_le (by omega)]
  apply Option.some.inj
  rw [← List.getElem?_eq_getElem, ← List.getElem?_eq_getElem, List.getElem?_append_right (by omega),
    List.getElem?_drop, hlen]
  congr 1
  omega

theorem set_replaced {i : Nat} (h : i < content.length) :
    ((content.take i).map rot13 ++ content.drop i).set i (rot13 content[i]) =
      (content.take (i + 1)).map rot13 ++ content.drop (i + 1) := by
  have hlen : ((content.take i).map rot13).length = i := by
    rw [List.length_map, List.length_take_of_le (by omega)]
  rw [List.set_append_right _ _ (by omega), hlen, Nat.sub_self, List.drop_eq_getElem_cons h,
    List.set_cons_zero, List.take_succ_eq_append_getElem h, List.map_append, List.append_assoc]
  rfl

variable (cacheSize o) in
theorem rot13Round_replaces (hlen : content.length ≤ INT_MAX) :
    Client.Progresses (fun _ => contract cacheSize) (Replaced content o) (ReplaceDone content o)
      (rot13Round content.length) := by
  intro m i s h
  obtain ⟨hm, off, tail, rfl⟩ := h
  rw [rot13Round]
  by_cases hi : (i : Int) < content.length
  · have hi' : i < content.length := by omega
    have hlength : ((content.take i).map rot13 ++ content.drop i).length = content.length := by
      rw [List.length_append, List.length_map, List.length_take, List.length_drop]
      omega
    generalize hfile : (content.take i).map rot13 ++ content.drop i = file at hlength ⊢
    have hat : file[i] = content[i] := by
      subst hfile
      exact getElem_replaced hi' _
    obtain ⟨tail₁, hseek⟩ := run_seek_updating cacheSize file off tail o (p := i) (by omega)
    obtain ⟨tail₂, hread⟩ := run_readc_updating cacheSize tail₁ o (show i < file.length by
      omega)
    obtain ⟨tail₃, hback⟩ := run_seek_updating cacheSize file (i + 1) tail₂ o (p := i)
      (by omega)
    obtain ⟨tail₄, hwrite⟩ := run_writec_updating cacheSize tail₃ o (rot13 content[i])
      (show i < file.length by omega)
    rw [if_pos hi, Client.runM_then _ hseek, if_neg (by omega), Client.runM_then _ hread,
      if_neg (by omega), Client.runM_then _ hback, if_neg (by omega), ofInt_toNat, hat,
      Client.runM_then _ hwrite, if_neg (by omega), if_pos (by omega)]
    refine ⟨_, _, rfl, m - 1, by omega, by omega, i + 1, tail₄, ?_⟩
    rw [← hfile, set_replaced hi']
  · rw [if_neg hi, List.take_of_length_le (by omega), List.drop_eq_nil_of_le (by omega),
      List.append_nil]
    exact ⟨_, _, rfl, rfl, off, tail, rfl⟩

theorem run_rot13Main {rounds : Nat} (hlen : content.length ≤ INT_MAX)
    (hrounds : content.length < rounds) :
    runContract cacheSize (rot13Main rounds) (files (.closed content) o) =
      .ok (.status 0, files (.closed (content.map rot13)) o) := by
  obtain ⟨e, s', hloop, rfl, off, tail, rfl⟩ := Client.runM_iterate
    (rot13Round_replaces cacheSize o hlen)
    (s := files (updating content 0 none) o) (b := 0) ⟨Nat.zero_add _, 0, none, rfl⟩ hrounds
  rw [rot13Main, runContract, Client.runM_then _ (run_open_rdwr content), if_neg (by decide),
    Client.runM_then _ run_filesize_rdwr, if_neg (by omega), Client.runM_then _ hloop, rot13Finish,
    Client.runM_then _ run_close_updating]
  rfl

end

/-- **The file is replaced by its cipher, and a second run restores it**:
with either implementation and every cache size, for a file that an `int`
can count, and no other file is touched. -/
theorem rot13_in_place {cacheSize rounds : Nat} (hC : 4 ≤ cacheSize) {content : List UInt8}
    (hlen : content.length ≤ INT_MAX) (hrounds : content.length < rounds) (other : List UInt8) :
    Leaves cacheSize (rot13Main rounds) (contents content other) (.status 0)
        (contents (content.map rot13) other) ∧
      Leaves cacheSize (rot13Main rounds >>= fun _ => rot13Main rounds) (contents content other)
        (.status 0) (contents content other) := by
  have htwice : (content.map rot13).map rot13 = content := by
    rw [List.map_map, show rot13 ∘ rot13 = id from funext rot13_rot13, List.map_id]
  constructor
  · apply leaves_of_contract (by omega)
    rw [closedAll_contents, closedAll_contents]
    exact run_rot13Main hlen hrounds
  · apply leaves_of_contract (by omega)
    rw [closedAll_contents, runContract,
      Client.runM_then _ (run_rot13Main hlen hrounds)]
    refine (run_rot13Main ?_ ?_).trans (by rw [htwice])
    · rwa [List.length_map]
    · rwa [List.length_map]

/-- "Hi!" and "Uv!". -/
theorem rot13_in_place_hi :
    Leaves 4 (rot13Main 4) (contents [72, 105, 33] []) (.status 0)
        (contents [85, 118, 33] []) ∧
      Leaves 4 (rot13Main 4 >>= fun _ => rot13Main 4) (contents [72, 105, 33] []) (.status 0)
        (contents [72, 105, 33] []) :=
  have h3 : [(72 : UInt8), 105, 33].length ≤ INT_MAX := by decide
  rot13_in_place (Nat.le_refl 4) h3 (Nat.lt_succ_self 3) []

end SystemsProjects.FileIO.Programs
