/-
SystemsProjects.Base.ByteFormat — binary formats as pairs of a writer and
a reader with their round trip.

A `Format` carries its law: what it writes, followed by anything, reads
back, as long as it is short enough for the 32-bit sizes and the memory
for it is granted. A reader can refuse its input (`none`) or be stopped by
the allocator, which it asks before it knows that the bytes are there.

  §1 readers;
  §2 ordered maps;
  §3 the formats: nothing, byte strings, pairs, vectors, maps, and a
     format seen through a bijection.

Nothing here names the programs of this repository.
-/
import Mathlib.Data.List.Basic
import SystemsProjects.Base.Transfer

namespace SystemsProjects.Base

/-! ## §1 Readers -/

variable {ε α β : Type}

/-- What was read and what is left; `none` refuses the input. -/
abbrev Reader (ε α : Type) := List UInt8 → Except ε (Option (α × List UInt8))

namespace Reader

def done (a : α) : Reader ε α := fun bytes => .ok (some (a, bytes))

def andThen (r : Reader ε α) (k : α → Reader ε β) : Reader ε β := fun bytes =>
  match r bytes with
  | .error e => .error e
  | .ok none => .ok none
  | .ok (some (a, rest)) => k a rest

@[simp] theorem done_apply (a : α) (bytes : List UInt8) :
    (done a : Reader ε α) bytes = .ok (some (a, bytes)) := rfl

theorem andThen_of_ok {r : Reader ε α} {bytes rest : List UInt8} {a : α}
    (h : r bytes = .ok (some (a, rest))) (k : α → Reader ε β) :
    (r.andThen k) bytes = k a rest := by
  simp [andThen, h]

/-- The next `n` bytes. -/
def take (n : Nat) : Reader ε (List UInt8) := fun bytes =>
  if bytes.length < n then .ok none else .ok (some (bytes.take n, bytes.drop n))

theorem take_append (bytes rest : List UInt8) :
    (take bytes.length : Reader ε (List UInt8)) (bytes ++ rest) = .ok (some (bytes, rest)) := by
  simp [take]

/-- A 32-bit word. -/
def word32 : Reader ε Nat := (take 4).andThen fun bytes => done (decodeLE bytes)

theorem word32_encodeLE {n : Nat} (h : n < 2 ^ 32) (rest : List UInt8) :
    (word32 : Reader ε Nat) (encodeLE 4 n ++ rest) = .ok (some (n, rest)) := by
  have htake := take_append (ε := ε) (encodeLE 4 n) rest
  rw [length_encodeLE] at htake
  rw [word32, andThen_of_ok htake, decodeLE_encodeLE]
  exact congrArg (fun k => Except.ok (some (k, rest))) (Nat.mod_eq_of_lt h)

/-- Ask the allocator for `size` bytes. -/
def allocate (alloc : Nat → Option ε) (size : Nat) : Reader ε Unit := fun bytes =>
  match alloc size with
  | none => .ok (some ((), bytes))
  | some e => .error e

theorem allocate_of_granted {alloc : Nat → Option ε} (h : ∀ n, alloc n = none) (size : Nat)
    (bytes : List UInt8) : allocate alloc size bytes = .ok (some ((), bytes)) := by
  simp [allocate, h]

/-- `n` items. -/
def many (r : Reader ε α) : Nat → Reader ε (List α)
  | 0 => done []
  | n + 1 => r.andThen fun a => (many r n).andThen fun as => done (a :: as)

end Reader

/-! ## §2 Ordered maps -/

/-- An ordered map: its entries, in the order of their keys. -/
structure OrderedMap (κ ν : Type) [LT κ] where
  entries : List (κ × ν)
  sorted : entries.Pairwise fun a b => a.1 < b.1

namespace OrderedMap

variable {κ ν : Type} [LT κ]

def empty : OrderedMap κ ν := ⟨[], .nil⟩

theorem ext_entries {m m' : OrderedMap κ ν} (h : m.entries = m'.entries) : m = m' := by
  cases m
  cases m'
  cases h
  rfl

/-- The place of an entry; an entry with the same key stays. -/
def insertEntry [DecidableLT κ] [DecidableEq κ] (k : κ) (v : ν) : List (κ × ν) → List (κ × ν)
  | [] => [(k, v)]
  | e :: es =>
    if k = e.1 then e :: es
    else if k < e.1 then (k, v) :: e :: es
    else e :: insertEntry k v es

variable [DecidableLT κ] [DecidableEq κ]

theorem mem_insertEntry {k : κ} {v : ν} {es : List (κ × ν)} {e : κ × ν}
    (h : e ∈ insertEntry k v es) : e = (k, v) ∨ e ∈ es := by
  induction es with
  | nil => exact .inl (List.mem_singleton.mp h)
  | cons e' es ih =>
    rw [insertEntry] at h
    split at h
    · exact .inr h
    · split at h
      · exact List.mem_cons.mp h
      · rcases List.mem_cons.mp h with rfl | hmem
        · exact .inr List.mem_cons_self
        · exact (ih hmem).imp_right (List.mem_cons_of_mem e')

/-- A key above all others goes to the end. -/
theorem insertEntry_last [Std.Asymm (α := κ) (· < ·)] {k : κ} {v : ν} {es : List (κ × ν)}
    (h : ∀ e ∈ es, e.1 < k) : insertEntry k v es = es ++ [(k, v)] := by
  induction es with
  | nil => rfl
  | cons e es ih =>
    have hlt : e.1 < k := h e List.mem_cons_self
    have hne : k ≠ e.1 := fun heq => Std.Asymm.asymm _ _ hlt (heq ▸ hlt)
    have hnlt : ¬ k < e.1 := fun hlt' => Std.Asymm.asymm _ _ hlt hlt'
    rw [insertEntry, if_neg hne, if_neg hnlt, ih fun e' he' => h e' (List.mem_cons_of_mem e he')]
    rfl

variable [LE κ] [Std.IsLinearOrder κ] [Std.LawfulOrderLT κ]

theorem sorted_insertEntry (k : κ) (v : ν) {es : List (κ × ν)}
    (h : es.Pairwise fun a b => a.1 < b.1) :
    (insertEntry k v es).Pairwise fun a b => a.1 < b.1 := by
  induction es with
  | nil => exact List.pairwise_singleton _ _
  | cons e es ih =>
    obtain ⟨hhead, htail⟩ := List.pairwise_cons.mp h
    rw [insertEntry]
    split
    · exact h
    · rename_i hne
      split
      · rename_i hlt
        refine List.pairwise_cons.mpr ⟨fun e' he' => ?_, h⟩
        rcases List.mem_cons.mp he' with rfl | hmem
        · exact hlt
        · exact Std.lt_trans hlt (hhead e' hmem)
      · rename_i hnlt
        have hlt : e.1 < k := Std.lt_of_le_of_ne (Std.not_lt.mp hnlt) fun heq => hne heq.symm
        refine List.pairwise_cons.mpr ⟨fun e' he' => ?_, ih htail⟩
        rcases mem_insertEntry he' with rfl | hmem
        · exact hlt
        · exact hhead e' hmem

/-- `insert`: an entry with the same key stays. -/
def insert (m : OrderedMap κ ν) (k : κ) (v : ν) : OrderedMap κ ν :=
  ⟨insertEntry k v m.entries, sorted_insertEntry k v m.sorted⟩

def insertAll (m : OrderedMap κ ν) (es : List (κ × ν)) : OrderedMap κ ν :=
  es.foldl (fun m e => m.insert e.1 e.2) m

/-- Entries above all others, in order, are appended. -/
theorem insertAll_sorted (m : OrderedMap κ ν) {es : List (κ × ν)}
    (h : (m.entries ++ es).Pairwise fun a b => a.1 < b.1) :
    (m.insertAll es).entries = m.entries ++ es := by
  induction es generalizing m with
  | nil => exact (List.append_nil _).symm
  | cons e es ih =>
    have hlast : (m.insert e.1 e.2).entries = m.entries ++ [e] :=
      insertEntry_last fun e' he' =>
        (List.pairwise_append.mp h).2.2 e' he' e List.mem_cons_self
    have hstep := ih (m.insert e.1 e.2) (by rw [hlast, List.append_assoc]; exact h)
    rw [hlast, List.append_assoc] at hstep
    exact hstep

/-- The entries of a map rebuild it. -/
theorem insertAll_entries (m : OrderedMap κ ν) : empty.insertAll m.entries = m :=
  ext_entries (insertAll_sorted empty m.sorted)

end OrderedMap

/-! ## §3 Formats -/

/-- A writer and a reader; `alloc` grants memory or stops the program. -/
structure Format (alloc : Nat → Option ε) (α : Type) where
  write : α → List UInt8
  read : Reader ε α
  read_write : (∀ n, alloc n = none) → ∀ a, (write a).length < 2 ^ 32 → ∀ rest,
    read (write a ++ rest) = .ok (some (a, rest))

namespace Format

variable {alloc : Nat → Option ε}

/-- Nothing is written for a type with one value. -/
def empty : Format alloc Unit where
  write _ := []
  read := .done ()
  read_write _ _ _ _ := rfl

/-- A size and as many bytes. -/
def bytes : Format alloc (List UInt8) where
  write s := encodeLE 4 s.length ++ s
  read := Reader.word32.andThen fun n => (Reader.allocate alloc n).andThen fun _ => Reader.take n
  read_write hgrant s hlen rest := by
    rw [List.length_append] at hlen
    have hword := Reader.word32_encodeLE (ε := ε) (n := s.length) (by omega) (s ++ rest)
    rw [List.append_assoc, Reader.andThen_of_ok hword,
      Reader.andThen_of_ok (Reader.allocate_of_granted hgrant _ _), Reader.take_append]

/-- One after the other. -/
def pair (f : Format alloc α) (g : Format alloc β) : Format alloc (α × β) where
  write p := f.write p.1 ++ g.write p.2
  read := f.read.andThen fun a => g.read.andThen fun b => .done (a, b)
  read_write hgrant p hlen rest := by
    rw [List.length_append] at hlen
    rw [List.append_assoc, Reader.andThen_of_ok (f.read_write hgrant p.1 (by omega) _),
      Reader.andThen_of_ok (g.read_write hgrant p.2 (by omega) _), Reader.done_apply]

/-- The format of a type with the same values. -/
def through (f : Format alloc α) (mk : α → β) (fields : β → α) (h : ∀ b, mk (fields b) = b) :
    Format alloc β where
  write b := f.write (fields b)
  read := f.read.andThen fun a => .done (mk a)
  read_write hgrant b hlen rest := by
    rw [Reader.andThen_of_ok (f.read_write hgrant (fields b) hlen rest), Reader.done_apply, h]

theorem length_le_length_flatMap {f : α → List UInt8} (hpos : ∀ a, 0 < (f a).length)
    (as : List α) : as.length ≤ (as.flatMap f).length := by
  induction as with
  | nil => exact Nat.zero_le _
  | cons a as ih =>
    have h := hpos a
    rw [List.flatMap_cons, List.length_append, List.length_cons]
    omega

theorem many_read_write (f : Format alloc α) (hgrant : ∀ n, alloc n = none) (as : List α)
    (hlen : (as.flatMap f.write).length < 2 ^ 32) (rest : List UInt8) :
    Reader.many f.read as.length (as.flatMap f.write ++ rest) = .ok (some (as, rest)) := by
  induction as with
  | nil => rfl
  | cons a as ih =>
    rw [List.flatMap_cons, List.length_append] at hlen
    rw [List.flatMap_cons, List.append_assoc, List.length_cons, Reader.many,
      Reader.andThen_of_ok (f.read_write hgrant a (by omega) _),
      Reader.andThen_of_ok (ih (by omega)), Reader.done_apply]

/-- A size and as many items, each of `itemSize` bytes in memory. -/
def vector (itemSize : Nat) (f : Format alloc α) (hpos : ∀ a, 0 < (f.write a).length) :
    Format alloc (List α) where
  write as := encodeLE 4 as.length ++ as.flatMap f.write
  read := Reader.word32.andThen fun n => (Reader.allocate alloc (n * itemSize)).andThen fun _ =>
    Reader.many f.read n
  read_write hgrant as hlen rest := by
    rw [List.length_append] at hlen
    have hcount := length_le_length_flatMap hpos as
    have hword := Reader.word32_encodeLE (ε := ε) (n := as.length) (by omega)
      (as.flatMap f.write ++ rest)
    rw [List.append_assoc, Reader.andThen_of_ok hword,
      Reader.andThen_of_ok (Reader.allocate_of_granted hgrant _ _),
      many_read_write f hgrant as (by omega)]

/-- A size and as many entries, inserted one by one. -/
def map {κ ν : Type} [LT κ] [DecidableLT κ] [DecidableEq κ] [LE κ] [Std.IsLinearOrder κ]
    [Std.LawfulOrderLT κ] (f : Format alloc (κ × ν)) (hpos : ∀ e, 0 < (f.write e).length) :
    Format alloc (OrderedMap κ ν) where
  write m := encodeLE 4 m.entries.length ++ m.entries.flatMap f.write
  read := Reader.word32.andThen fun n => (Reader.many f.read n).andThen fun es =>
    .done (OrderedMap.empty.insertAll es)
  read_write hgrant m hlen rest := by
    rw [List.length_append] at hlen
    have hcount := length_le_length_flatMap hpos m.entries
    have hword := Reader.word32_encodeLE (ε := ε) (n := m.entries.length) (by omega)
      (m.entries.flatMap f.write ++ rest)
    rw [List.append_assoc, Reader.andThen_of_ok hword,
      Reader.andThen_of_ok (many_read_write f hgrant m.entries (by omega) rest),
      Reader.done_apply, OrderedMap.insertAll_entries]

/-- Read a value from the front of some bytes; what follows it is ignored. -/
def decode (f : Format alloc α) (bytes : List UInt8) : Except ε (Option α) :=
  match f.read bytes with
  | .error e => .error e
  | .ok none => .ok none
  | .ok (some (a, _)) => .ok (some a)

theorem decode_write (f : Format alloc α) (hgrant : ∀ n, alloc n = none) (a : α)
    (hlen : (f.write a).length < 2 ^ 32) : f.decode (f.write a) = .ok (some a) := by
  have h := f.read_write hgrant a hlen []
  rw [List.append_nil] at h
  simp [decode, h]

end Format

end SystemsProjects.Base
