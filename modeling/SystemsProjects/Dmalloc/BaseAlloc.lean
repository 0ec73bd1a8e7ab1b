/-
SystemsProjects.Dmalloc.BaseAlloc — basealloc.cc, the allocator below
dmalloc.

`base_malloc` hands out a freed block again in three of four calls, taken
at random and removed by putting the last freed block in its place. The
size recorded for a block is that of the last request, so it shrinks with
every use.

`Sound` is the invariant of every run, for every sequence of random numbers
and whatever is passed to `base_free`: each recorded block lies in a block
of the system allocator of its own (`Reaches.sound`). This is the contract
that `dmalloc` is verified against (`baseMalloc_admissible`).

The addresses are not reduced modulo 2^64. `atexit` and what it frees when
the program ends are left out.
-/
import SystemsProjects.Dmalloc.Blocks
import Mathlib.Data.List.Pairwise
import Mathlib.Data.List.Perm.Basic
import Mathlib.Logic.Function.Basic
import Mathlib.Logic.Relation

namespace SystemsProjects.Dmalloc.BaseAlloc

open SystemsProjects.Base

/-! ## The source -/

/-- `base_allocation`: an address and a size. -/
abbrev BaseAllocation := Nat × Nat

/-- `allocs`, `frees` and `disabled`, and beside them the blocks that the
system's `malloc` has returned and not been given back. -/
structure State where
  allocs : Nat → Option Nat
  frees : List BaseAllocation
  disabled : Nat
  system : List BaseAllocation

/-- Before the first call. -/
def State.initial : State := ⟨fun _ => none, [], 0, []⟩

/-- `allocs.insert(f)`, which leaves an entry with that key as it is. -/
def State.insert (s : State) (f : BaseAllocation) : State :=
  if s.allocs f.1 = none then { s with allocs := Function.update s.allocs f.1 (some f.2) } else s

/-- `allocs[ptr] = sz`. -/
def State.assign (s : State) (ptr sz : Nat) : State :=
  { s with allocs := Function.update s.allocs ptr (some sz) }

/-- `allocs.erase(it)`. -/
def State.erase (s : State) (ptr : Nat) : State :=
  { s with allocs := Function.update s.allocs ptr none }

/-- `f = frees.back(); frees.pop_back();`, where `f` is `frees[i]`. -/
def removeAt {α : Type} (xs : List α) (i : Nat) (x : α) : List α :=
  (xs.set i (xs.getLastD x)).dropLast

/-- What the system's `malloc` answers: an address, or 0, and how many
bytes there are. -/
structure SystemResult where
  addr : Nat
  size : Nat

/-- The system's `malloc`. -/
def systemMalloc (b : SystemResult) (s : State) : State :=
  if b.addr = 0 then s else { s with system := (b.addr, b.size) :: s.system }

/-- The system's `free`. -/
def systemFree (ptr : Nat) (s : State) : State :=
  { s with system := s.system.filter fun b => b.1 ≠ ptr }

/-- The loop over `frees`, with the tries left: the address found, or 0. -/
def reuseLoop (rand : Nat → Nat) (sz : Nat) : Nat → Nat → State → Nat × State
  | 0, _, s => (0, s)
  | left + 1, ntries, s =>
    if ntries < s.frees.length then
      let i := rand (ntries + 1) % s.frees.length
      match s.frees[i]? with
      | none => (0, s)
      | some f =>
        if f.2 ≥ sz then (f.1, { s.insert f with frees := removeAt s.frees i f })
        else reuseLoop rand sz left (ntries + 1) s
    else (0, s)

/-- A freed block, in three of four calls. -/
def tryReuse (rand : Nat → Nat) (sz : Nat) (s : State) : Nat × State :=
  if rand 0 % 4 ≠ 0 then reuseLoop rand sz 10 0 s else (0, s)

/-- `base_malloc`; `rand n` is what its `n`-th call of `alloc_random`
returns, and `b` what `malloc` answers if it is called. -/
def baseMalloc (sz : Nat) (rand : Nat → Nat) (b : SystemResult) (s : State) : Nat × State :=
  if s.disabled ≠ 0 then (b.addr, systemMalloc b s)
  else
    let s := { s with disabled := s.disabled + 1 }
    let (ptr, s) := tryReuse rand sz s
    let (ptr, s) := if ptr = 0 then (b.addr, systemMalloc b s) else (ptr, s)
    let s := if ptr ≠ 0 then s.assign ptr sz else s
    (ptr, { s with disabled := s.disabled - 1 })

/-- `base_free`. -/
def baseFree (ptr : Nat) (s : State) : State :=
  if s.disabled ≠ 0 ∨ ptr = 0 then systemFree ptr s
  else
    let s := { s with disabled := s.disabled + 1 }
    let s :=
      match s.allocs ptr with
      | some sz => { s.erase ptr with frees := s.frees ++ [(ptr, sz)] }
      | none => s
    { s with disabled := s.disabled - 1 }

/-! ## Removal -/

/-- The list is the element removed and the rest, in another order. -/
theorem perm_removeAt {α : Type} {xs : List α} {i : Nat} {x : α} (h : xs[i]? = some x) :
    xs.Perm (x :: removeAt xs i x) := by
  rcases List.eq_nil_or_concat xs with rfl | ⟨init, last, rfl⟩
  · cases h
  · rw [List.concat_eq_append] at *
    have hlast : (init ++ [last]).getLastD x = last := by simp
    rw [removeAt, hlast]
    rcases Nat.lt_or_ge i init.length with hi | hi
    · -- the last element takes the place of `x`
      rw [List.getElem?_append_left hi] at h
      obtain ⟨before, after, rfl, rfl⟩ : ∃ before after, init = before ++ x :: after ∧
          i = before.length := by
        obtain ⟨hi', rfl⟩ := List.getElem?_eq_some_iff.mp h
        exact ⟨init.take i, init.drop (i + 1), by simp, by simp; omega⟩
      have hset : (before ++ x :: after ++ [last]).set before.length last =
          before ++ last :: after ++ [last] := by simp
      rw [hset, List.dropLast_concat, List.append_assoc, List.cons_append]
      refine List.perm_middle.trans (List.Perm.cons x ?_)
      have hback : (after ++ [last]).Perm (last :: after) := List.perm_append_singleton last after
      exact hback.append_left before
    · -- `x` is the last element
      obtain ⟨hlt, hx⟩ := List.getElem?_eq_some_iff.mp h
      obtain rfl : i = init.length := by
        rw [List.length_append, List.length_singleton] at hlt
        omega
      obtain rfl : last = x := by simpa using hx
      rw [List.set_append_right _ _ (Nat.le_refl _), Nat.sub_self, List.set_cons_zero,
        List.dropLast_concat]
      exact List.perm_append_singleton last init

/-! ## What a call does -/

section

variable {s : State} {sz ptr : Nat} {rand : Nat → Nat} {b : SystemResult}

/-- The loop over `frees` finds a block that is large enough, or nothing. -/
theorem reuseLoop_cases (rand : Nat → Nat) (sz left ntries : Nat) (s : State) :
    reuseLoop rand sz left ntries s = (0, s) ∨ ∃ i f, s.frees[i]? = some f ∧ sz ≤ f.2 ∧
      reuseLoop rand sz left ntries s =
        (f.1, { s.insert f with frees := removeAt s.frees i f }) := by
  induction left generalizing ntries with
  | zero => exact .inl rfl
  | succ left ih =>
    by_cases htries : ntries < s.frees.length
    · rw [reuseLoop, if_pos htries]
      dsimp only
      cases hf : s.frees[rand (ntries + 1) % s.frees.length]? with
      | none => exact .inl rfl
      | some f =>
        dsimp only
        by_cases hfits : f.2 ≥ sz
        · rw [if_pos hfits]
          exact .inr ⟨_, f, hf, hfits, rfl⟩
        · rw [if_neg hfits]
          exact ih (ntries + 1)
    · rw [reuseLoop, if_neg htries]
      exact .inl rfl

/-- After a freed block has been handed out again. -/
def State.reused (s : State) (i : Nat) (f : BaseAllocation) (sz : Nat) : State :=
  { s with allocs := Function.update s.allocs f.1 (some sz), frees := removeAt s.frees i f }

/-- After a new block has been handed out. -/
def State.extended (s : State) (b : SystemResult) (sz : Nat) : State :=
  { s with allocs := Function.update s.allocs b.addr (some sz)
           system := (b.addr, b.size) :: s.system }

/-- After a block has been given back. -/
def State.givenBack (s : State) (ptr sz : Nat) : State :=
  { s with allocs := Function.update s.allocs ptr none, frees := s.frees ++ [(ptr, sz)] }

theorem insert_assign (s : State) (f : BaseAllocation) (sz : Nat) :
    Function.update (s.insert f).allocs f.1 (some sz) = Function.update s.allocs f.1 (some sz) := by
  rw [State.insert]
  split
  · exact Function.update_idem _ _ _
  · rfl

theorem tryReuse_cases (rand : Nat → Nat) (sz : Nat) (s : State) :
    tryReuse rand sz s = (0, s) ∨ ∃ i f, s.frees[i]? = some f ∧ sz ≤ f.2 ∧
      tryReuse rand sz s = (f.1, { s.insert f with frees := removeAt s.frees i f }) := by
  rw [tryReuse]
  split
  · exact reuseLoop_cases rand sz 10 0 s
  · exact .inl rfl

/-- The three ways of `base_malloc`. -/
theorem baseMalloc_cases (sz : Nat) (rand : Nat → Nat) (b : SystemResult)
    (henabled : s.disabled = 0) (hfrees : ∀ f ∈ s.frees, f.1 ≠ 0) :
    (∃ i f, s.frees[i]? = some f ∧ sz ≤ f.2 ∧ baseMalloc sz rand b s = (f.1, s.reused i f sz)) ∨
    (b.addr ≠ 0 ∧ baseMalloc sz rand b s = (b.addr, s.extended b sz)) ∨
    (b.addr = 0 ∧ baseMalloc sz rand b s = (0, s)) := by
  obtain ⟨allocs, frees, disabled, system⟩ := s
  obtain rfl : disabled = 0 := henabled
  rcases tryReuse_cases rand sz ⟨allocs, frees, 1, system⟩ with
    hnew | ⟨i, f, hf, hfits, hreuse⟩
  · by_cases hb : b.addr = 0
    · refine .inr (.inr ⟨hb, ?_⟩)
      simp [baseMalloc, hnew, systemMalloc, hb]
    · refine .inr (.inl ⟨hb, ?_⟩)
      simp [baseMalloc, hnew, systemMalloc, hb, State.assign, State.extended]
  · refine .inl ⟨i, f, hf, hfits, ?_⟩
    have hne : f.1 ≠ 0 := hfrees f (List.mem_of_getElem? hf)
    have hentry := insert_assign ⟨allocs, frees, 1, system⟩ f sz
    have hrest : (State.insert ⟨allocs, frees, 1, system⟩ f).disabled = 1 ∧
        (State.insert ⟨allocs, frees, 1, system⟩ f).system = system := by
      rw [State.insert]
      split <;> exact ⟨rfl, rfl⟩
    simp [baseMalloc, hreuse, hne, State.assign, State.reused, hentry, hrest]

/-- The three ways of `base_free`. -/
theorem baseFree_cases (ptr : Nat) (henabled : s.disabled = 0) :
    (ptr = 0 ∧ baseFree ptr s = systemFree 0 s) ∨ (s.allocs ptr = none ∧ baseFree ptr s = s) ∨
    ∃ sz, s.allocs ptr = some sz ∧ baseFree ptr s = s.givenBack ptr sz := by
  obtain ⟨allocs, frees, disabled, system⟩ := s
  obtain rfl : disabled = 0 := henabled
  by_cases hptr : ptr = 0
  · subst hptr
    exact .inl ⟨rfl, by simp [baseFree]⟩
  · cases hentry : allocs ptr with
    | none => exact .inr (.inl ⟨hentry, by simp [baseFree, hptr, hentry]⟩)
    | some sz =>
      refine .inr (.inr ⟨sz, hentry, ?_⟩)
      simp [baseFree, hptr, hentry, State.erase, State.givenBack]

/-! ## The invariant -/

/-- A block of the system's begins there and is large enough. -/
def Backed (system : List BaseAllocation) (addr sz : Nat) : Prop :=
  ∃ size, (addr, size) ∈ system ∧ sz ≤ size

/-- Every recorded block has a block of the system's for itself. -/
structure Sound (s : State) : Prop where
  enabled : s.disabled = 0
  system_apart : s.system.Pairwise fun a b => ByteMem.Disjoint a.1 a.2 b.1 b.2
  system_pos : ∀ a ∈ s.system, a.1 ≠ 0 ∧ 0 < a.2
  frees_nodup : (s.frees.map Prod.fst).Nodup
  frees_free : ∀ f ∈ s.frees, s.allocs f.1 = none
  frees_backed : ∀ f ∈ s.frees, Backed s.system f.1 f.2
  allocs_backed : ∀ ptr sz, s.allocs ptr = some sz → Backed s.system ptr sz

/-- The contract of the system's `malloc`: null, or a block of at least `sz`
bytes that is disjoint from all others. `base_malloc` asks for
`sz ? sz : 1` bytes. -/
def SystemResult.Fresh (b : SystemResult) (s : State) (sz : Nat) : Prop :=
  b.addr = 0 ∨ ((if sz = 0 then 1 else sz) ≤ b.size ∧
    ∀ a ∈ s.system, ByteMem.Disjoint b.addr b.size a.1 a.2)

theorem sound_initial : Sound State.initial where
  enabled := rfl
  system_apart := .nil
  system_pos := List.forall_mem_nil _
  frees_nodup := .nil
  frees_free := List.forall_mem_nil _
  frees_backed := List.forall_mem_nil _
  allocs_backed := by
    intro ptr sz h
    cases h

theorem Backed.mono {system : List BaseAllocation} {addr sz sz' : Nat} (h : Backed system addr sz)
    (hle : sz' ≤ sz) : Backed system addr sz' := by
  obtain ⟨size, hmem, hsize⟩ := h
  exact ⟨size, hmem, Nat.le_trans hle hsize⟩

theorem Backed.cons {system : List BaseAllocation} {addr sz : Nat} (a : BaseAllocation)
    (h : Backed system addr sz) : Backed (a :: system) addr sz := by
  obtain ⟨size, hmem, hsize⟩ := h
  exact ⟨size, List.mem_cons_of_mem a hmem, hsize⟩

theorem Sound.backed_pos (h : Sound s) (hback : Backed s.system ptr sz) : ptr ≠ 0 := by
  obtain ⟨size, hmem, -⟩ := hback
  exact (h.system_pos _ hmem).1

/-- A new block begins where no other does. -/
theorem SystemResult.Fresh.not_backed {n : Nat} (h : b.Fresh s sz) (hs : Sound s)
    (hb : b.addr ≠ 0) : ¬ Backed s.system b.addr n := by
  rintro ⟨size, hmem, -⟩
  obtain ⟨hsize, hfresh⟩ := h.resolve_left hb
  have hpos := (hs.system_pos _ hmem).2
  have hapart := hfresh _ hmem
  simp only [ByteMem.Disjoint] at hapart hpos
  split at hsize <;> omega

theorem Sound.reused (h : Sound s) {i : Nat} {f : BaseAllocation} (hf : s.frees[i]? = some f)
    (hfits : sz ≤ f.2) : Sound (s.reused i f sz) := by
  have hperm := perm_removeAt hf
  have hmem : ∀ g ∈ removeAt s.frees i f, g ∈ s.frees :=
    fun g hg => hperm.mem_iff.mpr (List.mem_cons_of_mem f hg)
  have hnodup := (hperm.map Prod.fst).nodup_iff.mp h.frees_nodup
  rw [List.map_cons, List.nodup_cons] at hnodup
  refine ⟨h.enabled, h.system_apart, h.system_pos, hnodup.2, ?_, ?_, ?_⟩
  · intro g hg
    have hne : g.1 ≠ f.1 := by
      intro heq
      exact hnodup.1 (heq ▸ List.mem_map_of_mem hg)
    exact (Function.update_of_ne hne _ _).trans (h.frees_free g (hmem g hg))
  · exact fun g hg => h.frees_backed g (hmem g hg)
  · intro ptr sz' hptr
    by_cases heq : ptr = f.1
    · subst heq
      have hself : (s.reused i f sz).allocs f.1 = some sz := Function.update_self _ _ _
      obtain rfl : sz = sz' := Option.some.inj (hself.symm.trans hptr)
      exact (h.frees_backed f (List.mem_of_getElem? hf)).mono hfits
    · exact h.allocs_backed ptr sz' ((Function.update_of_ne heq _ _).symm.trans hptr)

theorem Sound.extended (h : Sound s) (hfresh : b.Fresh s sz) (hb : b.addr ≠ 0) :
    Sound (s.extended b sz) := by
  obtain ⟨hsize, hapart⟩ := hfresh.resolve_left hb
  have hpos : 0 < b.size ∧ sz ≤ b.size := by split at hsize <;> omega
  refine ⟨h.enabled, .cons hapart h.system_apart, ?_, h.frees_nodup, ?_, ?_, ?_⟩
  · exact List.forall_mem_cons.mpr ⟨⟨hb, hpos.1⟩, h.system_pos⟩
  · intro f hf
    have hne : f.1 ≠ b.addr := by
      intro heq
      exact hfresh.not_backed h hb (heq ▸ h.frees_backed f hf)
    exact (Function.update_of_ne hne _ _).trans (h.frees_free f hf)
  · exact fun f hf => (h.frees_backed f hf).cons _
  · intro ptr sz' hptr
    by_cases heq : ptr = b.addr
    · subst heq
      have hself : (s.extended b sz).allocs b.addr = some sz := Function.update_self _ _ _
      obtain rfl : sz = sz' := Option.some.inj (hself.symm.trans hptr)
      exact ⟨b.size, List.mem_cons_self, hpos.2⟩
    · exact (h.allocs_backed ptr sz' ((Function.update_of_ne heq _ _).symm.trans hptr)).cons _

theorem Sound.givenBack (h : Sound s) (hptr : s.allocs ptr = some sz) :
    Sound (s.givenBack ptr sz) := by
  refine ⟨h.enabled, h.system_apart, h.system_pos, ?_, ?_, ?_, ?_⟩
  · rw [State.givenBack, List.map_append, List.nodup_append]
    refine ⟨h.frees_nodup, by simp, ?_⟩
    intro p hp q hq heq
    obtain ⟨f, hf, rfl⟩ := List.mem_map.mp hp
    obtain rfl : q = ptr := by simpa using hq
    rw [← heq, h.frees_free f hf] at hptr
    cases hptr
  · intro f hf
    by_cases heq : f.1 = ptr
    · exact heq ▸ Function.update_self _ _ _
    · rcases List.mem_append.mp hf with hold | hnew
      · exact (Function.update_of_ne heq _ _).trans (h.frees_free f hold)
      · exact absurd (by rw [List.mem_singleton.mp hnew]) heq
  · intro f hf
    rcases List.mem_append.mp hf with hold | hnew
    · exact h.frees_backed f hold
    · rw [List.mem_singleton.mp hnew]
      exact h.allocs_backed ptr sz hptr
  · intro q sz' hq
    by_cases heq : q = ptr
    · subst heq
      exact absurd ((Function.update_self _ _ _).symm.trans hq) (by simp)
    · exact h.allocs_backed q sz' ((Function.update_of_ne heq _ _).symm.trans hq)

theorem Sound.systemFree_null (h : Sound s) : systemFree 0 s = s := by
  have hall : s.system.filter (fun b => b.1 ≠ 0) = s.system :=
    List.filter_eq_self.mpr fun a ha => by simpa using (h.system_pos a ha).1
  rw [systemFree, hall]

/-! ## Runs -/

/-- The allocator's state, and what its callers hold: the results of
`base_malloc` that have not been passed to `base_free` since, with the
sizes asked for. -/
structure World where
  s : State
  live : List BaseAllocation

def World.initial : World := ⟨.initial, []⟩

inductive Op where
  | malloc (sz : Nat) (rand : Nat → Nat) (b : SystemResult)
  | free (ptr : Nat)

def World.step (w : World) : Op → World
  | .malloc sz rand b =>
    let out := baseMalloc sz rand b w.s
    ⟨out.2, if out.1 = 0 then w.live else (out.1, sz) :: w.live⟩
  | .free ptr => ⟨baseFree ptr w.s, w.live.filter fun r => r.1 ≠ ptr⟩

/-- The system's `malloc` keeps its contract in this call. -/
def Op.Admissible (w : World) : Op → Prop
  | .malloc sz _ b => b.Fresh w.s sz
  | .free _ => True

/-- The worlds that calls of `base_malloc` and `base_free` reach. -/
def Reaches (w : World) : Prop :=
  Relation.ReflTransGen (fun w w' => ∃ op : Op, op.Admissible w ∧ w' = w.step op) World.initial w

/-- `Sound`, and `allocs` records what the callers hold. -/
structure World.Sound (w : World) : Prop where
  sound : BaseAlloc.Sound w.s
  live_nodup : (w.live.map Prod.fst).Nodup
  live_iff : ∀ ptr sz, (ptr, sz) ∈ w.live ↔ w.s.allocs ptr = some sz

variable {w : World}

/-- A result that the books do not have yet is added to both. -/
theorem World.Sound.add (h : w.Sound) {s' : State} (hs : BaseAlloc.Sound s')
    (hnone : w.s.allocs ptr = none)
    (hallocs : s'.allocs = Function.update w.s.allocs ptr (some sz)) :
    World.Sound ⟨s', (ptr, sz) :: w.live⟩ where
  sound := hs
  live_nodup := by
    refine List.nodup_cons.mpr ⟨fun hmem => ?_, h.live_nodup⟩
    obtain ⟨⟨ptr', sz'⟩, hlive, rfl⟩ := List.mem_map.mp hmem
    rw [(h.live_iff _ _).mp hlive] at hnone
    cases hnone
  live_iff := by
    intro ptr' sz'
    rw [hallocs, List.mem_cons, h.live_iff]
    by_cases heq : ptr' = ptr
    · subst heq
      rw [Function.update_self, hnone]
      simp [eq_comm]
    · rw [Function.update_of_ne heq]
      simp [heq]

/-- A result that is given back leaves both. -/
theorem World.Sound.remove (h : w.Sound) (hptr : w.s.allocs ptr = some sz) :
    World.Sound ⟨w.s.givenBack ptr sz, w.live.filter fun r => r.1 ≠ ptr⟩ where
  sound := h.sound.givenBack hptr
  live_nodup := h.live_nodup.sublist (List.filter_sublist.map _)
  live_iff := by
    intro ptr' sz'
    rw [List.mem_filter, h.live_iff, decide_eq_true_iff]
    dsimp only [State.givenBack]
    by_cases heq : ptr' = ptr
    · subst heq
      simp
    · rw [Function.update_of_ne heq]
      simp [heq]

/-- Nothing is given back where no result begins. -/
theorem World.filter_live (hnone : ∀ r ∈ w.live, r.1 ≠ ptr) :
    w.live.filter (fun r => r.1 ≠ ptr) = w.live :=
  List.filter_eq_self.mpr fun r hr => by simpa using hnone r hr

/-- The step lemma: both operations keep the invariant. -/
theorem World.Sound.step (h : w.Sound) {op : Op} (hadm : op.Admissible w) : (w.step op).Sound := by
  cases op with
  | malloc sz rand b =>
    have hfrees : ∀ f ∈ w.s.frees, f.1 ≠ 0 :=
      fun f hf => h.sound.backed_pos (h.sound.frees_backed f hf)
    rcases baseMalloc_cases sz rand b h.sound.enabled hfrees with
      ⟨i, f, hf, hfits, hmalloc⟩ | ⟨hb, hmalloc⟩ | ⟨hb, hmalloc⟩
    · have hmem := List.mem_of_getElem? hf
      rw [World.step, hmalloc]
      dsimp only
      rw [if_neg (hfrees f hmem)]
      exact h.add (h.sound.reused hf hfits) (h.sound.frees_free f hmem) rfl
    · have hnone : w.s.allocs b.addr = none := by
        cases hentry : w.s.allocs b.addr with
        | none => rfl
        | some n =>
          exact absurd (h.sound.allocs_backed _ n hentry) (hadm.not_backed h.sound hb)
      rw [World.step, hmalloc]
      dsimp only
      rw [if_neg hb]
      exact h.add (h.sound.extended hadm hb) hnone rfl
    · rw [World.step, hmalloc]
      exact h
  | free ptr =>
    have hlive : ∀ r ∈ w.live, w.s.allocs r.1 = some r.2 := fun r hr => (h.live_iff _ _).mp hr
    rw [World.step]
    rcases baseFree_cases ptr h.sound.enabled with
      ⟨rfl, hfree⟩ | ⟨hnone, hfree⟩ | ⟨sz, hptr, hfree⟩
    · have hnonzero : ∀ r ∈ w.live, r.1 ≠ 0 :=
        fun r hr => h.sound.backed_pos (h.sound.allocs_backed _ _ (hlive r hr))
      rw [hfree, h.sound.systemFree_null, World.filter_live hnonzero]
      exact h
    · have hother : ∀ r ∈ w.live, r.1 ≠ ptr := by
        intro r hr heq
        rw [← heq, hlive r hr] at hnone
        cases hnone
      rw [hfree, World.filter_live hother]
      exact h
    · rw [hfree]
      exact h.remove hptr

theorem Reaches.sound (h : Reaches w) : w.Sound := by
  induction h with
  | refl => exact ⟨sound_initial, .nil, by simp [World.initial, State.initial]⟩
  | tail _ hstep ih =>
    obtain ⟨op, hadm, rfl⟩ := hstep
    exact ih.step hadm

/-! ## No overlap -/

/-- What the base allocator promises: `allocs` and `frees` are apart, no
record is larger than its block, and the blocks of two results are
disjoint and as large as was asked for. -/
structure NoOverlap (w : World) : Prop where
  frees_nodup : (w.s.frees.map Prod.fst).Nodup
  apart : ∀ f ∈ w.s.frees, w.s.allocs f.1 = none
  allocs_size : ∀ ptr sz, w.s.allocs ptr = some sz → Backed w.s.system ptr sz
  frees_size : ∀ f ∈ w.s.frees, Backed w.s.system f.1 f.2
  live_size : ∀ r ∈ w.live, Backed w.s.system r.1 r.2
  live_disjoint : w.live.Pairwise fun r r' => ∀ n n', (r.1, n) ∈ w.s.system →
    (r'.1, n') ∈ w.s.system → ByteMem.Disjoint r.1 n r'.1 n'

/-- Blocks of the system's that begin at different addresses are disjoint. -/
theorem Sound.disjoint (h : Sound s) {p q n m : Nat} (hp : (p, n) ∈ s.system)
    (hq : (q, m) ∈ s.system) (hne : p ≠ q) : ByteMem.Disjoint p n q m := by
  have hsymm : Std.Symm fun a a' : BaseAllocation => ByteMem.Disjoint a.1 a.2 a'.1 a'.2 :=
    ⟨fun _ _ => ByteMem.Disjoint.symm⟩
  exact h.system_apart.forall hp hq fun heq => hne (congrArg Prod.fst heq)

theorem World.Sound.noOverlap (hw : w.Sound) : NoOverlap w where
  frees_nodup := hw.sound.frees_nodup
  apart := hw.sound.frees_free
  allocs_size := hw.sound.allocs_backed
  frees_size := hw.sound.frees_backed
  live_size := fun r hr => hw.sound.allocs_backed _ _ ((hw.live_iff _ _).mp hr)
  live_disjoint := by
    have hne : w.live.Pairwise fun r r' => r.1 ≠ r'.1 := List.pairwise_map.mp hw.live_nodup
    exact hne.imp fun hne n n' hn hn' => hw.sound.disjoint hn hn' hne

/-- **The base allocator never hands out overlapping memory**, in any run. -/
theorem base_allocator_no_overlap (h : Reaches w) : NoOverlap w := h.sound.noOverlap

/-- A block of 8 bytes is freed and handed out again for 4; then a new one
is. -/
def reuseRun : World :=
  (((World.initial.step (.malloc 8 (fun _ => 1) ⟨16, 8⟩)).step (.free 16)).step
    (.malloc 4 (fun _ => 1) ⟨0, 0⟩)).step (.malloc 8 (fun _ => 1) ⟨32, 8⟩)

theorem base_allocator_no_overlap_reuse :
    reuseRun.live = [(32, 8), (16, 4)] ∧ Reaches reuseRun ∧ NoOverlap reuseRun := by
  have hreach : Reaches reuseRun := by
    refine .tail (.tail (.tail (.single ⟨.malloc 8 (fun _ => 1) ⟨16, 8⟩, .inr ?_, rfl⟩)
      ⟨.free 16, trivial, rfl⟩) ⟨.malloc 4 (fun _ => 1) ⟨0, 0⟩, .inl rfl, rfl⟩)
      ⟨.malloc 8 (fun _ => 1) ⟨32, 8⟩, .inr ?_, rfl⟩
    · exact ⟨by decide, List.forall_mem_nil _⟩
    · exact ⟨by decide, by decide⟩
  exact ⟨rfl, hreach, base_allocator_no_overlap hreach⟩

/-- What `base_malloc` returns keeps the contract that `dmalloc` relies on,
if the system's blocks are aligned and end within the address space. -/
theorem baseMalloc_admissible (h : Reaches w) (hfresh : b.Fresh w.s sz)
    (haligned : ∀ a ∈ (baseMalloc sz rand b w.s).2.system, 16 ∣ a.1 ∧ a.1 + a.2 ≤ 2 ^ 64)
    (contents : Nat → UInt8) (frees : List Nat) :
    BaseResult.Admissible ⟨(baseMalloc sz rand b w.s).1, contents⟩ ⟨w.live, frees⟩ sz := by
  by_cases hnull : (baseMalloc sz rand b w.s).1 = 0
  · exact .inl hnull
  · have hadm : (Op.malloc sz rand b).Admissible w := hfresh
    have hover := (h.sound.step hadm).noOverlap
    rw [World.step, if_neg hnull] at hover
    obtain ⟨n, hn, hsz⟩ := hover.live_size _ List.mem_cons_self
    obtain ⟨halign, hend⟩ := haligned _ hn
    refine .inr ⟨halign, by dsimp only at hend hsz ⊢; omega, fun old hold => ?_⟩
    obtain ⟨m, hm, hsize⟩ := hover.live_size old (List.mem_cons_of_mem _ hold)
    have hapart := List.rel_of_pairwise_cons hover.live_disjoint hold n m hn hm
    simp only [ByteMem.Disjoint] at hapart hsz ⊢
    omega

end

end SystemsProjects.Dmalloc.BaseAlloc
