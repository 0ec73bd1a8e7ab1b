/-
SystemsProjects.Snake.LinkedList — the doubly linked list of the snake
(src/linked_list.c).

Data are pointers; the bytes they point to matter for `memcmp` only, and
may be other ones at every call. `IsList` says that the nodes from the
head on are linked both ways. Each operation on the nodes is the one on
the sequence of their data (`exec_represents`), so every run is
(`run_refines`).

`head_list` is the address of a list's head and is never null. An access
through a null pointer or to a node that is not allocated is a `Fault`,
and so is an `int` that overflows. Loops are given fuel.
-/
import SystemsProjects.Base.DoublyLinked
import SystemsProjects.Base.Fallible
import Mathlib.Algebra.Group.Nat.Defs
import Mathlib.Algebra.Group.Int.Defs

namespace SystemsProjects.Snake.LinkedList

open SystemsProjects.Base SystemsProjects.Base.DoublyLinked

/-! ## The source -/

inductive Fault where
  | badPointer
  | intOverflow
  | outOfFuel
  deriving DecidableEq, Repr

/-- A `void*`; 0 is `NULL`. -/
abbrev Data := Nat

/-- The heap, and `*head_list`. -/
structure State where
  heap : Heap Data
  head : Nat

def State.empty : State := ⟨fun _ => none, 0⟩

/-- `*p`. -/
def load (heap : Heap Data) (p : Nat) : Except Fault (Node Data) :=
  match heap p with
  | some node => if p = 0 then .error .badPointer else .ok node
  | none => .error .badPointer

/-- `p->next = v`. -/
def setNext (heap : Heap Data) (p v : Nat) : Except Fault (Heap Data) := do
  let node ← load heap p
  return Function.update heap p (some { node with next := v })

/-- `p->prev = v`. -/
def setPrev (heap : Heap Data) (p v : Nat) : Except Fault (Heap Data) := do
  let node ← load heap p
  return Function.update heap p (some { node with prev := v })

/-- `if (p) p->prev = v`. -/
def setPrevIf (heap : Heap Data) (p v : Nat) : Except Fault (Heap Data) :=
  if p ≠ 0 then setPrev heap p v else .ok heap

/-- `free(p)` for a node. -/
def free (heap : Heap Data) (p : Nat) : Except Fault (Heap Data) := do
  let _ ← load heap p
  return Function.update heap p none

def INT_MAX : Nat := 2 ^ 31 - 1

/-- `!memcmp(a, b, size)`, in a memory of bytes. -/
def sameBytes (mem : Nat → UInt8) (a b size : Nat) : Bool :=
  (List.range size).all fun i => mem (a + i) = mem (b + i)

def llLengthLoop (heap : Heap Data) : Nat → Nat → Nat → Except Fault Nat
  | 0, _, _ => .error .outOfFuel
  | fuel + 1, current, len =>
    if current = 0 then .ok len
    else if len = INT_MAX then .error .intOverflow
    else do
      let node ← load heap current
      llLengthLoop heap fuel node.next (len + 1)

def llLength (fuel : Nat) (s : State) : Except Fault Nat :=
  if s.head = 0 then .ok 0 else llLengthLoop s.heap fuel s.head 0

def llGetFirst (s : State) : Except Fault Data :=
  if s.head = 0 then .ok 0
  else do
    let node ← load s.heap s.head
    return node.data

/-- `while (curr->next) curr = curr->next;`. -/
def lastNode (heap : Heap Data) : Nat → Nat → Except Fault Nat
  | 0, _ => .error .outOfFuel
  | fuel + 1, curr => do
    let node ← load heap curr
    if node.next ≠ 0 then lastNode heap fuel node.next else return curr

def llGetLast (fuel : Nat) (s : State) : Except Fault Data :=
  if s.head = 0 then .ok 0
  else do
    let curr ← lastNode s.heap fuel s.head
    let node ← load s.heap curr
    return node.data

/-- `ll_insert_first`; `new_list` is what `malloc` returns. -/
def llInsertFirst (to_add : Data) (new_list : Nat) (s : State) : Except Fault State :=
  if new_list = 0 then .ok s
  else do
    let heap := Function.update s.heap new_list (some ⟨to_add, s.head, 0⟩)
    let heap ← setPrevIf heap s.head new_list
    return ⟨heap, new_list⟩

/-- `ll_insert_last`; it does not look at what `malloc` returns. -/
def llInsertLast (fuel : Nat) (to_add : Data) (new_element : Nat) (s : State) :
    Except Fault State :=
  if to_add = 0 then .ok s
  else if new_element = 0 then .error .badPointer
  else do
    let heap := Function.update s.heap new_element (some ⟨to_add, 0, 0⟩)
    if s.head = 0 then return ⟨heap, new_element⟩
    let curr ← lastNode heap fuel s.head
    let heap ← setNext heap curr new_element
    let heap ← setPrev heap new_element curr
    return ⟨heap, s.head⟩

def llGetLoop (heap : Heap Data) : Nat → Nat → Int → Except Fault Data
  | 0, _, _ => .error .outOfFuel
  | fuel + 1, curr, index =>
    if curr = 0 then .ok 0
    else do
      let node ← load heap curr
      if index = 0 then return node.data
      llGetLoop heap fuel node.next (index - 1)

def llGet (fuel : Nat) (index : Int) (s : State) : Except Fault Data :=
  if index < 0 then .ok 0 else llGetLoop s.heap fuel s.head index

/-- The part of `ll_remove_element` for an element that matches. -/
def removeNode (curr : Nat) (s : State) : Except Fault (State × Data) := do
  let node ← load s.heap curr
  let heap ← setPrevIf s.heap node.next node.prev
  -- `curr` is read again behind each write
  let node ← load heap curr
  let s : State ←
    if curr = s.head then pure ⟨heap, node.next⟩
    else do
      let heap ← setNext heap node.prev node.next
      pure ⟨heap, s.head⟩
  let node ← load s.heap curr
  let heap ← free s.heap curr
  return (⟨heap, s.head⟩, node.data)

def llRemoveElementLoop (mem : Nat → UInt8) (to_remove : Data) (size : Nat) (s : State) :
    Nat → Nat → Except Fault (State × Data)
  | 0, _ => .error .outOfFuel
  | fuel + 1, curr =>
    if curr = 0 then .ok (s, 0)
    else do
      let node ← load s.heap curr
      if sameBytes mem node.data to_remove size then removeNode curr s
      else llRemoveElementLoop mem to_remove size s fuel node.next

def llRemoveElement (fuel : Nat) (mem : Nat → UInt8) (to_remove : Data) (size : Nat) (s : State) :
    Except Fault (State × Data) :=
  if s.head = 0 then .ok (s, 0) else llRemoveElementLoop mem to_remove size s fuel s.head

/-- The loop of `reverse_helper`. -/
def reverseLoop : Nat → Nat → Nat → State → Except Fault State
  | 0, _, _, _ => .error .outOfFuel
  | fuel + 1, curr, placeholder, s =>
    if curr = 0 then .ok s
    else do
      let node ← load s.heap curr
      let head := if node.next = 0 then curr else s.head
      let heap ← setPrev s.heap curr node.next
      let heap ← setNext heap curr placeholder
      let node ← load heap curr
      reverseLoop fuel node.prev curr ⟨heap, head⟩

/-- `ll_reverse` with `reverse_helper`. -/
def llReverse (fuel : Nat) (s : State) : Except Fault State :=
  if s.head = 0 then .ok s
  else do
    let node ← load s.heap s.head
    if node.next ≠ 0 then reverseLoop fuel s.head 0 s else return s

def llRemoveFirst (s : State) : Except Fault (State × Data) :=
  if s.head = 0 then .ok (s, 0)
  else do
    let curr := s.head
    let node ← load s.heap curr
    let head := node.next
    let heap ← setPrevIf s.heap head 0
    let node ← load heap curr
    let heap ← free heap curr
    return (⟨heap, head⟩, node.data)

def llRemoveLast (fuel : Nat) (s : State) : Except Fault (State × Data) :=
  if s.head = 0 then .ok (s, 0)
  else do
    let node ← load s.heap s.head
    if node.next = 0 then
      let heap ← free s.heap s.head
      return (⟨heap, 0⟩, node.data)
    let curr ← lastNode s.heap fuel s.head
    let node ← load s.heap curr
    let heap ← setNext s.heap node.prev 0
    let node ← load heap curr
    let heap ← free heap curr
    return (⟨heap, s.head⟩, node.data)

/-! ## Nodes that are a list -/

/-- The nodes from the head on: linked both ways, null at both ends,
allocated, and none twice. -/
structure IsList (s : State) (cells : List (Nat × Data)) : Prop where
  linked : Segment s.heap 0 s.head cells 0
  nodup : (addrs cells).Nodup

section

variable {s : State} {heap : Heap Data} {prev p q fuel : Nat} {cells xs ys : List (Nat × Data)}

theorem load_eq {node : Node Data} (h : heap p = some node) (hp : p ≠ 0) :
    load heap p = .ok node := by
  simp [load, h, hp]

/-- `if (p) p->prev = prev'`, where `p` is the begin of a segment. -/
theorem setPrevIf_segment (h : Segment heap prev p cells 0) (hnodup : (addrs cells).Nodup)
    (prev' : Nat) :
    ∃ heap', setPrevIf heap p prev' = .ok heap' ∧ Segment heap' prev' p cells 0 ∧
      ∀ a ∉ addrs cells, heap' a = heap a := by
  cases cells with
  | nil =>
    obtain rfl : p = 0 := h
    exact ⟨heap, if_neg (not_not_intro rfl), rfl, fun _ _ => rfl⟩
  | cons cell rest =>
    have hp := h.ne_zero (by simp)
    obtain ⟨node, hnode, hset⟩ := h.setPrev (by simp) hnodup prev'
    refine ⟨_, ?_, hset, ?_⟩
    · rw [setPrevIf, if_pos hp, setPrev, load_eq hnode hp]
      rfl
    · obtain ⟨rfl, -⟩ := h
      intro a ha
      exact Function.update_of_ne (ne_of_mem_of_not_mem List.mem_cons_self ha).symm _ _

/-- `last->next = q'`, where `last` is the end of a segment. -/
theorem setNext_segment (h : Segment heap prev p cells q) (hne : cells ≠ [])
    (hnodup : (addrs cells).Nodup) (q' : Nat) :
    ∃ heap', setNext heap (lastAddr prev cells) q' = .ok heap' ∧
      Segment heap' prev p cells q' ∧ ∀ a ∉ addrs cells, heap' a = heap a := by
  obtain ⟨node, hnode, hset⟩ := h.setNext hne hnodup q'
  have hmem := lastAddr_mem hne prev
  refine ⟨_, ?_, hset, fun a ha => Function.update_of_ne (ne_of_mem_of_not_mem hmem ha).symm _ _⟩
  rw [setNext, load_eq hnode (h.allocated _ hmem).1]
  rfl

theorem free_eq {node : Node Data} (h : heap p = some node) (hp : p ≠ 0) :
    free heap p = .ok (Function.update heap p none) := by
  rw [free, load_eq h hp]
  rfl

/-! ## Reading -/

theorem lastNode_eq (h : Segment heap prev p cells 0) (hne : cells ≠ [])
    (hfuel : cells.length ≤ fuel) : lastNode heap fuel p = .ok (lastAddr prev cells) := by
  induction cells generalizing prev p fuel with
  | nil => exact absurd rfl hne
  | cons cell rest ih =>
    obtain ⟨fuel, rfl⟩ : ∃ f, fuel = f + 1 := ⟨fuel - 1, by rw [List.length_cons] at hfuel; omega⟩
    obtain ⟨rfl, hcell, next, hnode, hrest⟩ := h
    rw [lastNode, load_eq hnode hcell, ok_bind]
    cases rest with
    | nil =>
      obtain rfl : next = 0 := hrest
      rfl
    | cons cell' rest =>
      rw [if_pos (hrest.ne_zero (by simp)), ih hrest (by simp) (Nat.le_of_succ_le_succ hfuel)]
      rfl

theorem llLengthLoop_eq {len : Nat} (h : Segment heap prev p cells 0) (hfuel : cells.length < fuel)
    (hlen : len ≤ INT_MAX) :
    llLengthLoop heap fuel p len =
      if len + cells.length ≤ INT_MAX then .ok (len + cells.length) else .error .intOverflow := by
  induction cells generalizing prev p fuel len with
  | nil =>
    obtain ⟨fuel, rfl⟩ : ∃ f, fuel = f + 1 := ⟨fuel - 1, by omega⟩
    obtain rfl : p = 0 := h
    rw [llLengthLoop, if_pos rfl, List.length_nil, Nat.add_zero, if_pos hlen]
  | cons cell rest ih =>
    obtain ⟨fuel, rfl⟩ : ∃ f, fuel = f + 1 := ⟨fuel - 1, by omega⟩
    obtain ⟨rfl, hcell, next, hnode, hrest⟩ := h
    rw [List.length_cons] at hfuel ⊢
    rw [llLengthLoop, if_neg hcell]
    by_cases hmax : len = INT_MAX
    · rw [if_pos hmax, if_neg (by omega)]
    · rw [if_neg hmax, load_eq hnode hcell, ok_bind, ih hrest (by omega) (by omega),
        Nat.add_assoc, Nat.add_comm 1]

theorem llGetLoop_eq (h : Segment heap prev p cells 0) (hfuel : cells.length < fuel) (n : Nat) :
    llGetLoop heap fuel p n = .ok ((cells.map Prod.snd).getD n 0) := by
  induction cells generalizing prev p fuel n with
  | nil =>
    obtain ⟨fuel, rfl⟩ : ∃ f, fuel = f + 1 := ⟨fuel - 1, by omega⟩
    obtain rfl : p = 0 := h
    rw [llGetLoop, if_pos rfl]
    rfl
  | cons cell rest ih =>
    obtain ⟨fuel, rfl⟩ : ∃ f, fuel = f + 1 := ⟨fuel - 1, by omega⟩
    obtain ⟨rfl, hcell, next, hnode, hrest⟩ := h
    rw [List.length_cons] at hfuel
    rw [llGetLoop, if_neg hcell, load_eq hnode hcell, ok_bind]
    cases n with
    | zero => rfl
    | succ n =>
      have hindex : ((n + 1 : Nat) : Int) - 1 = n := by omega
      rw [if_neg (by omega), hindex, ih hrest (by omega) n]
      rfl

/-! ## Inserting -/

/-- A node that is not allocated is none of the list. -/
theorem IsList.not_mem {new : Nat} (h : IsList s cells) (hnew : s.heap new = none) :
    new ∉ addrs cells :=
  fun hmem => (h.linked.allocated new hmem).2 hnew

/-- `malloc` in front of a list that does not have the new node. -/
theorem IsList.malloc {new : Nat} (h : IsList s cells) (hnew : s.heap new = none)
    (node : Node Data) :
    Segment (Function.update s.heap new (some node)) 0 s.head cells 0 :=
  h.linked.update (h.not_mem hnew) _

theorem llInsertFirst_spec {new : Nat} (to_add : Data) (h : IsList s cells) (hne : new ≠ 0)
    (hnew : s.heap new = none) :
    ∃ s', llInsertFirst to_add new s = .ok s' ∧ IsList s' ((new, to_add) :: cells) ∧
      ∀ a, a ≠ new → a ∉ addrs cells → s'.heap a = s.heap a := by
  obtain ⟨heap, hset, hseg, hframe⟩ :=
    setPrevIf_segment (h.malloc hnew ⟨to_add, s.head, 0⟩) h.nodup new
  have hself : heap new = some ⟨to_add, s.head, 0⟩ :=
    (hframe new (h.not_mem hnew)).trans (Function.update_self _ _ _)
  refine ⟨⟨heap, new⟩, ?_, ⟨⟨rfl, hne, s.head, hself, hseg⟩, ?_⟩, ?_⟩
  · rw [llInsertFirst, if_neg hne]
    dsimp only
    rw [hset]
    rfl
  · exact List.nodup_cons.mpr ⟨h.not_mem hnew, h.nodup⟩
  · intro a ha hmem
    exact (hframe a hmem).trans (Function.update_of_ne ha _ _)

theorem llInsertLast_spec {new to_add : Nat} (h : IsList s cells) (hdata : to_add ≠ 0)
    (hne : new ≠ 0) (hnew : s.heap new = none) (hfuel : cells.length < fuel) :
    ∃ s', llInsertLast fuel to_add new s = .ok s' ∧ IsList s' (cells ++ [(new, to_add)]) := by
  have hmalloc := h.malloc hnew ⟨to_add, 0, 0⟩
  by_cases hempty : cells = []
  · subst hempty
    obtain hhead : s.head = 0 := h.linked
    have hself := Function.update_self new (some (⟨to_add, 0, 0⟩ : Node Data)) s.heap
    refine ⟨⟨Function.update s.heap new (some ⟨to_add, 0, 0⟩), new⟩, ?_,
      ⟨rfl, hne, 0, hself, rfl⟩, by simp⟩
    rw [llInsertLast, if_neg hdata, if_neg hne, if_pos hhead]
    rfl
  · have hhead := hmalloc.ne_zero hempty
    obtain ⟨heap, hset, hseg, hframe⟩ := setNext_segment hmalloc hempty h.nodup new
    have hself : heap new = some ⟨to_add, 0, 0⟩ :=
      (hframe new (h.not_mem hnew)).trans (Function.update_self _ _ _)
    have hback : setPrev heap new (lastAddr 0 cells) =
        .ok (Function.update heap new (some ⟨to_add, 0, lastAddr 0 cells⟩)) := by
      rw [setPrev, load_eq hself hne]
      rfl
    refine ⟨⟨Function.update heap new (some ⟨to_add, 0, lastAddr 0 cells⟩), s.head⟩, ?_,
      segment_append.mpr ⟨new, ?_, ?_⟩, ?_⟩
    rotate_left
    · exact hseg.update (h.not_mem hnew) _
    · exact ⟨rfl, hne, 0, Function.update_self _ _ _, rfl⟩
    · rw [addrs_append, List.nodup_append]
      refine ⟨h.nodup, by simp, fun a ha b hb => ?_⟩
      obtain rfl := List.mem_singleton.mp hb
      exact ne_of_mem_of_not_mem ha (h.not_mem hnew)
    · rw [llInsertLast, if_neg hdata, if_neg hne, if_neg hhead,
        lastNode_eq hmalloc hempty (Nat.le_of_lt hfuel), ok_bind, hset, ok_bind, hback]
      rfl

/-! ## Removing -/

/-- `ll_remove_element` at a match: the node is taken out between its
neighbours. -/
theorem removeNode_spec {a : Nat} {d : Data} (h : IsList s (xs ++ (a, d) :: ys)) :
    ∃ s', removeNode a s = .ok (s', d) ∧ IsList s' (xs ++ ys) := by
  obtain ⟨m, hxs, rfl, ha, next, hnode, hys⟩ := segment_append.mp h.linked
  have hnodup := h.nodup
  rw [addrs_append, addrs_cons, List.nodup_append, List.nodup_cons] at hnodup
  obtain ⟨hnxs, ⟨hays, hnys⟩, hdisj⟩ := hnodup
  have haxs : m ∉ addrs xs := fun hmem => hdisj m hmem m List.mem_cons_self rfl
  have hnodup' : (addrs (xs ++ ys)).Nodup := by
    rw [addrs_append, List.nodup_append]
    exact ⟨hnxs, hnys, fun b hb c hc => hdisj b hb c (List.mem_cons_of_mem _ hc)⟩
  -- `curr->next->prev = curr->prev`
  obtain ⟨heap, hset, hseg, hframe⟩ := setPrevIf_segment hys hnys (lastAddr 0 xs)
  have hnode₁ : heap m = some ⟨d, next, lastAddr 0 xs⟩ := (hframe m hays).trans hnode
  have hxs₁ : Segment heap 0 s.head xs m := hxs.frame fun b hb =>
    hframe b fun hmem => hdisj b hb b (List.mem_cons_of_mem _ hmem) rfl
  by_cases hempty : xs = []
  · subst hempty
    have hhead : s.head = m := hxs
    refine ⟨⟨Function.update heap m none, next⟩, ?_, hseg.update hays none, hnodup'⟩
    simp only [removeNode, load_eq hnode ha, ok_bind, hset, load_eq hnode₁ ha, if_pos hhead.symm,
      pure_eq_ok, free_eq hnode₁ ha]
  · have hother : m ≠ s.head := by
      rintro rfl
      exact haxs (hxs.head_mem hempty)
    -- `curr->prev->next = curr->next`
    obtain ⟨heap₂, hset₂, hseg₂, hframe₂⟩ := setNext_segment hxs₁ hempty hnxs next
    have hnode₂ : heap₂ m = some ⟨d, next, lastAddr 0 xs⟩ := (hframe₂ m haxs).trans hnode₁
    have hys₂ : Segment heap₂ (lastAddr 0 xs) next ys 0 := hseg.frame fun b hb =>
      hframe₂ b fun hmem => hdisj b hmem b (List.mem_cons_of_mem _ hb) rfl
    refine ⟨⟨Function.update heap₂ m none, s.head⟩, ?_,
      segment_append.mpr ⟨next, hseg₂.update haxs none, hys₂.update hays none⟩, hnodup'⟩
    simp only [removeNode, load_eq hnode ha, ok_bind, hset, load_eq hnode₁ ha, if_neg hother,
      hset₂, pure_eq_ok, load_eq hnode₂ ha, free_eq hnode₂ ha]

theorem llRemoveFirst_spec {a : Nat} {d : Data} (h : IsList s ((a, d) :: cells)) :
    ∃ s', llRemoveFirst s = .ok (s', d) ∧ IsList s' cells := by
  obtain ⟨hhead, ha, next, hnode, hrest⟩ := h.linked
  obtain ⟨hmem, hnodup⟩ := List.nodup_cons.mp h.nodup
  obtain ⟨heap, hset, hseg, hframe⟩ := setPrevIf_segment hrest hnodup 0
  have hnode' : heap a = some ⟨d, next, 0⟩ := (hframe a hmem).trans hnode
  refine ⟨⟨Function.update heap a none, next⟩, ?_, hseg.update hmem none, hnodup⟩
  rw [llRemoveFirst, hhead, if_neg ha]
  simp only [load_eq hnode ha, ok_bind, hset, load_eq hnode' ha, free_eq hnode' ha, pure_eq_ok]

theorem llRemoveLast_spec {a : Nat} {d : Data} (h : IsList s (cells ++ [(a, d)]))
    (hfuel : cells.length < fuel) :
    ∃ s', llRemoveLast fuel s = .ok (s', d) ∧ IsList s' cells := by
  obtain ⟨m, hcells, rfl, ha, next, hnode, hend⟩ := segment_append.mp h.linked
  obtain rfl : next = 0 := hend
  have hnodup := h.nodup
  rw [addrs_append, addrs_cons, List.nodup_append] at hnodup
  have hmem : m ∉ addrs cells := fun hin => hnodup.2.2 m hin m List.mem_cons_self rfl
  have hhead : s.head ≠ 0 := h.linked.ne_zero (by simp)
  by_cases hempty : cells = []
  · subst hempty
    obtain rfl : s.head = m := hcells
    refine ⟨⟨Function.update s.heap s.head none, 0⟩, ?_, rfl, .nil⟩
    rw [llRemoveLast, if_neg ha, load_eq hnode ha, ok_bind, if_pos rfl, free_eq hnode ha]
    rfl
  · obtain ⟨heap, hset, hseg, hframe⟩ := setNext_segment hcells hempty hnodup.1 0
    have hnode' : heap m = some ⟨d, 0, lastAddr 0 cells⟩ := (hframe m hmem).trans hnode
    have hlast : lastNode s.heap fuel s.head = .ok m := by
      have hlast := lastNode_eq h.linked (by simp) (show (cells ++ [(m, d)]).length ≤ fuel by
        rw [List.length_append, List.length_singleton]
        exact hfuel)
      rwa [lastAddr_concat] at hlast
    have hfirst : ∃ node, s.heap s.head = some node ∧ node.next ≠ 0 := by
      obtain ⟨cell, rest, rfl⟩ := List.exists_cons_of_ne_nil hempty
      obtain ⟨hhead, -, second, hfirst, hsecond⟩ := h.linked
      exact ⟨_, hhead ▸ hfirst, hsecond.ne_zero (by simp)⟩
    obtain ⟨first, hfirst, hsecond⟩ := hfirst
    refine ⟨⟨Function.update heap m none, s.head⟩, ?_, hseg.update hmem none, hnodup.1⟩
    rw [llRemoveLast, if_neg hhead, load_eq hfirst hhead, ok_bind, if_neg hsecond, hlast]
    simp only [ok_bind, load_eq hnode ha, hset, load_eq hnode' ha, free_eq hnode' ha, pure_eq_ok]

theorem llRemoveElementLoop_eq (mem : Nat → UInt8) (to_remove : Data) (size : Nat)
    (h : Segment s.heap prev p cells 0) (hfuel : cells.length < fuel) :
    llRemoveElementLoop mem to_remove size s fuel p =
      match cells.find? fun cell => sameBytes mem cell.2 to_remove size with
      | none => .ok (s, 0)
      | some cell => removeNode cell.1 s := by
  induction cells generalizing prev p fuel with
  | nil =>
    obtain ⟨fuel, rfl⟩ : ∃ f, fuel = f + 1 := ⟨fuel - 1, by omega⟩
    obtain rfl : p = 0 := h
    rw [llRemoveElementLoop, if_pos rfl]
    rfl
  | cons cell rest ih =>
    obtain ⟨fuel, rfl⟩ : ∃ f, fuel = f + 1 := ⟨fuel - 1, by omega⟩
    obtain ⟨rfl, hcell, next, hnode, hrest⟩ := h
    rw [List.length_cons] at hfuel
    rw [llRemoveElementLoop, if_neg hcell, load_eq hnode hcell, ok_bind, List.find?_cons]
    dsimp only
    cases sameBytes mem cell.2 to_remove size with
    | true => rfl
    | false => exact ih hrest (by omega)

/-! ## Reversing -/

/-- The loop of `reverse_helper`: the cells `xs` are reversed already, the
first of them still linked back to `curr`; those from `curr` on are as they
were. -/
theorem reverseLoop_spec {curr placeholder : Nat}
    (hdone : Segment s.heap curr placeholder xs 0) (hrest : Segment s.heap placeholder curr ys 0)
    (hnodup : (addrs xs ++ addrs ys).Nodup) (hhead : ys = [] → s.head = placeholder)
    (hfuel : ys.length < fuel) :
    ∃ s', reverseLoop fuel curr placeholder s = .ok s' ∧ IsList s' (ys.reverse ++ xs) := by
  induction ys generalizing curr placeholder xs s fuel with
  | nil =>
    obtain ⟨fuel, rfl⟩ : ∃ f, fuel = f + 1 := ⟨fuel - 1, by omega⟩
    obtain rfl : curr = 0 := hrest
    rw [addrs_nil, List.append_nil] at hnodup
    exact ⟨s, if_pos rfl, (hhead rfl).symm ▸ hdone, hnodup⟩
  | cons cell ys ih =>
    obtain ⟨fuel, rfl⟩ : ∃ f, fuel = f + 1 := ⟨fuel - 1, by omega⟩
    obtain ⟨rfl, hcell, next, hnode, hnext⟩ := hrest
    have hnodup' : (addrs (cell :: xs) ++ addrs ys).Nodup := List.nodup_middle.mp hnodup
    have hmem : cell.1 ∉ addrs xs ∧ cell.1 ∉ addrs ys :=
      not_or.mp fun hin => (List.nodup_cons.mp hnodup').1 (List.mem_append.mpr hin)
    have hprev : setPrev s.heap cell.1 next =
        .ok (Function.update s.heap cell.1 (some ⟨cell.2, next, next⟩)) := by
      rw [setPrev, load_eq hnode hcell]
      rfl
    have hself := Function.update_self cell.1 (some (⟨cell.2, next, next⟩ : Node Data)) s.heap
    have hset : setNext (Function.update s.heap cell.1 (some ⟨cell.2, next, next⟩)) cell.1
        placeholder = .ok (Function.update s.heap cell.1 (some ⟨cell.2, placeholder, next⟩)) := by
      rw [setNext, load_eq hself hcell]
      exact congrArg Except.ok (Function.update_idem _ _ _)
    have hswapped :=
      Function.update_self cell.1 (some (⟨cell.2, placeholder, next⟩ : Node Data)) s.heap
    rw [reverseLoop, if_neg hcell, load_eq hnode hcell, ok_bind]
    dsimp only
    rw [hprev, ok_bind, hset, ok_bind, load_eq hswapped hcell, ok_bind, List.reverse_cons,
      List.append_assoc]
    refine ih ⟨rfl, hcell, placeholder, hswapped, hdone.update hmem.1 _⟩ (hnext.update hmem.2 _)
      hnodup' ?_ (Nat.lt_of_succ_lt_succ hfuel)
    rintro rfl
    exact if_pos hnext

theorem llReverse_spec (h : IsList s cells) (hfuel : cells.length < fuel) :
    ∃ s', llReverse fuel s = .ok s' ∧ IsList s' cells.reverse := by
  by_cases hempty : cells = []
  · subst hempty
    exact ⟨s, if_pos h.linked, h⟩
  · obtain ⟨cell, rest, rfl⟩ := List.exists_cons_of_ne_nil hempty
    obtain ⟨hhead, hcell, next, hnode, hrest⟩ := h.linked
    rw [llReverse, hhead, if_neg hcell, load_eq hnode hcell, ok_bind]
    by_cases hnext : next = 0
    · -- one element: nothing happens
      subst hnext
      obtain rfl := hrest.eq_nil
      exact ⟨s, if_neg (not_not_intro rfl), h⟩
    · rw [if_pos hnext, ← hhead]
      have hrun : ∃ s', reverseLoop fuel s.head 0 s = .ok s' ∧
          IsList s' ((cell :: rest).reverse ++ []) :=
        reverseLoop_spec rfl h.linked h.nodup (by simp) hfuel
      rwa [List.append_nil] at hrun

/-! ## Operations on the sequence -/

/-- A call; the insertions with the address that `malloc` returns, the
removal of an element with the bytes in memory then. -/
inductive Op where
  | insertFirst (to_add : Data) (malloc : Nat)
  | insertLast (to_add : Data) (malloc : Nat)
  | removeFirst
  | removeLast
  | removeElement (mem : Nat → UInt8) (to_remove : Data) (size : Nat)
  | reverse

/-- The call on the nodes; what returns nothing returns 0. -/
def exec (fuel : Nat) : Op → State → Except Fault (State × Data)
  | .insertFirst to_add malloc, s => do return (← llInsertFirst to_add malloc s, 0)
  | .insertLast to_add malloc, s => do return (← llInsertLast fuel to_add malloc s, 0)
  | .removeFirst, s => llRemoveFirst s
  | .removeLast, s => llRemoveLast fuel s
  | .removeElement mem to_remove size, s => llRemoveElement fuel mem to_remove size s
  | .reverse, s => do return (← llReverse fuel s, 0)

/-- The call on the sequence. -/
def Op.onSequence : Op → List Data → List Data × Data
  | .insertFirst to_add _, xs => (to_add :: xs, 0)
  | .insertLast to_add _, xs => (xs ++ [to_add], 0)
  | .removeFirst, xs => (xs.tail, xs.headD 0)
  | .removeLast, xs => (xs.dropLast, xs.getLastD 0)
  | .removeElement mem to_remove size, xs =>
    (xs.eraseP fun x => sameBytes mem x to_remove size,
      (xs.find? fun x => sameBytes mem x to_remove size).getD 0)
  | .reverse, xs => (xs.reverse, 0)

/-- The data are not null, and `malloc` returns a node that is free. -/
def Op.Admissible (s : State) : Op → Prop
  | .insertFirst to_add malloc | .insertLast to_add malloc =>
    to_add ≠ 0 ∧ malloc ≠ 0 ∧ s.heap malloc = none
  | .removeFirst | .removeLast | .removeElement _ _ _ | .reverse => True

theorem removeFirst_represents (h : IsList s cells) :
    ∃ s' cells', llRemoveFirst s = .ok (s', (cells.map Prod.snd).headD 0) ∧ IsList s' cells' ∧
      cells'.map Prod.snd = (cells.map Prod.snd).tail := by
  cases cells with
  | nil => exact ⟨s, [], if_pos h.linked, h, rfl⟩
  | cons cell rest =>
    obtain ⟨s', hremove, hlist⟩ := llRemoveFirst_spec h
    exact ⟨s', rest, hremove, hlist, rfl⟩

theorem removeLast_represents (h : IsList s cells) (hfuel : cells.length < fuel) :
    ∃ s' cells', llRemoveLast fuel s = .ok (s', (cells.map Prod.snd).getLastD 0) ∧
      IsList s' cells' ∧ cells'.map Prod.snd = (cells.map Prod.snd).dropLast := by
  rcases List.eq_nil_or_concat cells with rfl | ⟨init, ⟨a, d⟩, rfl⟩
  · exact ⟨s, [], if_pos h.linked, h, rfl⟩
  · rw [List.concat_eq_append] at *
    rw [List.length_append, List.length_singleton] at hfuel
    obtain ⟨s', hremove, hlist⟩ := llRemoveLast_spec h (Nat.lt_of_succ_lt hfuel)
    refine ⟨s', init, ?_, hlist, by simp⟩
    rw [hremove, List.map_append, List.map_singleton, List.getLastD_concat]

theorem llRemoveElement_eq (mem : Nat → UInt8) (to_remove : Data) (size : Nat)
    (h : IsList s cells) (hfuel : cells.length < fuel) :
    llRemoveElement fuel mem to_remove size s =
      match cells.find? fun cell => sameBytes mem cell.2 to_remove size with
      | none => .ok (s, 0)
      | some cell => removeNode cell.1 s := by
  rw [← llRemoveElementLoop_eq mem to_remove size h.linked hfuel, llRemoveElement]
  by_cases hhead : s.head = 0
  · obtain ⟨fuel, rfl⟩ : ∃ f, fuel = f + 1 := ⟨fuel - 1, by omega⟩
    rw [if_pos hhead, llRemoveElementLoop, if_pos hhead]
  · exact if_neg hhead

theorem removeElement_represents {mem : Nat → UInt8} {to_remove : Data} {size : Nat}
    (h : IsList s cells) (hfuel : cells.length < fuel) :
    ∃ s' cells', llRemoveElement fuel mem to_remove size s =
        .ok (s', ((cells.map Prod.snd).find? fun x => sameBytes mem x to_remove size).getD 0) ∧
      IsList s' cells' ∧
      cells'.map Prod.snd =
        (cells.map Prod.snd).eraseP fun x => sameBytes mem x to_remove size := by
  rw [llRemoveElement_eq mem to_remove size h hfuel, List.find?_map, List.eraseP_map]
  cases hfind : cells.find? fun cell => sameBytes mem cell.2 to_remove size with
  | none =>
    have hnone : cells.find? ((fun x => sameBytes mem x to_remove size) ∘ Prod.snd) = none := hfind
    rw [hnone, List.eraseP_of_forall_not (List.find?_eq_none.mp hnone)]
    exact ⟨s, cells, rfl, h, rfl⟩
  | some cell =>
    have hsome : cells.find? ((fun x => sameBytes mem x to_remove size) ∘ Prod.snd) =
      some cell := hfind
    obtain ⟨hmatch, before, after, rfl, hbefore⟩ := List.find?_eq_some_iff_append.mp hsome
    obtain ⟨s', hremove, hlist⟩ := removeNode_spec h
    refine ⟨s', before ++ after, ?_, hlist, ?_⟩
    · rw [hsome]
      exact hremove
    · rw [List.eraseP_append_right _ fun b hb => by simpa using hbefore b hb,
        List.eraseP_cons_of_pos hmatch]

/-- **One call**: the nodes carry what the call makes of the sequence, and
it returns what that returns. -/
theorem exec_represents (h : IsList s cells) {op : Op} (hadm : op.Admissible s)
    (hfuel : cells.length < fuel) :
    ∃ s' cells', exec fuel op s = .ok (s', (op.onSequence (cells.map Prod.snd)).2) ∧
      IsList s' cells' ∧ cells'.map Prod.snd = (op.onSequence (cells.map Prod.snd)).1 := by
  cases op with
  | insertFirst to_add malloc =>
    obtain ⟨-, hne, hfree⟩ := hadm
    obtain ⟨s', hinsert, hlist, -⟩ := llInsertFirst_spec to_add h hne hfree
    refine ⟨s', _, ?_, hlist, rfl⟩
    rw [exec, hinsert]
    rfl
  | insertLast to_add malloc =>
    obtain ⟨hdata, hne, hfree⟩ := hadm
    obtain ⟨s', hinsert, hlist⟩ := llInsertLast_spec h hdata hne hfree hfuel
    refine ⟨s', _, ?_, hlist, List.map_append⟩
    rw [exec, hinsert]
    rfl
  | removeFirst => exact removeFirst_represents h
  | removeLast => exact removeLast_represents h hfuel
  | removeElement mem to_remove size => exact removeElement_represents h hfuel
  | reverse =>
    obtain ⟨s', hreverse, hlist⟩ := llReverse_spec h hfuel
    refine ⟨s', _, ?_, hlist, List.map_reverse⟩
    rw [exec, hreverse]
    rfl

/-! ## Runs -/

/-- The calls one after the other, and what they return. -/
def run (fuel : Nat) : List Op → State → Except Fault (State × List Data)
  | [], s => .ok (s, [])
  | op :: ops, s => do
    let (s, result) ← exec fuel op s
    let (s, results) ← run fuel ops s
    return (s, result :: results)

def runSequence : List Op → List Data → List Data × List Data
  | [], xs => (xs, [])
  | op :: ops, xs =>
    let (xs, result) := op.onSequence xs
    let (xs, results) := runSequence ops xs
    (xs, result :: results)

/-- Every call of the run is admissible where it is made. -/
def AdmissibleRun (fuel : Nat) : List Op → State → Prop
  | [], _ => True
  | op :: ops, s => op.Admissible s ∧
    ∀ s' result, exec fuel op s = .ok (s', result) → AdmissibleRun fuel ops s'

/-- What the functions that only read return for the sequence; the length
is an `int`. -/
structure Answers (fuel : Nat) (s : State) (xs : List Data) : Prop where
  length : xs.length ≤ INT_MAX → llLength fuel s = .ok xs.length
  get : ∀ index : Int,
    llGet fuel index s = .ok (if index < 0 then 0 else xs.getD index.toNat 0)
  first : llGetFirst s = .ok (xs.headD 0)
  last : llGetLast fuel s = .ok (xs.getLastD 0)

theorem llLength_eq (h : IsList s cells) (hfuel : cells.length < fuel) :
    llLength fuel s =
      if cells.length ≤ INT_MAX then .ok cells.length else .error .intOverflow := by
  by_cases hempty : cells = []
  · subst hempty
    exact if_pos h.linked
  · have hloop := llLengthLoop_eq h.linked hfuel (Nat.zero_le INT_MAX)
    rw [Nat.zero_add] at hloop
    rwa [llLength, if_neg (h.linked.ne_zero hempty)]

theorem IsList.answers (h : IsList s cells) (hfuel : cells.length < fuel) :
    Answers fuel s (cells.map Prod.snd) where
  length := by
    intro hmax
    rw [List.length_map] at hmax ⊢
    rw [llLength_eq h hfuel, if_pos hmax]
  get := by
    intro index
    rw [llGet]
    split
    · rfl
    · rename_i hindex
      have hloop := llGetLoop_eq h.linked hfuel index.toNat
      rwa [Int.toNat_of_nonneg (Int.not_lt.mp hindex)] at hloop
  first := by
    cases cells with
    | nil => exact if_pos h.linked
    | cons cell rest =>
      obtain ⟨hhead, hcell, next, hnode, -⟩ := h.linked
      rw [llGetFirst, hhead, if_neg hcell, load_eq hnode hcell]
      rfl
  last := by
    rcases List.eq_nil_or_concat cells with rfl | ⟨init, ⟨a, d⟩, rfl⟩
    · exact if_pos h.linked
    · rw [List.concat_eq_append] at *
      have hlast := lastNode_eq h.linked (by simp) (Nat.le_of_lt hfuel)
      rw [lastAddr_concat] at hlast
      obtain ⟨m, -, rfl, ha, next, hnode, -⟩ := segment_append.mp h.linked
      rw [llGetLast, if_neg (h.linked.ne_zero (by simp)), hlast, ok_bind, load_eq hnode ha,
        List.map_append, List.map_singleton, List.getLastD_concat]
      rfl

theorem length_onSequence (op : Op) (xs : List Data) :
    (op.onSequence xs).1.length ≤ xs.length + 1 := by
  cases op with
  | insertFirst to_add malloc => exact Nat.le_refl _
  | insertLast to_add malloc => simp [Op.onSequence]
  | removeFirst => simp only [Op.onSequence, List.length_tail]; omega
  | removeLast => simp only [Op.onSequence, List.length_dropLast]; omega
  | removeElement mem to_remove size =>
    exact Nat.le_succ_of_le (List.eraseP_sublist.length_le)
  | reverse => simp [Op.onSequence]

/-- **Every run** on the nodes is the run on the sequence: the nodes are a
well-formed list of its elements, and all calls return the same. -/
theorem run_represents {ops : List Op} (h : IsList s cells) (hadm : AdmissibleRun fuel ops s)
    (hfuel : cells.length + ops.length < fuel) :
    ∃ s' cells', run fuel ops s = .ok (s', (runSequence ops (cells.map Prod.snd)).2) ∧
      IsList s' cells' ∧ cells'.map Prod.snd = (runSequence ops (cells.map Prod.snd)).1 ∧
      cells'.length < fuel := by
  induction ops generalizing s cells with
  | nil => exact ⟨s, cells, rfl, h, rfl, by simpa using hfuel⟩
  | cons op ops ih =>
    obtain ⟨hop, hrest⟩ := hadm
    rw [List.length_cons] at hfuel
    obtain ⟨s₁, cells₁, hexec, hlist₁, hcells₁⟩ :=
      exec_represents h hop (show cells.length < fuel by omega)
    have hlength := length_onSequence op (cells.map Prod.snd)
    rw [← hcells₁, List.length_map, List.length_map] at hlength
    obtain ⟨s', cells', hrun, hlist, hcells, hlt⟩ := ih hlist₁ (hrest s₁ _ hexec)
      (show cells₁.length + ops.length < fuel by omega)
    rw [hcells₁] at hrun hcells
    refine ⟨s', cells', ?_, hlist, hcells, hlt⟩
    rw [run, hexec, ok_bind]
    dsimp only
    rw [hrun]
    rfl

/-- **The doubly linked list refines a sequence**: after every run from the
empty list the nodes are a well-formed list of the sequence's elements,
every call has returned what the sequence gives, and so do the functions
that read, the length up to `INT_MAX`. -/
theorem run_refines {ops : List Op} (hadm : AdmissibleRun fuel ops .empty)
    (hfuel : ops.length < fuel) :
    ∃ s cells, run fuel ops .empty = .ok (s, (runSequence ops []).2) ∧ IsList s cells ∧
      cells.map Prod.snd = (runSequence ops []).1 ∧ Answers fuel s (runSequence ops []).1 := by
  have hempty : IsList .empty [] := ⟨rfl, .nil⟩
  obtain ⟨s, cells, hrun, hlist, hcells, hlt⟩ := run_represents hempty hadm (by simpa using hfuel)
  exact ⟨s, cells, hrun, hlist, hcells, hcells ▸ hlist.answers hlt⟩

/-- `5` in front, `6` behind, reversed, `5` found by its byte and removed,
then `6` from the end. -/
theorem run_refines_example :
    let ops : List Op := [.insertFirst 5 16, .insertLast 6 32, .reverse,
      .removeElement (fun _ => 0) 5 1, .removeLast]
    AdmissibleRun 6 ops .empty ∧ ∃ s cells, run 6 ops .empty = .ok (s, (runSequence ops []).2) ∧
      IsList s cells ∧ cells.map Prod.snd = (runSequence ops []).1 ∧
      Answers 6 s (runSequence ops []).1 := by
  have hadm : AdmissibleRun 6 [.insertFirst 5 16, .insertLast 6 32, .reverse,
      .removeElement (fun _ => 0) 5 1, .removeLast] .empty := by
    refine ⟨⟨by decide, by decide, rfl⟩, fun s result h => ?_⟩
    cases h
    refine ⟨⟨by decide, by decide, rfl⟩, fun s result h => ⟨trivial, fun s result h => ?_⟩⟩
    exact ⟨trivial, fun s result h => ⟨trivial, fun s result h => trivial⟩⟩
  exact ⟨hadm, run_refines hadm (by decide)⟩

/-! ## Long lists -/

/-- `n` insertions at nodes from `start` on. -/
def inserts (start n : Nat) : List Op := (List.range' start n).map (Op.insertFirst 1)

theorem inserts_succ (start n : Nat) :
    inserts start (n + 1) = .insertFirst 1 start :: inserts (start + 1) n := by
  rw [inserts, List.range'_succ, List.map_cons, inserts]

theorem inserts_admissible {start n : Nat} (h : IsList s cells) (hstart : start ≠ 0)
    (hfree : ∀ a, start ≤ a → s.heap a = none) : AdmissibleRun fuel (inserts start n) s := by
  induction n generalizing start s cells with
  | zero => exact trivial
  | succ n ih =>
    rw [inserts_succ]
    have hnew := hfree start (Nat.le_refl _)
    refine ⟨⟨Nat.one_ne_zero, hstart, hnew⟩, fun s' result hexec => ?_⟩
    obtain ⟨s₁, hinsert, hlist, hframe⟩ := llInsertFirst_spec 1 h hstart hnew
    rw [exec, hinsert] at hexec
    cases hexec
    refine ih hlist (Nat.succ_ne_zero _) fun a ha => ?_
    have hother : a ∉ addrs cells := h.not_mem (hfree a (Nat.le_of_succ_le ha))
    exact (hframe a (by omega) hother).trans (hfree a (Nat.le_of_succ_le ha))

theorem runSequence_inserts (start n : Nat) (xs : List Data) :
    (runSequence (inserts start n) xs).1.length = xs.length + n := by
  induction n generalizing start xs with
  | zero => rfl
  | succ n ih =>
    have hrest := ih (start + 1) (1 :: xs)
    rw [List.length_cons, Nat.add_assoc, Nat.add_comm 1] at hrest
    rw [inserts_succ]
    exact hrest

/-- A list that is too long for an `int`. -/
theorem inserts_overflow {n : Nat} (hn : INT_MAX < n) :
    AdmissibleRun (n + 1) (inserts 1 n) .empty ∧ (runSequence (inserts 1 n) []).1.length = n ∧
      ∃ s results, run (n + 1) (inserts 1 n) .empty = .ok (s, results) ∧
        llLength (n + 1) s = .error .intOverflow := by
  have hempty : IsList .empty [] := ⟨rfl, .nil⟩
  have hadm : AdmissibleRun (n + 1) (inserts 1 n) .empty :=
    inserts_admissible hempty Nat.one_ne_zero fun _ _ => rfl
  have hops : (inserts 1 n).length = n := by rw [inserts, List.length_map, List.length_range']
  have hlong := runSequence_inserts 1 n []
  rw [List.length_nil, Nat.zero_add] at hlong
  obtain ⟨s, cells, hrun, hlist, hcells, hlt⟩ := run_represents hempty hadm (by simp [hops])
  have hcount : cells.length = n := by
    rw [← hlong, ← List.map_nil, ← hcells, List.length_map]
  refine ⟨hadm, hlong, s, _, hrun, ?_⟩
  rw [llLength_eq hlist hlt, if_neg (by omega)]

/-- Behind 2^31 insertions the sequence has 2^31 elements, and `len++`
overflows. -/
theorem length_overflows :
    AdmissibleRun (2 ^ 31 + 1) (inserts 1 (2 ^ 31)) .empty ∧
      (runSequence (inserts 1 (2 ^ 31)) []).1.length = 2 ^ 31 ∧
      ∃ s results, run (2 ^ 31 + 1) (inserts 1 (2 ^ 31)) .empty = .ok (s, results) ∧
        llLength (2 ^ 31 + 1) s = .error .intOverflow :=
  inserts_overflow (by decide)

end

end SystemsProjects.Snake.LinkedList
