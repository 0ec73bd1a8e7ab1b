/-
SystemsProjects.Base.DoublyLinked — doubly linked lists in a heap.

`Segment heap prev p cells q` says that `cells`, pairs of an address and
what is stored there, are linked both ways: the pointer in front of them is
`p`, their first node points back to `prev`, and their last one on to `q`.
Segments are put together with `segment_append`. They depend on the nodes
of their own cells only (`Segment.frame`); writing one link of an end
changes what the segment is linked to there (`Segment.setPrev`,
`Segment.setNext`).

Nothing here names the programs of this repository.
-/
import Mathlib.Data.List.Basic
import Mathlib.Data.List.Nodup
import Mathlib.Logic.Function.Basic

namespace SystemsProjects.Base.DoublyLinked

structure Node (α : Type) where
  data : α
  next : Nat
  prev : Nat
  deriving DecidableEq, Repr

/-- The nodes allocated and not freed, by their addresses. -/
abbrev Heap (α : Type) := Nat → Option (Node α)

variable {α : Type}

/-- `cells` are linked to each other, to `prev` in front of them and to `q`
behind; `p` points to the first one. -/
def Segment (heap : Heap α) : Nat → Nat → List (Nat × α) → Nat → Prop
  | _, p, [], q => p = q
  | prev, p, (a, d) :: rest, q =>
    p = a ∧ a ≠ 0 ∧ ∃ next, heap a = some ⟨d, next, prev⟩ ∧ Segment heap a next rest q

def addrs (cells : List (Nat × α)) : List Nat := cells.map Prod.fst

/-- The address of the last cell, or `prev` if there is none. -/
def lastAddr (prev : Nat) : List (Nat × α) → Nat
  | [] => prev
  | (a, _) :: rest => lastAddr a rest

variable {heap heap' : Heap α} {prev p q : Nat} {cells xs ys : List (Nat × α)}

@[simp] theorem addrs_nil : addrs ([] : List (Nat × α)) = [] := rfl

@[simp] theorem addrs_cons (a : Nat) (d : α) (cells : List (Nat × α)) :
    addrs ((a, d) :: cells) = a :: addrs cells := rfl

@[simp] theorem addrs_append (xs ys : List (Nat × α)) : addrs (xs ++ ys) = addrs xs ++ addrs ys :=
  List.map_append

theorem lastAddr_mem (h : cells ≠ []) (prev : Nat) : lastAddr prev cells ∈ addrs cells := by
  induction cells generalizing prev with
  | nil => exact absurd rfl h
  | cons cell rest ih =>
    cases rest with
    | nil => exact List.mem_cons_self
    | cons next rest => exact List.mem_cons_of_mem _ (ih (by simp) cell.1)

@[simp] theorem lastAddr_concat (prev a : Nat) (d : α) :
    lastAddr prev (xs ++ [(a, d)]) = a := by
  induction xs generalizing prev with
  | nil => rfl
  | cons cell rest ih => exact ih cell.1

/-! ## Segments -/

theorem Segment.frame (h : Segment heap prev p cells q)
    (hsame : ∀ a ∈ addrs cells, heap' a = heap a) : Segment heap' prev p cells q := by
  induction cells generalizing prev p with
  | nil => exact h
  | cons cell rest ih =>
    obtain ⟨hp, hne, next, hnode, hrest⟩ := h
    obtain ⟨hcell, hsame⟩ := List.forall_mem_cons.mp hsame
    exact ⟨hp, hne, next, hcell.trans hnode, ih hrest hsame⟩

/-- Writing or freeing a node elsewhere leaves a segment alone. -/
theorem Segment.update (h : Segment heap prev p cells q) {a : Nat} (ha : a ∉ addrs cells)
    (node : Option (Node α)) : Segment (Function.update heap a node) prev p cells q :=
  h.frame fun _ hb => Function.update_of_ne (ne_of_mem_of_not_mem hb ha) _ _

theorem segment_append : Segment heap prev p (xs ++ ys) q ↔
    ∃ m, Segment heap prev p xs m ∧ Segment heap (lastAddr prev xs) m ys q := by
  induction xs generalizing prev p with
  | nil =>
    constructor
    · exact fun h => ⟨p, rfl, h⟩
    · rintro ⟨m, rfl, h⟩
      exact h
  | cons cell rest ih =>
    constructor
    · rintro ⟨hp, hne, next, hnode, hrest⟩
      obtain ⟨m, hxs, hys⟩ := ih.mp hrest
      exact ⟨m, ⟨hp, hne, next, hnode, hxs⟩, hys⟩
    · rintro ⟨m, ⟨hp, hne, next, hnode, hxs⟩, hys⟩
      exact ⟨hp, hne, next, hnode, ih.mpr ⟨m, hxs, hys⟩⟩

/-- The addresses of a segment are not null, and allocated. -/
theorem Segment.allocated (h : Segment heap prev p cells q) :
    ∀ a ∈ addrs cells, a ≠ 0 ∧ heap a ≠ none := by
  induction cells generalizing prev p with
  | nil => exact fun a ha => absurd ha List.not_mem_nil
  | cons cell rest ih =>
    obtain ⟨-, hne, next, hnode, hrest⟩ := h
    refine List.forall_mem_cons.mpr ⟨⟨hne, ?_⟩, ih hrest⟩
    rw [hnode]
    exact Option.some_ne_none _

/-- A segment that begins with null has no cells. -/
theorem Segment.eq_nil (h : Segment heap prev 0 cells q) : cells = [] := by
  cases cells with
  | nil => rfl
  | cons cell rest => exact absurd h.1.symm h.2.1

theorem Segment.ne_zero (h : Segment heap prev p cells q) (hne : cells ≠ []) : p ≠ 0 := by
  rintro rfl
  exact hne h.eq_nil

theorem Segment.head_mem (h : Segment heap prev p cells q) (hne : cells ≠ []) :
    p ∈ addrs cells := by
  cases cells with
  | nil => exact absurd rfl hne
  | cons cell rest => exact h.1 ▸ List.mem_cons_self

/-- Write the back link of the first node. -/
theorem Segment.setPrev (h : Segment heap prev p cells q) (hne : cells ≠ [])
    (hnodup : (addrs cells).Nodup) (prev' : Nat) :
    ∃ node, heap p = some node ∧
      Segment (Function.update heap p (some { node with prev := prev' })) prev' p cells q := by
  cases cells with
  | nil => exact absurd rfl hne
  | cons cell rest =>
    obtain ⟨rfl, hcell, next, hnode, hrest⟩ := h
    have hfirst := (List.nodup_cons.mp hnodup).1
    exact ⟨_, hnode, rfl, hcell, next, Function.update_self _ _ _, hrest.update hfirst _⟩

/-- Write the forward link of the last node. -/
theorem Segment.setNext (h : Segment heap prev p cells q) (hne : cells ≠ [])
    (hnodup : (addrs cells).Nodup) (q' : Nat) :
    ∃ node, heap (lastAddr prev cells) = some node ∧
      Segment (Function.update heap (lastAddr prev cells) (some { node with next := q' }))
        prev p cells q' := by
  induction cells generalizing prev p with
  | nil => exact absurd rfl hne
  | cons cell rest ih =>
    obtain ⟨rfl, hcell, next, hnode, hrest⟩ := h
    cases rest with
    | nil => exact ⟨_, hnode, rfl, hcell, q', Function.update_self _ _ _, rfl⟩
    | cons cell' rest =>
      obtain ⟨hfirst, hnodup⟩ := List.nodup_cons.mp hnodup
      obtain ⟨node, hlast, hset⟩ := ih hrest (by simp) hnodup
      have hother : cell.1 ≠ lastAddr cell.1 (cell' :: rest) := by
        intro heq
        exact hfirst (heq ▸ lastAddr_mem (by simp) cell.1)
      exact ⟨node, hlast, rfl, hcell, next, (Function.update_of_ne hother _ _).trans hnode, hset⟩

end SystemsProjects.Base.DoublyLinked
