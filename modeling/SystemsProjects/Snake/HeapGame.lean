/-
SystemsProjects.Snake.HeapGame — the game as it runs on the heap: update,
place_food and teardown (src/game.c) and initialize_game (src/game_setup.c)
over the nodes of the linked list and the `size_t`s that are allocated for
the positions.

The snake is a list of pointers here; a position lives in a block of its
own, allocated before its node and freed after it. `Represents` says that
the nodes and blocks that are live are those of the snake and no others.
`update_refines` is one step: the heap does what the game does on the list
of positions, and faults where that faults. From it come the runs
(`heap_game_refines`), and that nothing is leaked or freed twice up to the
end of the program (`teardown_frees`).
-/
import SystemsProjects.Snake.InitializeGame
import SystemsProjects.Snake.LinkedList

namespace SystemsProjects.Snake

open Setup SystemsProjects.Base SystemsProjects.Base.DoublyLinked
open LinkedList (llLength llGetFirst llGetLast llInsertFirst llRemoveFirst llRemoveLast IsList)

/-! ## The source -/

/-- What `update` reads and writes; `list` has `snake_pos` and its nodes,
`boxes` what is at the positions' addresses. -/
structure HeapGame where
  cells : Cells
  width : Nat
  height : Nat
  snakeDir : SnakeDirection
  list : LinkedList.State
  boxes : Nat → Option Nat
  gameOver : Bool
  score : Nat
  rand : Nat → Fin (2 ^ 31)
  drawn : Nat

inductive HeapFault where
  | game (e : Fault)
  | list (e : LinkedList.Fault)
  | badPointer
  /-- `abort()`. -/
  | aborted
  deriving DecidableEq, Repr

def inGame {α : Type} : Except Fault α → Except HeapFault α
  | .error e => .error (.game e)
  | .ok a => .ok a

def inList {α : Type} : Except LinkedList.Fault α → Except HeapFault α
  | .error e => .error (.list e)
  | .ok a => .ok a

/-- A fault of initialize_game: of the decoder, or of the rest. -/
inductive HeapInitFault where
  | setup (e : Setup.Fault)
  | heap (e : HeapFault)
  deriving DecidableEq, Repr

def inSetup {α : Type} : Except Setup.Fault α → Except HeapInitFault α
  | .error e => .error (.setup e)
  | .ok a => .ok a

def inHeap {α : Type} : Except HeapFault α → Except HeapInitFault α
  | .error e => .error (.heap e)
  | .ok a => .ok a

namespace HeapGame

def withBoard (h : HeapGame) (b : Board) : HeapGame :=
  { h with cells := b.cells, width := b.width, height := b.height }

/-- The game with the snake at `positions`. -/
def view (h : HeapGame) (positions : List Nat) : Game :=
  ⟨h.cells, h.width, h.height, h.snakeDir, positions, h.gameOver, h.score, h.rand, h.drawn⟩

/-- `*(size_t *) p`. -/
def loadBox (h : HeapGame) (p : Nat) : Except HeapFault Nat :=
  if p = 0 then .error (.game .nullDeref)
  else
    match h.boxes p with
    | some v => .ok v
    | none => .error .badPointer

/-- `*p = v`, for a `p` that `malloc` has returned. -/
def storeBox (h : HeapGame) (p v : Nat) : HeapGame :=
  { h with boxes := Function.update h.boxes p (some v) }

/-- `free(p)` for a position. -/
def freeBox (h : HeapGame) (p : Nat) : Except HeapFault HeapGame :=
  if p = 0 then .ok h
  else
    match h.boxes p with
    | some _ => .ok { h with boxes := Function.update h.boxes p none }
    | none => .error .badPointer

/-- place_food, which is not given the snake. -/
def placeFood (h : HeapGame) : Except HeapFault HeapGame := do
  let g ← inGame (Snake.placeFood (h.view []))
  return { h with cells := g.cells, drawn := g.drawn }

def removeTail (fuel : Nat) (h : HeapGame) : Except HeapFault HeapGame := do
  let (list, last_cell) ← inList (llRemoveLast fuel h.list)
  let h := { h with list := list }
  let first_cell ← inList (llGetFirst h.list)
  let first ← h.loadBox first_cell
  let last ← h.loadBox last_cell
  if first ≠ last then
    let c ← inGame (readCell h.cells last)
    freeBox { h with cells := h.cells.set last (c &&& ~~~FLAG_SNAKE) } last_cell
  else h.freeBox last_cell

/-- The part of `update` behind the check for walls and the snake; `node`
is what `malloc` returns in `ll_insert_first`. -/
def advance (fuel : Nat) (growing : Int) (new_cell_p node : Nat) (h : HeapGame) :
    Except HeapFault HeapGame := do
  let list ← inList (llInsertFirst new_cell_p node h.list)
  let h := { h with list := list }
  let new_cell ← h.loadBox new_cell_p
  let c ← inGame (readCell h.cells new_cell)
  let c := c ||| FLAG_SNAKE
  let h := { h with cells := h.cells.set new_cell c }
  if c &&& FLAG_FOOD ≠ 0 then
    let h := { h with score := h.score + 1, cells := h.cells.set new_cell (c &&& ~~~FLAG_FOOD) }
    let h ← h.placeFood
    if growing = 0 then h.removeTail fuel else return h
  else h.removeTail fuel

/-- Whether the next square ends the game; `*tail` is read on a snake cell
only. -/
def blocked (h : HeapGame) (c : Cell) (tail new_cell : Nat) : Except HeapFault Bool :=
  if c &&& FLAG_WALL ≠ 0 then .ok true
  else if c &&& FLAG_SNAKE ≠ 0 then do
    let tail ← h.loadBox tail
    return decide (tail ≠ new_cell)
  else .ok false

/-- The part of `update` behind the choice of the next square. -/
def move (fuel : Nat) (growing : Int) (new_cell_p node : Nat) (h : HeapGame) :
    Except HeapFault HeapGame := do
  let tail ← inList (llGetLast fuel h.list)
  let new_cell ← h.loadBox new_cell_p
  let c ← inGame (readCell h.cells new_cell)
  if ← h.blocked c tail new_cell then
    let h ← h.freeBox new_cell_p
    return { h with gameOver := true }
  else h.advance fuel growing new_cell_p node

/-- `new_cell_p` and `node` are what `malloc` returns. -/
def update (fuel : Nat) (growing : Int) (input : InputKey) (new_cell_p node : Nat)
    (h : HeapGame) : Except HeapFault HeapGame := do
  let snake_len ← inList (llLength fuel h.list)
  let h := { h with snakeDir := turn h.snakeDir snake_len input }
  let head ← inList (llGetFirst h.list)
  let head_val ← h.loadBox head
  if new_cell_p = 0 then .error .aborted
  else
    let h := h.storeBox new_cell_p (nextCell h.width h.snakeDir head_val)
    h.move fuel growing new_cell_p node

/-- What initialize_game does on the decoded board. -/
def populate (start : Nat) (h : HeapGame) : Except HeapFault HeapGame := do
  let i ← inGame (snakeLoop h.cells 42 0 (sizeT (h.width * h.height)))
  (h.storeBox start i).placeFood

/-- initialize_game; `start` and `node` are what `malloc` returns. -/
def initializeGame (block : Option (Nat → Cell)) (start node : Nat) (h : HeapGame)
    (boardRep : Option (List Char)) : Except HeapInitFault (InitStatus × HeapGame) := do
  let h := { h with snakeDir := .right, list := ⟨h.list.heap, 0⟩ }
  if start = 0 then .error (.heap .badPointer)
  else
    let h := h.storeBox start 42
    let list ← inHeap (inList (llInsertFirst start node h.list))
    let h := { h with list := list }
    match boardRep with
    | none =>
      let (status, b) := initializeDefaultBoard
      let h ← inHeap (h.withBoard b).placeFood
      return (status, h)
    | some boardRep =>
      let (status, b) ← inSetup (decompressBoardStr block ⟨h.cells, h.width, h.height⟩ boardRep)
      let h ← inHeap ((h.withBoard b).populate start)
      return (status, h)

/-- The loop of `teardown`. -/
def teardownLoop : Nat → HeapGame → Except HeapFault HeapGame
  | 0, _ => .error (.list .outOfFuel)
  | fuel + 1, h =>
    if h.list.head = 0 then .ok h
    else do
      let (list, data) ← inList (llRemoveFirst h.list)
      let h ← freeBox { h with list := list } data
      teardownLoop fuel h

/-- `teardown`; a cell that is read behind `free(cells)` is out of
bounds. -/
def teardown (fuel : Nat) (h : HeapGame) : Except HeapFault HeapGame :=
  teardownLoop fuel { h with cells := [] }

end HeapGame

/-! ## What the list operations allocate and free -/

section

variable {heap heap' : Heap LinkedList.Data} {list list' : LinkedList.State}
  {nodes : List (Nat × LinkedList.Data)} {a b d p v fuel : Nat}

/-- Writing to a node allocates and frees nothing. -/
theorem write_live {node node' : Node LinkedList.Data} (h : LinkedList.load heap p = .ok node) :
    Function.update heap p (some node') b = none ↔ heap b = none := by
  by_cases hb : b = p
  · subst hb
    unfold LinkedList.load at h
    split at h
    · rename_i hnode
      simp [hnode]
    · cases h
  · rw [Function.update_of_ne hb]

theorem setNext_live (h : LinkedList.setNext heap p v = .ok heap') :
    heap' b = none ↔ heap b = none := by
  obtain ⟨node, hload, heq⟩ := bind_eq_ok h
  cases heq
  exact write_live hload

theorem setPrev_live (h : LinkedList.setPrev heap p v = .ok heap') :
    heap' b = none ↔ heap b = none := by
  obtain ⟨node, hload, heq⟩ := bind_eq_ok h
  cases heq
  exact write_live hload

theorem setPrevIf_live (h : LinkedList.setPrevIf heap p v = .ok heap') :
    heap' b = none ↔ heap b = none := by
  unfold LinkedList.setPrevIf at h
  split at h
  · exact setPrev_live h
  · cases h
    exact Iff.rfl

/-- What is live behind a `free` was live, and is another node. -/
theorem free_live (h : LinkedList.free heap p = .ok heap') (hb : heap' b ≠ none) :
    heap b ≠ none ∧ b ≠ p := by
  obtain ⟨node, -, heq⟩ := bind_eq_ok h
  cases heq
  have hne : b ≠ p := by
    rintro rfl
    exact hb (Function.update_self _ _ _)
  rw [Function.update_of_ne hne] at hb
  exact ⟨hb, hne⟩

theorem llRemoveFirst_live (h : IsList list ((a, d) :: nodes))
    (hr : llRemoveFirst list = .ok (list', d)) (hb : list'.heap b ≠ none) :
    list.heap b ≠ none ∧ b ≠ a := by
  obtain ⟨hhead, ha, -⟩ := h.linked
  rw [llRemoveFirst, if_neg (hhead ▸ ha)] at hr
  obtain ⟨node, -, hr⟩ := bind_eq_ok hr
  obtain ⟨heap₁, hset, hr⟩ := bind_eq_ok hr
  obtain ⟨node₁, -, hr⟩ := bind_eq_ok hr
  obtain ⟨heap₂, hfree, hr⟩ := bind_eq_ok hr
  cases hr
  obtain ⟨hlive, hne⟩ := free_live hfree hb
  exact ⟨fun hn => hlive ((setPrevIf_live hset).mpr hn), hhead ▸ hne⟩

theorem llRemoveLast_live (h : IsList list (nodes ++ [(a, d)])) (hfuel : nodes.length < fuel)
    (hr : llRemoveLast fuel list = .ok (list', d)) (hb : list'.heap b ≠ none) :
    list.heap b ≠ none ∧ b ≠ a := by
  have hhead : list.head ≠ 0 := h.linked.ne_zero (by simp)
  have hlast := LinkedList.lastNode_eq h.linked (by simp) (show (nodes ++ [(a, d)]).length ≤ fuel by
    rw [List.length_append, List.length_singleton]
    exact hfuel)
  rw [lastAddr_concat] at hlast
  rw [llRemoveLast, if_neg hhead] at hr
  obtain ⟨node, hload, hr⟩ := bind_eq_ok hr
  split at hr
  · rename_i hnext
    -- a single node: it is the last one
    have hsingle : list.head = a := by
      obtain ⟨fuel, rfl⟩ : ∃ f, fuel = f + 1 := ⟨fuel - 1, by omega⟩
      rw [LinkedList.lastNode, hload, ok_bind, if_neg (not_not_intro hnext)] at hlast
      exact Except.ok.inj hlast
    obtain ⟨heap₁, hfree, hr⟩ := bind_eq_ok hr
    cases hr
    exact hsingle ▸ free_live hfree hb
  · rw [hlast, ok_bind] at hr
    obtain ⟨node₁, -, hr⟩ := bind_eq_ok hr
    obtain ⟨heap₁, hset, hr⟩ := bind_eq_ok hr
    obtain ⟨node₂, -, hr⟩ := bind_eq_ok hr
    obtain ⟨heap₂, hfree, hr⟩ := bind_eq_ok hr
    cases hr
    obtain ⟨hlive, hne⟩ := free_live hfree hb
    exact ⟨fun hn => hlive ((setNext_live hset).mpr hn), hne⟩

end

/-! ## What the heap holds -/

/-- One cell of the snake: the address of its node, that of its position,
and the position. -/
structure Piece where
  node : Nat
  box : Nat
  position : Nat

/-- The snake's list and blocks, and nothing else that is live. -/
structure Holds (list : LinkedList.State) (boxes : Nat → Option Nat) (pieces : List Piece) :
    Prop where
  linked : IsList list (pieces.map fun s => (s.node, s.box))
  live : ∀ a, list.heap a ≠ none → ∃ s ∈ pieces, s.node = a
  boxes : ∀ p v, boxes p = some v ↔ ∃ s ∈ pieces, s.box = p ∧ s.position = v
  distinct : (pieces.map Piece.box).Nodup
  nonnull : ∀ s ∈ pieces, s.box ≠ 0

/-- The heap game carries the game on the list of its positions. -/
def Represents (h : HeapGame) (g : Game) : Prop :=
  ∃ pieces, pieces ≠ [] ∧ Holds h.list h.boxes pieces ∧ g = h.view (pieces.map Piece.position)

section

variable {list list' : LinkedList.State} {boxes : Nat → Option Nat} {pieces : List Piece}
  {s : Piece} {h h₀ : HeapGame} {fuel : Nat}

namespace Holds

theorem load (hh : Holds list boxes pieces) (hs : s ∈ pieces) : boxes s.box = some s.position :=
  (hh.boxes _ _).mpr ⟨s, hs, rfl, rfl⟩

/-- A block that is not allocated is none of the snake's. -/
theorem ne_box (hh : Holds list boxes pieces) {p : Nat} (hp : boxes p = none) (hs : s ∈ pieces) :
    s.box ≠ p := by
  rintro rfl
  rw [hh.load hs] at hp
  cases hp

theorem first (hh : Holds list boxes (s :: pieces)) : llGetFirst list = .ok s.box :=
  (hh.linked.answers (Nat.lt_succ_self _)).first

theorem last (hh : Holds list boxes (pieces ++ [s])) (hfuel : (pieces ++ [s]).length < fuel) :
    llGetLast fuel list = .ok s.box := by
  rw [(hh.linked.answers (by rwa [List.length_map])).last]
  simp

theorem length (hh : Holds list boxes pieces) (hfuel : pieces.length < fuel)
    (hmax : pieces.length ≤ LinkedList.INT_MAX) : llLength fuel list = .ok pieces.length := by
  rw [LinkedList.llLength_eq hh.linked (by rwa [List.length_map]), List.length_map, if_pos hmax]

/-- A block and a node are allocated, and the node put in front. -/
theorem insert (hh : Holds list boxes pieces) {cell node v : Nat} (hcell : cell ≠ 0)
    (hbox : boxes cell = none) (hnode : node ≠ 0) (hfree : list.heap node = none) :
    ∃ list', llInsertFirst cell node list = .ok list' ∧
      Holds list' (Function.update boxes cell (some v)) (⟨node, cell, v⟩ :: pieces) := by
  obtain ⟨list', hinsert, hlist, hframe⟩ :=
    LinkedList.llInsertFirst_spec cell hh.linked hnode hfree
  have hne : ∀ s ∈ pieces, s.box ≠ cell := fun s hs => hh.ne_box hbox hs
  refine ⟨list', hinsert, hlist, fun a ha => ?_, fun p w => ?_, ?_, ?_⟩
  · by_cases hnew : a = node
    · exact ⟨_, List.mem_cons_self, hnew.symm⟩
    · have hold : ∃ s ∈ pieces, s.node = a := by
        by_cases hmem : a ∈ addrs (pieces.map fun s => (s.node, s.box))
        · simpa [addrs] using hmem
        · rw [hframe a hnew hmem] at ha
          exact hh.live a ha
      obtain ⟨s, hs, he⟩ := hold
      exact ⟨s, List.mem_cons_of_mem _ hs, he⟩
  · by_cases hp : p = cell
    · subst hp
      rw [Function.update_self, Option.some.injEq]
      constructor
      · rintro rfl
        exact ⟨_, List.mem_cons_self, rfl, rfl⟩
      · rintro ⟨s, hs, hsp, hsw⟩
        rcases List.mem_cons.mp hs with rfl | hs
        · exact hsw
        · exact absurd hsp (hne s hs)
    · rw [Function.update_of_ne hp, hh.boxes]
      constructor
      · rintro ⟨s, hs, he⟩
        exact ⟨s, List.mem_cons_of_mem _ hs, he⟩
      · rintro ⟨s, hs, hsp, hsw⟩
        rcases List.mem_cons.mp hs with rfl | hs
        · exact absurd hsp.symm hp
        · exact ⟨s, hs, hsp, hsw⟩
  · rw [List.map_cons, List.nodup_cons]
    refine ⟨fun hmem => ?_, hh.distinct⟩
    obtain ⟨s, hs, he⟩ := List.mem_map.mp hmem
    exact hne s hs he
  · exact List.forall_mem_cons.mpr ⟨hcell, hh.nonnull⟩

/-- The node and the block of one piece are freed. -/
theorem remove {rest : List Piece} (hh : Holds list boxes pieces) (hperm : pieces.Perm (s :: rest))
    (hlinked : IsList list' (rest.map fun s => (s.node, s.box)))
    (hlive : ∀ a, list'.heap a ≠ none → list.heap a ≠ none ∧ a ≠ s.node) :
    Holds list' (Function.update boxes s.box none) rest := by
  have hdistinct : s.box ∉ rest.map Piece.box ∧ (rest.map Piece.box).Nodup :=
    List.nodup_cons.mp ((hperm.map Piece.box).nodup_iff.mp hh.distinct)
  have hmem : ∀ t, t ∈ pieces ↔ t = s ∨ t ∈ rest := fun t => by
    rw [hperm.mem_iff, List.mem_cons]
  refine ⟨hlinked, fun a ha => ?_, fun p v => ?_, hdistinct.2, fun t ht => ?_⟩
  · obtain ⟨hold, hne⟩ := hlive a ha
    obtain ⟨t, ht, rfl⟩ := hh.live a hold
    rcases (hmem t).mp ht with rfl | ht
    · exact absurd rfl hne
    · exact ⟨t, ht, rfl⟩
  · have hrest : ∀ t ∈ rest, t.box ≠ s.box := fun t ht he =>
      hdistinct.1 (List.mem_map.mpr ⟨t, ht, he⟩)
    by_cases hp : p = s.box
    · subst hp
      rw [Function.update_self]
      refine iff_of_false (fun he => nomatch he) ?_
      rintro ⟨t, ht, he, -⟩
      exact hrest t ht he
    · rw [Function.update_of_ne hp, hh.boxes]
      constructor
      · rintro ⟨t, ht, he⟩
        rcases (hmem t).mp ht with rfl | ht
        · exact absurd he.1.symm hp
        · exact ⟨t, ht, he⟩
      · rintro ⟨t, ht, he⟩
        exact ⟨t, (hmem t).mpr (.inr ht), he⟩
  · exact hh.nonnull t ((hmem t).mpr (.inr ht))

theorem removeFirst (hh : Holds list boxes (s :: pieces)) :
    ∃ list', llRemoveFirst list = .ok (list', s.box) ∧
      Holds list' (Function.update boxes s.box none) pieces := by
  obtain ⟨list', hremove, hlist⟩ := LinkedList.llRemoveFirst_spec hh.linked
  exact ⟨list', hremove, hh.remove (.refl _) hlist fun _ => llRemoveFirst_live hh.linked hremove⟩

theorem removeLast (hh : Holds list boxes (pieces ++ [s])) (hfuel : pieces.length < fuel) :
    ∃ list', llRemoveLast fuel list = .ok (list', s.box) ∧
      Holds list' (Function.update boxes s.box none) pieces := by
  have hlinked : IsList list (pieces.map (fun s => (s.node, s.box)) ++ [(s.node, s.box)]) := by
    have h := hh.linked
    rwa [List.map_append] at h
  have hlen : (pieces.map fun s => (s.node, s.box)).length < fuel := by rwa [List.length_map]
  obtain ⟨list', hremove, hlist⟩ := LinkedList.llRemoveLast_spec hlinked hlen
  exact ⟨list', hremove, hh.remove List.perm_append_comm hlist fun _ =>
    llRemoveLast_live hlinked hlen hremove⟩

end Holds

/-! ## Steps -/

/-- The same result, or the same fault. -/
def Agrees : Except HeapFault HeapGame → Except Fault Game → Prop
  | .ok h, .ok g => Represents h g
  | .error e, .error e' => e = .game e'
  | _, _ => False

theorem loadBox_eq (hh : Holds list h.boxes pieces) (hs : s ∈ pieces) :
    h.loadBox s.box = .ok s.position := by
  rw [HeapGame.loadBox, if_neg (hh.nonnull s hs), hh.load hs]

theorem freeBox_eq {p v : Nat} (hp : p ≠ 0) (hv : h.boxes p = some v) :
    h.freeBox p = .ok { h with boxes := Function.update h.boxes p none } := by
  rw [HeapGame.freeBox, if_neg hp, hv]

theorem placeFoodLoop_snakePos (attempts : Nat) (g : Game) (ps : List Nat) :
    placeFoodLoop attempts { g with snakePos := ps } =
      match placeFoodLoop attempts g with
      | .error e => .error e
      | .ok g => .ok { g with snakePos := ps } := by
  induction attempts generalizing g with
  | zero => rfl
  | succ attempts ih =>
    by_cases hsize : sizeT (g.width * g.height) % 2 ^ 32 = 0
    · simp only [placeFoodLoop, generateIndex, if_pos hsize]
    · simp only [placeFoodLoop, generateIndex, if_neg hsize]
      cases readCell g.cells ((g.rand g.drawn).val % (sizeT (g.width * g.height) % 2 ^ 32)) with
      | error e => rfl
      | ok c =>
        by_cases hc : c = PLAIN_CELL ∨ c = FLAG_GRASS
        · simp only [if_pos hc]
        · simp only [if_neg hc]
          exact ih { g with drawn := g.drawn + 1 }

/-- Food is placed the same wherever the snake is. -/
theorem placeFood_view (h : HeapGame) (ps : List Nat) :
    match Snake.placeFood (h.view ps) with
    | .error e => h.placeFood = .error (.game e)
    | .ok g => ∃ cells drawn, h.placeFood = .ok { h with cells := cells, drawn := drawn } ∧
        g = HeapGame.view { h with cells := cells, drawn := drawn } ps := by
  have hsame : Snake.placeFood (h.view ps) = match Snake.placeFood (h.view []) with
      | .error e => .error e
      | .ok g => .ok { g with snakePos := ps } :=
    placeFoodLoop_snakePos _ (h.view []) ps
  rw [hsame, HeapGame.placeFood]
  cases hplace : Snake.placeFood (h.view []) with
  | error e => rfl
  | ok g =>
    obtain ⟨j, n, -, rfl⟩ := placeFood_ok hplace
    exact ⟨_, _, rfl, rfl⟩

theorem removeTail_agrees {mid : List Piece} {first last : Piece}
    (hh : Holds h.list h.boxes (first :: mid ++ [last])) (hfuel : mid.length + 1 < fuel) :
    Agrees (h.removeTail fuel)
      (Snake.removeTail (h.view ((first :: mid ++ [last]).map Piece.position))) := by
  obtain ⟨list', hremove, hh'⟩ := hh.removeLast hfuel
  have hfirst : HeapGame.loadBox { h with list := list' } first.box = .ok first.position :=
    loadBox_eq hh (by simp)
  have hlast : HeapGame.loadBox { h with list := list' } last.box = .ok last.position :=
    loadBox_eq hh (by simp)
  have hfree : ∀ cells, HeapGame.freeBox { h with list := list', cells := cells } last.box =
      .ok { h with list := list', boxes := Function.update h.boxes last.box none
                   cells := cells } := fun cells =>
    freeBox_eq (hh.nonnull last (by simp)) (hh.load (by simp))
  have hpositions : (first :: mid ++ [last]).map Piece.position =
      (first :: mid).map Piece.position ++ [last.position] := List.map_append
  have hhead : ((first :: mid).map Piece.position).head? = some first.position := rfl
  have hrep : ∀ cells, Represents { h with list := list'
                                           boxes := Function.update h.boxes last.box none
                                           cells := cells }
      (HeapGame.view { h with cells := cells } ((first :: mid).map Piece.position)) :=
    fun cells => ⟨first :: mid, List.cons_ne_nil _ _, hh', rfl⟩
  simp only [HeapGame.removeTail, hremove, inList, ok_bind, hh'.first, hfirst, hlast,
    Snake.removeTail, HeapGame.view, hpositions, List.getLast?_concat, List.dropLast_concat, hhead,
    deref]
  by_cases heq : first.position ≠ last.position
  · rw [if_pos heq, if_pos heq]
    cases readCell h.cells last.position with
    | error e => rfl
    | ok c =>
      simp only [inGame, ok_bind, hfree]
      exact hrep _
  · rw [if_neg heq, if_neg heq]
    exact hfree h.cells ▸ hrep h.cells

/-- The tail goes as long as the snake keeps a cell. -/
theorem removeTail_agrees_of_ne (hh : Holds h.list h.boxes (s :: pieces)) (hne : pieces ≠ [])
    (hfuel : pieces.length < fuel) :
    Agrees (h.removeTail fuel)
      (Snake.removeTail (h.view ((s :: pieces).map Piece.position))) := by
  obtain ⟨mid, last, rfl⟩ := (List.eq_nil_or_concat pieces).resolve_left hne
  rw [List.concat_eq_append] at *
  rw [List.length_append, List.length_singleton] at hfuel
  exact removeTail_agrees hh hfuel

theorem replaceFood_agrees {growing : Int} (hh : Holds h.list h.boxes (s :: pieces))
    (hne : pieces ≠ []) (hfuel : pieces.length < fuel) :
    Agrees (do
        let h ← h.placeFood
        if growing = 0 then h.removeTail fuel else return h)
      (replaceFood growing (h.view ((s :: pieces).map Piece.position))) := by
  have hplace := placeFood_view h ((s :: pieces).map Piece.position)
  rw [replaceFood]
  cases hfood : Snake.placeFood (h.view ((s :: pieces).map Piece.position)) with
  | error e =>
    rw [hfood] at hplace
    rw [hplace]
    rfl
  | ok g =>
    rw [hfood] at hplace
    obtain ⟨cells, drawn, hplace, rfl⟩ := hplace
    rw [hplace, ok_bind]
    by_cases hgrow : growing = 0
    · rw [if_pos hgrow]
      simp only [if_pos hgrow]
      exact removeTail_agrees_of_ne (h := { h with cells := cells, drawn := drawn }) hh hne hfuel
    · rw [if_neg hgrow]
      simp only [if_neg hgrow]
      exact ⟨s :: pieces, List.cons_ne_nil _ _, hh, rfl⟩

theorem advance_agrees {growing : Int} {cell node v : Nat} {c : Cell}
    (hh : Holds h.list boxes pieces) (hboxes : h.boxes = Function.update boxes cell (some v))
    (hcell : cell ≠ 0) (hbox : boxes cell = none) (hnode : node ≠ 0)
    (hfree : h.list.heap node = none) (hne : pieces ≠ []) (hfuel : pieces.length < fuel)
    (hc : readCell h.cells v = .ok c) :
    Agrees (h.advance fuel growing cell node)
      (Snake.advance growing v c (h.view (pieces.map Piece.position))) := by
  obtain ⟨list', hinsert, hh'⟩ := hh.insert (v := v) hcell hbox hnode hfree
  rw [← hboxes] at hh'
  have hnew : HeapGame.loadBox { h with list := list' } cell = .ok v :=
    loadBox_eq (s := ⟨node, cell, v⟩) hh' List.mem_cons_self
  simp only [HeapGame.advance, hinsert, inList, ok_bind, hnew, hc, inGame, Snake.advance]
  by_cases hfood : (c ||| FLAG_SNAKE) &&& FLAG_FOOD ≠ 0
  · rw [if_pos hfood, if_pos hfood]
    exact replaceFood_agrees (h := { h with
      list := list'
      score := h.score + 1
      cells := (h.cells.set v (c ||| FLAG_SNAKE)).set v ((c ||| FLAG_SNAKE) &&& ~~~FLAG_FOOD) })
      hh' hne hfuel
  · rw [if_neg hfood, if_neg hfood]
    exact removeTail_agrees_of_ne (h := { h with
      list := list'
      cells := h.cells.set v (c ||| FLAG_SNAKE) }) hh' hne hfuel

/-- What `malloc` returned for a position and for its node: blocks that
are not in use. -/
structure Fresh (h : HeapGame) (cell node : Nat) : Prop where
  cell_ne : cell ≠ 0
  node_ne : node ≠ 0
  apart : cell ≠ node
  cell_free : h.boxes cell = none ∧ h.list.heap cell = none
  node_free : h.boxes node = none ∧ h.list.heap node = none

theorem blocked_eq {c : Cell} {tail tailVal v : Nat} (htail : h.loadBox tail = .ok tailVal) :
    h.blocked c tail v =
      .ok (decide (c &&& FLAG_WALL ≠ 0 ∨ (c &&& FLAG_SNAKE ≠ 0 ∧ tailVal ≠ v))) := by
  unfold HeapGame.blocked
  split
  · rename_i hwall
    rw [decide_eq_true (.inl hwall)]
  · rename_i hwall
    split
    · rename_i hsnake
      rw [htail, ok_bind, pure_eq_ok]
      exact congrArg Except.ok (decide_eq_decide.mpr
        ⟨fun he => .inr ⟨hsnake, he⟩, fun he => (he.resolve_left hwall).2⟩)
    · rename_i hsnake
      rw [decide_eq_false (not_or.mpr ⟨hwall, fun he => hsnake he.1⟩)]

theorem move_agrees {growing : Int} {cell node v : Nat} (hh : Holds h.list boxes pieces)
    (hboxes : h.boxes = Function.update boxes cell (some v)) (hcell : cell ≠ 0)
    (hbox : boxes cell = none) (hnode : node ≠ 0) (hfree : h.list.heap node = none)
    (hs : s ∈ pieces) (htail : llGetLast fuel h.list = .ok s.box)
    (hfuel : pieces.length < fuel) :
    Agrees (h.move fuel growing cell node)
      (match readCell h.cells v with
      | .error e => .error e
      | .ok c =>
        if c &&& FLAG_WALL ≠ 0 ∨ (c &&& FLAG_SNAKE ≠ 0 ∧ s.position ≠ v) then
          .ok { h.view (pieces.map Piece.position) with gameOver := true }
        else Snake.advance growing v c (h.view (pieces.map Piece.position))) := by
  have hne : pieces ≠ [] := List.ne_nil_of_mem hs
  have hself : h.boxes cell = some v := by rw [hboxes, Function.update_self]
  have hnew : h.loadBox cell = .ok v := by
    rw [HeapGame.loadBox, if_neg hcell, hself]
  have htailVal : h.loadBox s.box = .ok s.position := by
    rw [HeapGame.loadBox, if_neg (hh.nonnull s hs), hboxes,
      Function.update_of_ne (hh.ne_box hbox hs), hh.load hs]
  rw [HeapGame.move, htail, inList, ok_bind, hnew, ok_bind]
  cases hc : readCell h.cells v with
  | error e => rfl
  | ok c =>
    simp only [inGame, ok_bind, blocked_eq htailVal, decide_eq_true_eq]
    split
    · rw [freeBox_eq hcell hself, ok_bind]
      refine ⟨pieces, hne, ?_, rfl⟩
      have hback : Function.update h.boxes cell none = boxes := by
        rw [hboxes, Function.update_idem, ← hbox, Function.update_eq_self]
      simp only [hback]
      exact hh
    · exact advance_agrees hh hboxes hcell hbox hnode hfree hne hfuel hc

/-- **One step**: the heap game and the game return the same, or fault the
same. -/
theorem update_agrees {g : Game} (growing : Int) (input : InputKey) {cell node : Nat}
    (hr : Represents h g) (hfresh : Fresh h cell node) (hfuel : g.snakePos.length < fuel)
    (hmax : g.snakePos.length ≤ LinkedList.INT_MAX) :
    Agrees (h.update fuel growing input cell node) (Snake.update growing input g) := by
  obtain ⟨pieces, hne, hh, rfl⟩ := hr
  have hlen : (h.view (pieces.map Piece.position)).snakePos.length = pieces.length :=
    List.length_map _
  rw [hlen] at hfuel hmax
  obtain ⟨first, rest, hcons⟩ := List.exists_cons_of_ne_nil hne
  obtain ⟨init, last, hconcat⟩ := (List.eq_nil_or_concat pieces).resolve_left hne
  rw [List.concat_eq_append] at hconcat
  have hfirst : llGetFirst h.list = .ok first.box := by
    rw [hcons] at hh
    exact hh.first
  have htail : llGetLast fuel h.list = .ok last.box := by
    rw [hconcat] at hh hfuel
    exact hh.last hfuel
  have hhead : (h.view (pieces.map Piece.position)).snakePos.head? = some first.position := by
    rw [hcons]
    rfl
  have hlast : (h.view (pieces.map Piece.position)).snakePos.getLast? = some last.position := by
    rw [hconcat, HeapGame.view, List.map_append]
    exact List.getLast?_concat
  have hload : ∀ dir, HeapGame.loadBox { h with snakeDir := dir } first.box = .ok first.position :=
    fun dir => loadBox_eq hh (by simp [hcons])
  simp only [HeapGame.update, hh.length hfuel hmax, hfirst, inList, ok_bind, hload,
    if_neg hfresh.cell_ne, Snake.update, hlen, hhead, deref, hlast, HeapGame.storeBox]
  exact move_agrees hh rfl hfresh.cell_ne hfresh.cell_free.1
    hfresh.node_ne hfresh.node_free.2 (by simp [hconcat]) htail hfuel

/-! ## Runs -/

theorem removeTail_length {g g' : Game} (h : Snake.removeTail g = .ok g') :
    g'.snakePos.length ≤ g.snakePos.length := by
  unfold Snake.removeTail at h
  split at h
  · cases h
  · dsimp only at h
    split at h
    · cases h
    · split at h
      · split at h <;> cases h
        exact (List.length_dropLast ..).trans_le (Nat.sub_le _ _)
      · cases h
        exact (List.length_dropLast ..).trans_le (Nat.sub_le _ _)

/-- A step makes the snake longer by one cell at most. -/
theorem update_length {growing : Int} {input : InputKey} {g g' : Game}
    (h : Snake.update growing input g = .ok g') :
    g'.snakePos.length ≤ g.snakePos.length + 1 := by
  unfold Snake.update at h
  dsimp only at h
  split at h
  · cases h
  · split at h
    · cases h
    · split at h
      · cases h
      · split at h
        · cases h
          exact Nat.le_succ _
        · unfold Snake.advance at h
          dsimp only at h
          split at h
          · unfold replaceFood at h
            split at h
            · cases h
            · rename_i hfood
              obtain ⟨j, n, -, rfl⟩ := placeFood_ok hfood
              split at h
              · exact removeTail_length h
              · cases h
                exact Nat.le_refl _
          · exact removeTail_length h

/-- The update calls of a run, each with what `malloc` returns then; up to
the end of the inputs or of the game, or a fault. -/
inductive HeapPlay (fuel : Nat) (growing : Int) :
    HeapGame → List InputKey → Except HeapFault HeapGame → Prop
  | nil (h : HeapGame) : HeapPlay fuel growing h [] (.ok h)
  | ended {h : HeapGame} {inputs : List InputKey} (hover : h.gameOver = true) :
    HeapPlay fuel growing h inputs (.ok h)
  | step {h h' : HeapGame} {input : InputKey} {inputs : List InputKey} {cell node : Nat}
    {r : Except HeapFault HeapGame} (hplaying : h.gameOver = false) (hfresh : Fresh h cell node)
    (hstep : h.update fuel growing input cell node = .ok h')
    (hrest : HeapPlay fuel growing h' inputs r) : HeapPlay fuel growing h (input :: inputs) r
  | fault {h : HeapGame} {input : InputKey} {inputs : List InputKey} {cell node : Nat}
    {e : HeapFault} (hplaying : h.gameOver = false) (hfresh : Fresh h cell node)
    (hstep : h.update fuel growing input cell node = .error e) :
    HeapPlay fuel growing h (input :: inputs) (.error e)

theorem Represents.gameOver {g : Game} (hr : Represents h g) : g.gameOver = h.gameOver := by
  obtain ⟨pieces, -, -, rfl⟩ := hr
  rfl

theorem HeapPlay.agrees {growing : Int} {inputs : List InputKey} {r : Except HeapFault HeapGame}
    {g : Game} (hp : HeapPlay fuel growing h inputs r) (hr : Represents h g)
    (hfuel : g.snakePos.length + inputs.length < fuel)
    (hmax : g.snakePos.length + inputs.length ≤ LinkedList.INT_MAX) :
    Agrees r (play growing inputs g) := by
  induction hp generalizing g with
  | nil => exact hr
  | @ended h inputs hover =>
    cases inputs with
    | nil => exact hr
    | cons input inputs =>
      rw [play, if_pos (hr.gameOver.trans hover)]
      exact hr
  | @step h h' input inputs cell node r hplaying hfresh hstep _ ih =>
    rw [List.length_cons] at hfuel hmax
    have hagree := update_agrees growing input hr hfresh
      (show g.snakePos.length < fuel by omega) (by omega)
    rw [hstep] at hagree
    rw [play, if_neg (by rw [hr.gameOver, hplaying]; decide)]
    cases hupdate : Snake.update growing input g with
    | error e =>
      rw [hupdate] at hagree
      exact hagree.elim
    | ok g' =>
      rw [hupdate] at hagree
      have hlen := update_length hupdate
      exact ih hagree (by omega) (by omega)
  | @fault h input inputs cell node e hplaying hfresh hstep =>
    rw [List.length_cons] at hfuel hmax
    have hagree := update_agrees growing input hr hfresh
      (show g.snakePos.length < fuel by omega) (by omega)
    rw [hstep] at hagree
    rw [play, if_neg (by rw [hr.gameOver, hplaying]; decide)]
    cases hupdate : Snake.update growing input g with
    | error e =>
      rw [hupdate] at hagree
      exact hagree
    | ok g' =>
      rw [hupdate] at hagree
      exact hagree.elim

/-! ## The whole program -/

/-- Nothing is allocated yet. -/
structure Unused (h : HeapGame) : Prop where
  nodes : ∀ a, h.list.heap a = none
  boxes : ∀ p, h.boxes p = none

/-- The fault of the heap game that stands for one of the game. -/
def InitFault.onHeap : InitFault → HeapInitFault
  | .setup e => .setup e
  | .game e => .heap (.game e)

theorem Unused.holds (h : Unused h₀) : Holds ⟨h₀.list.heap, 0⟩ h₀.boxes [] where
  linked := ⟨rfl, .nil⟩
  live := fun a ha => absurd (h.nodes a) ha
  boxes := by simp [h.boxes]
  distinct := List.nodup_nil
  nonnull := by simp

/-- A snake of one cell, whose position is set. -/
theorem Holds.set {v w : Nat} (hh : Holds list boxes [⟨s.node, s.box, v⟩]) :
    Holds list (Function.update boxes s.box (some w)) [⟨s.node, s.box, w⟩] where
  linked := hh.linked
  live := by simpa using hh.live
  boxes := by
    intro p x
    by_cases hp : p = s.box
    · subst hp
      simp [eq_comm]
    · have hold := hh.boxes p x
      rw [Function.update_of_ne hp, hold]
      simp [Ne.symm hp]
  distinct := by simp
  nonnull := by simpa using hh.nonnull

def InitAgrees :
    Except HeapInitFault (InitStatus × HeapGame) → Except InitFault (InitStatus × Game) → Prop
  | .ok (status, h), .ok (status', g) => status = status' ∧ Represents h g
  | .error e, .error e' => e = e'.onHeap
  | _, _ => False

theorem finish_agrees (status : InitStatus) {x : Except HeapFault HeapGame}
    {y : Except Fault Game} : Agrees x y →
    InitAgrees (do
        let h ← inHeap x
        return (status, h))
      (match y with
      | .error e => .error (.game e)
      | .ok g => .ok (status, g)) := by
  intro h
  cases x with
  | error e =>
    cases y with
    | error e' => exact congrArg HeapInitFault.heap h
    | ok g => exact h.elim
  | ok h₁ =>
    cases y with
    | error e' => exact h.elim
    | ok g => exact ⟨rfl, h⟩

/-- `place_food` at the end of initialize_game. -/
theorem placeFood_agrees (hh : Holds h.list h.boxes pieces) (hne : pieces ≠ []) :
    Agrees h.placeFood (Snake.placeFood (h.view (pieces.map Piece.position))) := by
  have hplace := placeFood_view h (pieces.map Piece.position)
  cases hfood : Snake.placeFood (h.view (pieces.map Piece.position)) with
  | error e =>
    rw [hfood] at hplace
    rw [hplace]
    rfl
  | ok g =>
    rw [hfood] at hplace
    obtain ⟨cells, drawn, hplace, rfl⟩ := hplace
    rw [hplace]
    exact ⟨pieces, hne, hh, rfl⟩

theorem populate_agrees {v : Nat} (hh : Holds h.list h.boxes [⟨s.node, s.box, v⟩])
    (hdir : h.snakeDir = .right) (ps : List Nat) :
    Agrees (h.populate s.box) (Snake.populate (h.view ps)) := by
  have hloop : snakeLoop (h.view ps).cells 42 0 (sizeT ((h.view ps).width * (h.view ps).height)) =
    snakeLoop h.cells 42 0 (sizeT (h.width * h.height)) := rfl
  rw [HeapGame.populate, Snake.populate, hloop]
  cases snakeLoop h.cells 42 0 (sizeT (h.width * h.height)) with
  | error e => rfl
  | ok start =>
    have hplace := placeFood_agrees (h := h.storeBox s.box start) (hh.set (w := start)) (by simp)
    simp only [HeapGame.view, HeapGame.storeBox, hdir] at hplace ⊢
    exact hplace

theorem initializeGame_agrees (block : Option (Nat → Cell)) {h₀ : HeapGame} (hunused : Unused h₀)
    {start node : Nat} (hfresh : Fresh h₀ start node) (boardRep : Option (List Char)) :
    InitAgrees (h₀.initializeGame block start node boardRep)
      (Snake.initializeGame block (h₀.view []) boardRep) := by
  obtain ⟨list, hinsert, hh⟩ := hunused.holds.insert (v := 42) hfresh.cell_ne hfresh.cell_free.1
    hfresh.node_ne hfresh.node_free.2
  let h₁ : HeapGame := { h₀ with snakeDir := .right
                                 list := list
                                 boxes := Function.update h₀.boxes start (some 42) }
  cases boardRep with
  | none =>
    unfold HeapGame.initializeGame Snake.initializeGame
    generalize initializeDefaultBoard = r
    obtain ⟨status, b⟩ := r
    simp only [if_neg hfresh.cell_ne, HeapGame.storeBox, hinsert, inList]
    exact finish_agrees status (placeFood_agrees (h := h₁.withBoard b) hh (by simp))
  | some boardRep =>
    unfold HeapGame.initializeGame Snake.initializeGame
    simp only [if_neg hfresh.cell_ne, HeapGame.storeBox, hinsert, inList]
    have hboard : (h₀.view []).board = ⟨h₀.cells, h₀.width, h₀.height⟩ := rfl
    rw [hboard]
    cases decompressBoardStr block ⟨h₀.cells, h₀.width, h₀.height⟩ boardRep with
    | error e => rfl
    | ok r =>
      obtain ⟨status, b⟩ := r
      exact finish_agrees status (populate_agrees (s := ⟨node, start, 42⟩) (h := h₁.withBoard b)
        hh rfl [])

/-! ### Teardown -/

theorem teardownLoop_frees (hh : Holds h.list h.boxes pieces) (hfuel : pieces.length < fuel) :
    ∃ h', h.teardownLoop fuel = .ok h' ∧ Unused h' ∧ h'.list.head = 0 := by
  induction pieces generalizing h fuel with
  | nil =>
    obtain ⟨fuel, rfl⟩ : ∃ f, fuel = f + 1 := ⟨fuel - 1, by omega⟩
    have hhead : h.list.head = 0 := hh.linked.linked
    refine ⟨h, if_pos hhead, ⟨fun a => ?_, fun p => ?_⟩, hhead⟩
    · refine Classical.not_not.mp fun ha => ?_
      obtain ⟨s, hs, -⟩ := hh.live a ha
      cases hs
    · refine Option.eq_none_iff_forall_ne_some.mpr fun v hv => ?_
      obtain ⟨s, hs, -⟩ := (hh.boxes p v).mp hv
      cases hs
  | cons s pieces ih =>
    rw [List.length_cons] at hfuel
    obtain ⟨fuel, rfl⟩ : ∃ f, fuel = f + 1 := ⟨fuel - 1, by omega⟩
    obtain ⟨list', hremove, hh'⟩ := hh.removeFirst
    have hhead : h.list.head ≠ 0 := hh.linked.linked.ne_zero (by simp)
    have hfree : HeapGame.freeBox { h with list := list' } s.box = .ok { h with
        list := list'
        boxes := Function.update h.boxes s.box none } :=
      freeBox_eq (hh.nonnull s List.mem_cons_self) (hh.load List.mem_cons_self)
    rw [HeapGame.teardownLoop, if_neg hhead, hremove, inList, ok_bind]
    simp only [hfree, ok_bind]
    exact ih hh' (by omega)

theorem Represents.teardown {g : Game} (hr : Represents h g) (hfuel : g.snakePos.length < fuel) :
    ∃ h', h.teardown fuel = .ok h' ∧ Unused h' ∧ h'.list.head = 0 := by
  obtain ⟨pieces, -, hh, rfl⟩ := hr
  have hlen : (h.view (pieces.map Piece.position)).snakePos.length = pieces.length :=
    List.length_map _
  exact teardownLoop_frees (h := { h with cells := [] }) hh (by rwa [hlen] at hfuel)

/-! ### Runs of the program -/

/-- `main`, up to the end of the inputs: the game is set up, then played. -/
inductive HeapRun (block : Option (Nat → Cell)) (growing : Int) (boardRep : Option (List Char))
    (fuel : Nat) (h₀ : HeapGame) (inputs : List InputKey) :
    Except HeapInitFault HeapGame → Prop
  | refused {start node : Nat} {e : HeapInitFault} (hfresh : Fresh h₀ start node)
    (hinit : h₀.initializeGame block start node boardRep = .error e) :
    HeapRun block growing boardRep fuel h₀ inputs (.error e)
  | played {start node : Nat} {status : InitStatus} {h : HeapGame}
    {r : Except HeapFault HeapGame} (hfresh : Fresh h₀ start node)
    (hinit : h₀.initializeGame block start node boardRep = .ok (status, h))
    (hplay : HeapPlay fuel growing h inputs r) :
    HeapRun block growing boardRep fuel h₀ inputs (inHeap r)

/-- The same on the list of positions. -/
def runGame (block : Option (Nat → Cell)) (growing : Int) (boardRep : Option (List Char)) (g : Game)
    (inputs : List InputKey) : Except InitFault Game :=
  match initializeGame block g boardRep with
  | .error e => .error e
  | .ok (_, g) =>
    match play growing inputs g with
    | .error e => .error (.game e)
    | .ok g => .ok g

def RunAgrees : Except HeapInitFault HeapGame → Except InitFault Game → Prop
  | .ok h, .ok g => Represents h g
  | .error e, .error e' => e = e'.onHeap
  | _, _ => False

theorem initializeGame_length {block : Option (Nat → Cell)} {g g' : Game}
    {boardRep : Option (List Char)} {status : InitStatus}
    (h : initializeGame block g boardRep = .ok (status, g')) :
    g'.snakePos.length = 1 := by
  cases boardRep with
  | none =>
    obtain ⟨j, n, -, rfl⟩ := placeFood_ok (initializeGame_none h).2
    rfl
  | some boardRep =>
    unfold Snake.initializeGame at h
    dsimp only at h
    split at h
    · cases h
    · split at h
      · cases h
      · rename_i hpopulate
        cases h
        unfold populate at hpopulate
        split at hpopulate
        · cases hpopulate
        · obtain ⟨j, n, -, rfl⟩ := placeFood_ok hpopulate
          rfl

theorem play_length {growing : Int} {inputs : List InputKey} {g g' : Game}
    (h : play growing inputs g = .ok g') :
    g'.snakePos.length ≤ g.snakePos.length + inputs.length := by
  induction inputs generalizing g with
  | nil =>
    cases h
    exact Nat.le_refl _
  | cons input inputs ih =>
    rw [play] at h
    split at h
    · cases h
      exact Nat.le_add_right _ _
    · split at h
      · cases h
      · rename_i hupdate
        have hlen := update_length hupdate
        have hrest := ih h
        rw [List.length_cons]
        omega

theorem HeapRun.agrees {block : Option (Nat → Cell)} {growing : Int} {boardRep : Option (List Char)}
    {inputs : List InputKey} {r : Except HeapInitFault HeapGame} (hunused : Unused h₀)
    (hrun : HeapRun block growing boardRep fuel h₀ inputs r) (hfuel : inputs.length + 1 < fuel)
    (hmax : inputs.length < LinkedList.INT_MAX) :
    RunAgrees r (runGame block growing boardRep (h₀.view []) inputs) := by
  cases hrun with
  | refused hfresh hinit =>
    have hagree := initializeGame_agrees block hunused hfresh boardRep
    rw [hinit] at hagree
    rw [runGame]
    cases hgame : Snake.initializeGame block (h₀.view []) boardRep with
    | error e =>
      rw [hgame] at hagree
      exact hagree
    | ok g =>
      rw [hgame] at hagree
      exact hagree.elim
  | @played _ _ status h r hfresh hinit hplay =>
    have hagree := initializeGame_agrees block hunused hfresh boardRep
    rw [hinit] at hagree
    rw [runGame]
    cases hgame : Snake.initializeGame block (h₀.view []) boardRep with
    | error e =>
      rw [hgame] at hagree
      exact hagree.elim
    | ok result =>
      obtain ⟨status', g⟩ := result
      rw [hgame] at hagree
      have hlen := initializeGame_length hgame
      have hplayed := hplay.agrees hagree.2 (by omega) (by omega)
      dsimp only
      cases r with
      | error e =>
        cases hplay' : play growing inputs g with
        | error e' =>
          rw [hplay'] at hplayed
          exact congrArg HeapInitFault.heap hplayed
        | ok g' =>
          rw [hplay'] at hplayed
          exact hplayed.elim
      | ok h' =>
        cases hplay' : play growing inputs g with
        | error e' =>
          rw [hplay'] at hplayed
          exact hplayed.elim
        | ok g' =>
          rw [hplay'] at hplayed
          exact hplayed

/-- The snake of a run is never longer than the fuel of its loops. -/
theorem runGame_length {block : Option (Nat → Cell)} {growing : Int} {boardRep : Option (List Char)}
    {inputs : List InputKey} {g g' : Game}
    (h : runGame block growing boardRep g inputs = .ok g') :
    g'.snakePos.length ≤ 1 + inputs.length := by
  unfold runGame at h
  split at h
  · cases h
  · rename_i hinit
    split at h
    · cases h
    · rename_i hplay
      cases h
      exact initializeGame_length hinit ▸ play_length hplay

/-- **The program on the heap is the game on the list of positions.** For
every board string and every run of less than 2^31 - 1 inputs, whatever
unused blocks `malloc` returns for the positions and whether or not it
returns one for the cells: the same game comes out, or the same fault
stops both, so that no pointer is used that should not be. Behind each
step the live blocks are those of the snake, and `teardown` frees every one
of them, none twice. -/
theorem heap_game_refines {block : Option (Nat → Cell)} {growing : Int}
    {boardRep : Option (List Char)} {inputs : List InputKey} {r : Except HeapInitFault HeapGame}
    (hunused : Unused h₀) (hrun : HeapRun block growing boardRep fuel h₀ inputs r)
    (hfuel : inputs.length + 1 < fuel) (hmax : inputs.length < LinkedList.INT_MAX) :
    RunAgrees r (runGame block growing boardRep (h₀.view []) inputs) ∧
    ∀ h, r = .ok h → ∃ h', h.teardown fuel = .ok h' ∧ Unused h' ∧ h'.list.head = 0 := by
  have hagree := hrun.agrees hunused hfuel hmax
  refine ⟨hagree, ?_⟩
  rintro h rfl
  cases hgame : runGame block growing boardRep (h₀.view []) inputs with
  | error e =>
    rw [hgame] at hagree
    exact hagree.elim
  | ok g =>
    rw [hgame] at hagree
    have hlen := runGame_length hgame
    exact Represents.teardown hagree (by omega)

/-- A row of four cells, the last one a wall. -/
def rowOfFour : HeapGame := ⟨[], 0, 0, .up, .empty, fun _ => none, false, 0,
  fun n => ⟨if n = 0 then 2 else 0, by split <;> decide⟩, 0⟩

/-- One meal, then the wall. -/
theorem heap_game_refines_row : ∃ h h', h.score = 1 ∧ h.gameOver = true ∧
    HeapRun (some fun _ => 0) 0 (some "B1x4|E1S1E1W1".toList) 4 rowOfFour [.right, .right] (.ok h) ∧
    h.teardown 4 = .ok h' ∧ Unused h' := by
  have hunused : Unused rowOfFour := ⟨fun _ => rfl, fun _ => rfl⟩
  have hruns : ∃ h, h.score = 1 ∧ h.gameOver = true ∧ HeapRun (some fun _ => 0) 0
      (some "B1x4|E1S1E1W1".toList) 4 rowOfFour [.right, .right] (inHeap (.ok h)) :=
    ⟨_, rfl, rfl, .played (show Fresh rowOfFour 8 16 from
        ⟨by decide, by decide, by decide, ⟨rfl, rfl⟩, ⟨rfl, rfl⟩⟩) rfl <|
      .step rfl (show Fresh _ 24 32 from
        ⟨by decide, by decide, by decide, ⟨rfl, rfl⟩, ⟨rfl, rfl⟩⟩) rfl <|
      .step rfl (show Fresh _ 40 48 from
        ⟨by decide, by decide, by decide, ⟨rfl, rfl⟩, ⟨rfl, rfl⟩⟩) rfl <| .nil _⟩
  obtain ⟨h, hscore, hover, hrun⟩ := hruns
  obtain ⟨-, hteardown⟩ := heap_game_refines hunused hrun (by decide) (by decide)
  obtain ⟨h', hfreed, hnone, -⟩ := hteardown h rfl
  exact ⟨h, h', hscore, hover, hrun, hfreed, hnone⟩

end

end SystemsProjects.Snake
