/-
SystemsProjects.Snake.Invariant — the game invariant over whole runs.

Each operation on the board is first described by what it does to flags:
entering a cell, clearing a tail, placing food. The invariant (`Inv`) says
that the cells flagged as snake are the positions of the snake, which
form a path of distinct inner positions, and that there is one food.
`inv_update` is the step, `inv_play` the run.
-/
import SystemsProjects.Snake.Game
import Mathlib.Data.List.Nodup
import Mathlib.Data.List.Chain

namespace SystemsProjects.Snake

/-! ## What the operations do to flags -/

/-- Flag `f` changes to `value`, every other flag stays. -/
structure FlagChange (cells cells' : Cells) (f : Flag) (value : Nat → Bool) : Prop where
  length : cells'.length = cells.length
  flag : ∀ i, hasFlag f cells' i = value i
  other : ∀ f', f' ≠ f → ∀ i, hasFlag f' cells' i = hasFlag f' cells i

/-- Setting a flag of one cell. -/
theorem flagChange_or {cells : Cells} {j : Nat} {c : Cell} (h : cells[j]? = some c) (f : Flag) :
    FlagChange cells (cells.set j (c ||| f.mask)) f
      fun i => hasFlag f cells i || decide (i = j) where
  length := List.length_set
  flag := by
    intro i
    rw [hasFlag_set (List.getElem?_eq_some_iff.mp h).1, Flag.isSet_or_mask]
    by_cases hi : i = j
    · subst hi; simp
    · simp [hi]
  other := by
    intro f' hf i
    rw [hasFlag_set (List.getElem?_eq_some_iff.mp h).1, Flag.isSet_or_mask]
    by_cases hi : i = j
    · subst hi; simp [hasFlag_eq h, hf]
    · simp [hi]

/-- Clearing a flag of one cell. -/
theorem flagChange_and_not {cells : Cells} {j : Nat} {c : Cell} (h : cells[j]? = some c)
    (f : Flag) :
    FlagChange cells (cells.set j (c &&& ~~~f.mask)) f
      fun i => hasFlag f cells i && decide (i ≠ j) where
  length := List.length_set
  flag := by
    intro i
    rw [hasFlag_set (List.getElem?_eq_some_iff.mp h).1, Flag.isSet_and_not_mask]
    by_cases hi : i = j
    · subst hi; simp
    · simp [hi]
  other := by
    intro f' hf i
    rw [hasFlag_set (List.getElem?_eq_some_iff.mp h).1, Flag.isSet_and_not_mask]
    by_cases hi : i = j
    · subst hi; simp [hasFlag_eq h, hf]
    · simp [hi]

theorem readCell_eq {cells : Cells} {i : Nat} {c : Cell} (h : cells[i]? = some c) :
    readCell cells i = .ok c := by
  rw [readCell, h]

/-! ### Food -/

/-- A cell food may be placed on. -/
def Free (cells : Cells) (j : Nat) : Prop :=
  ∃ c, cells[j]? = some c ∧ (c = PLAIN_CELL ∨ c = FLAG_GRASS)

theorem Free.hasFlag {cells : Cells} {j : Nat} (h : Free cells j) {f : Flag} (hf : f ≠ .grass) :
    hasFlag f cells j = false := by
  obtain ⟨c, hc, hfree⟩ := h
  rw [hasFlag_eq hc]
  rcases hfree with rfl | rfl
  · cases f <;> rfl
  · cases f
    case grass => exact absurd rfl hf
    all_goals rfl

/-- `place_food` either ends without placing food or flags one free cell. -/
theorem placeFoodLoop_cases (attempts : Nat) {g : Game}
    (hsize : sizeT (g.width * g.height) ≤ g.cells.length) :
    placeFoodLoop attempts g = .error .noCellForFood ∨
    placeFoodLoop attempts g = .error .divisionByZero ∨
    ∃ j cells' drawn', placeFoodLoop attempts g = .ok { g with cells := cells', drawn := drawn' } ∧
      Free g.cells j ∧
      FlagChange g.cells cells' .food fun i => hasFlag .food g.cells i || decide (i = j) := by
  induction attempts generalizing g with
  | zero => exact .inl rfl
  | succ attempts ih =>
    by_cases hzero : sizeT (g.width * g.height) % 2 ^ 32 = 0
    · exact .inr (.inl (by simp only [placeFoodLoop, generateIndex, if_pos hzero]))
    · have hindex : (g.rand g.drawn).val % (sizeT (g.width * g.height) % 2 ^ 32) <
          g.cells.length := by
        have h1 := Nat.mod_lt (g.rand g.drawn).val (Nat.pos_of_ne_zero hzero)
        have h2 := Nat.mod_le (sizeT (g.width * g.height)) (2 ^ 32)
        omega
      have hcell := List.getElem?_eq_getElem hindex
      simp only [placeFoodLoop, generateIndex, if_neg hzero, readCell_eq hcell]
      split
      · rename_i hfree
        exact .inr (.inr ⟨_, _, _, rfl, ⟨_, hcell, hfree⟩, flagChange_or hcell .food⟩)
      · exact ih hsize

/-! ### The tail -/

/-- Dropping the tail clears its flag, unless the head is on it. -/
theorem removeTail_spec {g : Game} {head tail : Nat} {body : List Nat}
    (hpos : g.snakePos = head :: (body ++ [tail])) (htail : tail < g.cells.length) :
    ∃ cells', removeTail g = .ok { g with snakePos := head :: body, cells := cells' } ∧
      FlagChange g.cells cells' .snake
        fun i => hasFlag .snake g.cells i && decide (i ≠ tail ∨ head = tail) := by
  have hlast : g.snakePos.getLast? = some tail := by
    rw [hpos, ← List.cons_append]
    exact List.getLast?_concat
  have hdrop : g.snakePos.dropLast = head :: body := by
    rw [hpos, ← List.cons_append]
    exact List.dropLast_concat
  have hcell := List.getElem?_eq_getElem htail
  simp only [removeTail, hlast, deref, hdrop, List.head?_cons, readCell_eq hcell]
  by_cases hne : head ≠ tail
  · rw [if_pos hne]
    refine ⟨_, rfl, ?_⟩
    simpa [hne, Flag.mask] using flagChange_and_not hcell .snake
  · rw [if_neg hne]
    refine ⟨g.cells, rfl, rfl, fun i => ?_, fun _ _ _ => rfl⟩
    simp [not_not.mp hne]

/-! ## The invariant -/

/-- A board to start on: walls all around, one snake cell, where the
snake is, and one food, on a cell with nothing else but perhaps grass. -/
structure Start (g : Game) : Prop where
  size : g.cells.length = g.width * g.height
  /-- The array exists. -/
  fits : g.width * g.height < 2 ^ 64
  walled : ∀ i < g.width * g.height, OnEdge g.width g.height i → hasFlag .wall g.cells i = true
  snake : ∃ s, g.snakePos = [s] ∧ (∀ i, hasFlag .snake g.cells i = true ↔ i = s) ∧
    hasFlag .wall g.cells s = false
  food : ∃ f, (g.cells[f]? = some FLAG_FOOD ∨ g.cells[f]? = some (FLAG_FOOD ||| FLAG_GRASS)) ∧
    ∀ i, hasFlag .food g.cells i = true ↔ i = f
  score : g.score = 0

/-- The game invariant, relative to the game `g₀` it started as. -/
structure Inv (growing : Int) (g₀ g : Game) : Prop where
  width : g.width = g₀.width
  height : g.height = g₀.height
  size : g.cells.length = g₀.width * g₀.height
  walls : ∀ i, hasFlag .wall g.cells i = hasFlag .wall g₀.cells i
  grass : ∀ i, hasFlag .grass g.cells i = hasFlag .grass g₀.cells i
  /-- The cells flagged as snake are the snake's positions. -/
  snake : ∀ i, hasFlag .snake g.cells i = true ↔ i ∈ g.snakePos
  nodup : g.snakePos.Nodup
  inRange : ∀ i ∈ g.snakePos, i < g₀.width * g₀.height
  noWall : ∀ i ∈ g.snakePos, hasFlag .wall g.cells i = false
  path : g.snakePos.IsChain (Adjacent g₀.width)
  length : g.snakePos.length = if growing = 0 then 1 else 1 + g.score
  food : ∃ f, (∀ i, hasFlag .food g.cells i = true ↔ i = f) ∧
    hasFlag .snake g.cells f = false ∧ hasFlag .wall g.cells f = false

theorem Start.inv {g : Game} (h : Start g) (growing : Int) : Inv growing g g := by
  obtain ⟨s, hpos, hsnake, hwall⟩ := h.snake
  obtain ⟨f, hcell, hfood⟩ := h.food
  have hs : s < g.cells.length := hasFlag_lt ((hsnake s).mpr rfl)
  refine ⟨rfl, rfl, h.size, fun _ => rfl, fun _ => rfl, ?_, ?_, ?_, ?_, ?_, ?_, f, hfood, ?_⟩
  · intro i
    rw [hsnake, hpos, List.mem_singleton]
  · rw [hpos]
    exact List.nodup_singleton s
  · intro i hi
    rw [hpos, List.mem_singleton] at hi
    rw [hi, ← h.size]
    exact hs
  · intro i hi
    rw [hpos, List.mem_singleton] at hi
    rw [hi, hwall]
  · rw [hpos]
    exact .singleton s
  · rw [hpos, h.score]
    split <;> rfl
  · rcases hcell with hc | hc
    · rw [hasFlag_eq hc, hasFlag_eq hc]
      decide
    · rw [hasFlag_eq hc, hasFlag_eq hc]
      decide

/-! ## One step -/

/-- From an inner position every direction leads to a neighbour on the
board. -/
theorem nextCell_spec {width height p : Nat} (hfits : width * height < 2 ^ 64)
    (hp : p < width * height) (hedge : ¬ OnEdge width height p) (dir : SnakeDirection) :
    nextCell width dir p < width * height ∧ Adjacent width (nextCell width dir p) p := by
  obtain ⟨⟨hup, haup⟩, ⟨hdown, hadown⟩, ⟨hright, haright⟩, hleft, haleft⟩ := neighbours hp hedge
  have hsub : ∀ k, k ≤ p → sizeT (p + (2 ^ 64 - k)) = p - k := by
    intro k hk
    unfold sizeT
    omega
  cases dir with
  | up =>
    have hw : sizeT width = width := Nat.mod_eq_of_lt (by omega)
    rw [nextCell, hw, hsub width hup]
    exact ⟨by omega, haup⟩
  | down =>
    rw [nextCell, sizeT, Nat.mod_eq_of_lt (by omega)]
    exact ⟨hdown, hadown⟩
  | right =>
    rw [nextCell, sizeT, Nat.mod_eq_of_lt (by omega)]
    exact ⟨hright, haright⟩
  | left =>
    rw [nextCell, hsub 1 hleft]
    exact ⟨by omega, haleft⟩

section

variable {growing : Int} {g₀ g : Game}

/-- A position of the snake is off the edge. -/
theorem Inv.not_onEdge (h : Inv growing g₀ g) (h₀ : Start g₀) {p : Nat} (hp : p ∈ g.snakePos) :
    ¬ OnEdge g₀.width g₀.height p := by
  intro hedge
  have hwall := h₀.walled p (h.inRange p hp) hedge
  rw [← h.walls, h.noWall p hp] at hwall
  cases hwall

/-- The faults of `place_food`. -/
def FoodFault (e : Fault) : Prop := e = .noCellForFood ∨ e = .divisionByZero

/-- The head enters a free cell, or the cell its tail is leaving: what the
cells and the positions are before food and tail are seen to. -/
structure Entered (g₀ g g₁ : Game) (new : Nat) : Prop where
  width : g₁.width = g₀.width
  height : g₁.height = g₀.height
  pos : g₁.snakePos = new :: g.snakePos
  size : g₁.cells.length = g.cells.length
  snake : ∀ i, hasFlag .snake g₁.cells i = (hasFlag .snake g.cells i || decide (i = new))
  wall : ∀ i, hasFlag .wall g₁.cells i = hasFlag .wall g.cells i
  grass : ∀ i, hasFlag .grass g₁.cells i = hasFlag .grass g.cells i

/-- Moving: the tail leaves, the length stays. -/
theorem inv_removeTail (h : Inv growing g₀ g) {g₁ : Game} {new head tail : Nat} {body : List Nat}
    (hen : Entered g₀ g g₁ new) (hhead : g.snakePos.head? = some head)
    (hpos : g.snakePos = body ++ [tail]) (hnew : new < g₀.width * g₀.height)
    (hadj : Adjacent g₀.width new head) (hwall : hasFlag .wall g.cells new = false)
    (hfree : hasFlag .snake g.cells new = true → tail = new)
    (hlength : g.snakePos.length = if growing = 0 then 1 else 1 + g₁.score)
    (hfood : ∃ f, (∀ i, hasFlag .food g₁.cells i = true ↔ i = f) ∧
      hasFlag .snake g₁.cells f = false ∧ hasFlag .wall g₁.cells f = false) :
    ∃ g', removeTail g₁ = .ok g' ∧ Inv growing g₀ g' ∧ g'.gameOver = g₁.gameOver := by
  have htail : tail ∈ g.snakePos := by rw [hpos]; simp
  have hbody : ∀ i ∈ body, i ∈ g.snakePos := fun i hi => by rw [hpos]; simp [hi]
  have hnodup := h.nodup
  rw [hpos, List.nodup_append] at hnodup
  -- the head's new cell is not among those the snake keeps
  have hfresh : new ∉ body := by
    intro hm
    have heq := hfree ((h.snake new).mpr (hbody new hm))
    exact hnodup.2.2 new hm tail (List.mem_singleton_self _) heq.symm
  have hpos₁ : g₁.snakePos = new :: (body ++ [tail]) := by rw [hen.pos, hpos]
  obtain ⟨cells', hrem, hflag⟩ :=
    removeTail_spec hpos₁ (by rw [hen.size, h.size]; exact h.inRange tail htail)
  obtain ⟨f, hfoodIff, hfoodSnake, hfoodWall⟩ := hfood
  have hsnake : ∀ i, hasFlag .snake cells' i = true ↔ i ∈ new :: body := by
    intro i
    rw [hflag.flag, hen.snake, Bool.and_eq_true, Bool.or_eq_true, h.snake, hpos]
    simp only [List.mem_append, List.mem_cons, List.not_mem_nil, or_false, decide_eq_true_eq]
    constructor
    · rintro ⟨(hb | rfl) | rfl, ht⟩
      · exact .inr hb
      · exact .inl (ht.resolve_left (not_not_intro rfl)).symm
      · exact .inl rfl
    · rintro (rfl | hb)
      · exact ⟨.inr rfl, or_iff_not_imp_left.mpr not_not.mp⟩
      · refine ⟨.inl (.inl hb), .inl fun he => ?_⟩
        exact hnodup.2.2 i hb tail (List.mem_singleton_self _) he
  have hmem : ∀ i ∈ new :: body, i = new ∨ i ∈ g.snakePos := fun i hi =>
    (List.mem_cons.mp hi).imp_right (hbody i)
  refine ⟨_, hrem, ⟨hen.width, hen.height, ?_, ?_, ?_, hsnake, ?_, ?_, ?_, ?_, ?_, f, ?_, ?_, ?_⟩,
    rfl⟩
  · exact hflag.length.trans (hen.size.trans h.size)
  · intro i
    rw [hflag.other .wall (by decide), hen.wall, h.walls]
  · intro i
    rw [hflag.other .grass (by decide), hen.grass, h.grass]
  · exact List.nodup_cons.mpr ⟨hfresh, hnodup.1⟩
  · intro i hi
    rcases hmem i hi with rfl | hi
    · exact hnew
    · exact h.inRange i hi
  · intro i hi
    rw [hflag.other .wall (by decide), hen.wall]
    rcases hmem i hi with rfl | hi
    · exact hwall
    · exact h.noWall i hi
  · have hpath := h.path
    cases body with
    | nil => exact .singleton new
    | cons first rest =>
      rw [hpos, List.cons_append] at hhead
      cases hhead
      rw [hpos] at hpath
      exact .cons_cons hadj hpath.left_of_append
  · rw [← hlength, hpos, List.length_append]
    rfl
  · intro i
    rw [hflag.other .food (by decide), hfoodIff]
  · rw [hflag.flag, hfoodSnake, Bool.false_and]
  · rw [hflag.other .wall (by decide), hfoodWall]

/-- Growing: the tail stays, the snake is one longer. -/
theorem inv_grow (h : Inv growing g₀ g) {g₁ : Game} {new head : Nat} (hen : Entered g₀ g g₁ new)
    (hhead : g.snakePos.head? = some head) (hnew : new < g₀.width * g₀.height)
    (hadj : Adjacent g₀.width new head) (hwall : hasFlag .wall g.cells new = false)
    (hfresh : new ∉ g.snakePos)
    (hlength : g.snakePos.length + 1 = if growing = 0 then 1 else 1 + g₁.score)
    (hfood : ∃ f, (∀ i, hasFlag .food g₁.cells i = true ↔ i = f) ∧
      hasFlag .snake g₁.cells f = false ∧ hasFlag .wall g₁.cells f = false) :
    Inv growing g₀ g₁ := by
  have hmem : ∀ i, i ∈ g₁.snakePos ↔ i = new ∨ i ∈ g.snakePos := fun i => by
    rw [hen.pos, List.mem_cons]
  refine ⟨hen.width, hen.height, hen.size.trans h.size, ?_, ?_, ?_, ?_, ?_, ?_, ?_, ?_, hfood⟩
  · intro i
    rw [hen.wall, h.walls]
  · intro i
    rw [hen.grass, h.grass]
  · intro i
    rw [hen.snake, Bool.or_eq_true, h.snake, decide_eq_true_eq, hmem]
    exact or_comm
  · rw [hen.pos]
    exact List.nodup_cons.mpr ⟨hfresh, h.nodup⟩
  · intro i hi
    rcases (hmem i).mp hi with rfl | hi
    · exact hnew
    · exact h.inRange i hi
  · intro i hi
    rw [hen.wall]
    rcases (hmem i).mp hi with rfl | hi
    · exact hwall
    · exact h.noWall i hi
  · have hpath := h.path
    rw [hen.pos]
    cases hp : g.snakePos with
    | nil => exact .singleton new
    | cons first rest =>
      rw [hp] at hhead hpath
      cases hhead
      exact .cons_cons hadj hpath
  · rw [hen.pos, List.length_cons, hlength]

/-- After a meal the invariant holds again, unless food cannot be placed. -/
theorem inv_replaceFood (h : Inv growing g₀ g) {g₁ : Game} {new head tail : Nat} {body : List Nat}
    (hen : Entered g₀ g g₁ new) (hhead : g.snakePos.head? = some head)
    (hpos : g.snakePos = body ++ [tail]) (hnew : new < g₀.width * g₀.height)
    (hadj : Adjacent g₀.width new head) (hwall : hasFlag .wall g.cells new = false)
    (hfresh : new ∉ g.snakePos) (hscore : g₁.score = g.score + 1)
    (hnone : ∀ i, hasFlag .food g₁.cells i = false) :
    (∃ e, replaceFood growing g₁ = .error e ∧ FoodFault e) ∨
    ∃ g', replaceFood growing g₁ = .ok g' ∧ Inv growing g₀ g' ∧ g'.gameOver = g₁.gameOver := by
  have hmax : sizeT (g₁.width * g₁.height) ≤ g₁.cells.length := by
    rw [hen.size, h.size, hen.width, hen.height]
    exact Nat.mod_le _ _
  unfold replaceFood placeFood
  obtain hnocell | hdiv | ⟨j, cells', drawn', hplace, hspot, hput⟩ :=
    placeFoodLoop_cases (sizeT (g₁.width * g₁.height)) hmax
  · rw [hnocell]
    exact .inl ⟨_, rfl, .inl rfl⟩
  · rw [hdiv]
    exact .inl ⟨_, rfl, .inr rfl⟩
  · rw [hplace]
    dsimp only
    right
    have hen' : Entered g₀ g { g₁ with cells := cells', drawn := drawn' } new := by
      refine ⟨hen.width, hen.height, hen.pos, hput.length.trans hen.size, ?_, ?_, ?_⟩
      · exact fun i => (hput.other .snake (by decide) i).trans (hen.snake i)
      · exact fun i => (hput.other .wall (by decide) i).trans (hen.wall i)
      · exact fun i => (hput.other .grass (by decide) i).trans (hen.grass i)
    -- the only food is the one just placed, on a free cell
    have hfood' : ∃ f, (∀ i, hasFlag .food cells' i = true ↔ i = f) ∧
        hasFlag .snake cells' f = false ∧ hasFlag .wall cells' f = false := by
      refine ⟨j, fun i => ?_, ?_, ?_⟩
      · rw [hput.flag, hnone, Bool.false_or, decide_eq_true_eq]
      · rw [hput.other .snake (by decide), hspot.hasFlag (by decide)]
      · rw [hput.other .wall (by decide), hspot.hasFlag (by decide)]
    have hnot : hasFlag .snake g.cells new = true → tail = new := fun hs =>
      absurd ((h.snake new).mp hs) hfresh
    by_cases hgrow : growing = 0
    · rw [if_pos hgrow]
      refine inv_removeTail h hen' hhead hpos hnew hadj hwall hnot ?_ hfood'
      rw [h.length, if_pos hgrow, if_pos hgrow]
    · rw [if_neg hgrow]
      refine ⟨_, rfl, inv_grow h hen' hhead hnew hadj hwall hfresh ?_ hfood', rfl⟩
      rw [h.length, if_neg hgrow, if_neg hgrow]
      dsimp only
      rw [hscore]
      omega

/-- Entering a cell keeps the invariant, unless food cannot be placed. -/
theorem inv_advance (h : Inv growing g₀ g) {new head tail : Nat} {body : List Nat} {c : Cell}
    (hcell : g.cells[new]? = some c) (hhead : g.snakePos.head? = some head)
    (hpos : g.snakePos = body ++ [tail]) (hadj : Adjacent g₀.width new head)
    (hwall : hasFlag .wall g.cells new = false)
    (hfree : hasFlag .snake g.cells new = true → tail = new) :
    (∃ e, advance growing new c g = .error e ∧ FoodFault e) ∨
    ∃ g', advance growing new c g = .ok g' ∧ Inv growing g₀ g' ∧ g'.gameOver = g.gameOver := by
  have hlt : new < g.cells.length := (List.getElem?_eq_some_iff.mp hcell).1
  have hnew : new < g₀.width * g₀.height := by rw [← h.size]; exact hlt
  obtain ⟨f, hfoodIff, hfoodSnake, hfoodWall⟩ := h.food
  have hset : FlagChange g.cells (g.cells.set new (c ||| FLAG_SNAKE)) .snake _ :=
    flagChange_or hcell .snake
  have hcell₁ : (g.cells.set new (c ||| FLAG_SNAKE))[new]? = some (c ||| FLAG_SNAKE) :=
    List.getElem?_set_self hlt
  have hfoodC : (c ||| FLAG_SNAKE) &&& FLAG_FOOD ≠ 0 ↔ new = f := by
    rw [← hfoodIff, ← hset.other .food (by decide), hasFlag_eq hcell₁]
    exact Flag.and_mask_ne_zero .food _
  unfold advance
  by_cases hfood : new = f
  · simp only [if_pos (hfoodC.mpr hfood)]
    subst hfood
    have heat : FlagChange (g.cells.set new (c ||| FLAG_SNAKE))
        ((g.cells.set new (c ||| FLAG_SNAKE)).set new ((c ||| FLAG_SNAKE) &&& ~~~FLAG_FOOD)) .food
        _ := flagChange_and_not hcell₁ .food
    have hfresh : new ∉ g.snakePos := fun hm => by
      rw [(h.snake new).mpr hm] at hfoodSnake
      cases hfoodSnake
    refine inv_replaceFood h ⟨h.width, h.height, rfl, heat.length.trans hset.length, fun i => ?_,
      fun i => ?_, fun i => ?_⟩ hhead hpos hnew hadj hwall hfresh rfl fun i => ?_
    · exact (heat.other .snake (by decide) i).trans (hset.flag i)
    · exact (heat.other .wall (by decide) i).trans (hset.other .wall (by decide) i)
    · exact (heat.other .grass (by decide) i).trans (hset.other .grass (by decide) i)
    · dsimp only
      rw [heat.flag, hset.other .food (by decide)]
      by_cases hi : i = new
      · simp [hi]
      · rw [Bool.and_eq_false_iff, ← Bool.not_eq_true, hfoodIff]
        exact .inl hi
  · simp only [if_neg (mt hfoodC.mp hfood)]
    right
    refine inv_removeTail h ⟨h.width, h.height, rfl, hset.length, hset.flag, ?_, ?_⟩ hhead hpos hnew
      hadj hwall hfree h.length ⟨f, fun i => ?_, ?_, ?_⟩
    · exact hset.other .wall (by decide)
    · exact hset.other .grass (by decide)
    · dsimp only
      rw [hset.other .food (by decide), hfoodIff]
    · dsimp only
      rw [hset.flag, hfoodSnake, Bool.false_or, decide_eq_false_iff_not]
      exact Ne.symm hfood
    · dsimp only
      rw [hset.other .wall (by decide), hfoodWall]

/-- The direction is not part of the invariant. -/
theorem Inv.turned (h : Inv growing g₀ g) (dir : SnakeDirection) :
    Inv growing g₀ { g with snakeDir := dir } :=
  ⟨h.width, h.height, h.size, h.walls, h.grass, h.snake, h.nodup, h.inRange, h.noWall, h.path,
    h.length, h.food⟩

/-- Nor is the game being over. -/
theorem Inv.over (h : Inv growing g₀ g) : Inv growing g₀ { g with gameOver := true } :=
  ⟨h.width, h.height, h.size, h.walls, h.grass, h.snake, h.nodup, h.inRange, h.noWall, h.path,
    h.length, h.food⟩

/-- The game as it was, over. -/
structure GameOver (g g' : Game) : Prop where
  gameOver : g'.gameOver = true
  cells : g'.cells = g.cells
  snakePos : g'.snakePos = g.snakePos
  score : g'.score = g.score

/-- **One call of `update`** keeps the invariant, and if it ends the game
it changes neither board nor snake nor score; it fails only where food
cannot be placed. -/
theorem inv_update (h₀ : Start g₀) (h : Inv growing g₀ g) (hplaying : g.gameOver = false)
    (input : InputKey) :
    (∃ e, update growing input g = .error e ∧ FoodFault e) ∨
    ∃ g', update growing input g = .ok g' ∧ Inv growing g₀ g' ∧
      (g'.gameOver = true → GameOver g g') := by
  have hlen : 0 < g.snakePos.length := by
    rw [h.length]
    split <;> omega
  obtain ⟨head, hhead⟩ : ∃ head, g.snakePos.head? = some head :=
    ⟨g.snakePos.head (List.length_pos_iff.mp hlen), List.head?_eq_some_head _⟩
  obtain ⟨tail, htail⟩ : ∃ tail, g.snakePos.getLast? = some tail :=
    ⟨g.snakePos.getLast (List.length_pos_iff.mp hlen), List.getLast?_eq_some_getLast _⟩
  obtain ⟨body, hpos⟩ := List.getLast?_eq_some_iff.mp htail
  have hmem : head ∈ g.snakePos := List.mem_of_head? hhead
  generalize hdir : turn g.snakeDir g.snakePos.length input = dir
  obtain ⟨hlt, hadj⟩ := nextCell_spec h₀.fits (h.inRange head hmem) (h.not_onEdge h₀ hmem) dir
  rw [← h.size, ← h.width] at hlt
  have hcell := List.getElem?_eq_getElem hlt
  have hwallC : g.cells[nextCell g.width dir head] &&& FLAG_WALL ≠ 0 ↔ _ :=
    Flag.and_mask_ne_zero .wall _
  have hsnakeC : g.cells[nextCell g.width dir head] &&& FLAG_SNAKE ≠ 0 ↔ _ :=
    Flag.and_mask_ne_zero .snake _
  simp only [update, hdir, hhead, htail, deref, readCell_eq hcell]
  have hturned := h.turned dir
  split
  · exact .inr ⟨_, rfl, hturned.over, fun _ => ⟨rfl, rfl, rfl, rfl⟩⟩
  · rename_i hgo
    rw [not_or, not_and, hwallC, hsnakeC, ← hasFlag_eq hcell, ← hasFlag_eq hcell,
      Bool.not_eq_true, not_not] at hgo
    obtain herr | ⟨g', hg', hinv, hover⟩ :=
      inv_advance hturned hcell hhead hpos (by rw [h.width]; exact hadj) hgo.1 hgo.2
    · exact .inl herr
    · refine .inr ⟨g', hg', hinv, fun h' => ?_⟩
      rw [hover, hplaying] at h'
      cases h'

/-! ## Runs -/

/-- The run: as long as food can be placed, the invariant holds after every
call. -/
theorem inv_play (h₀ : Start g₀) (inputs : List InputKey) (h : Inv growing g₀ g) :
    (∃ e, play growing inputs g = .error e ∧ FoodFault e) ∨
    ∃ g', play growing inputs g = .ok g' ∧ Inv growing g₀ g' := by
  induction inputs generalizing g with
  | nil => exact .inr ⟨g, rfl, h⟩
  | cons input inputs ih =>
    unfold play
    cases hover : g.gameOver with
    | true => exact .inr ⟨g, rfl, h⟩
    | false =>
      rw [if_neg (by decide)]
      obtain ⟨e, he, hfood⟩ | ⟨g', hg', hinv, -⟩ := inv_update h₀ h hover input
      · rw [he]
        exact .inl ⟨e, rfl, hfood⟩
      · rw [hg']
        exact ih hinv

/-- **The game invariant.** From a starting board every run either ends
where food cannot be placed, or keeps the invariant; and the call that ends
the game leaves board, snake and score as they were. -/
theorem snake_invariant (growing : Int) (g₀ : Game) (h₀ : Start g₀) (inputs : List InputKey) :
    (∀ e, play growing inputs g₀ = .error e → FoodFault e) ∧
    ∀ g, play growing inputs g₀ = .ok g → Inv growing g₀ g ∧
      (g.gameOver = false → ∀ input g', update growing input g = .ok g' →
        g'.gameOver = true → GameOver g g') := by
  obtain ⟨e, he, hfood⟩ | ⟨g, hg, hinv⟩ := inv_play h₀ inputs (h₀.inv growing)
  · rw [he]
    refine ⟨fun e' h => ?_, fun g h => by cases h⟩
    cases h
    exact hfood
  · rw [hg]
    refine ⟨fun e h => (by cases h), fun g' h => ?_⟩
    cases h
    refine ⟨hinv, fun hplaying input g' hg' => ?_⟩
    obtain ⟨e, he, -⟩ | ⟨g'', hg'', -, hover⟩ := inv_update h₀ hinv hplaying input
    · rw [he] at hg'
      cases hg'
    · rw [hg''] at hg'
      cases hg'
      exact hover

/-- A board of four rows and five columns, snake and food side by side. -/
def smallGame : Game where
  cells := [2, 2, 2, 2, 2,  2, 1, 4, 8, 2,  2, 0, 0, 8, 2,  2, 2, 2, 2, 2]
  width := 5
  height := 4
  snakeDir := .right
  snakePos := [6]
  gameOver := false
  score := 0
  rand := fun n => if n = 0 then 8 else 12
  drawn := 0

theorem smallGame_start : Start smallGame where
  size := rfl
  fits := by decide
  walled := by
    unfold OnEdge
    decide
  snake := by
    have honly : ∀ i < 20, hasFlag .snake smallGame.cells i = true → i = 6 := by decide
    refine ⟨6, rfl, fun i => ⟨fun h => honly i (hasFlag_lt h) h, ?_⟩, rfl⟩
    rintro rfl
    rfl
  food := by
    have honly : ∀ i < 20, hasFlag .food smallGame.cells i = true → i = 7 := by decide
    refine ⟨7, .inl rfl, fun i => ⟨fun h => honly i (hasFlag_lt h) h, ?_⟩⟩
    rintro rfl
    rfl
  score := rfl

/-- Two meals and then the wall. -/
theorem snake_invariant_smallGame :
    ∃ g, play 1 [.none, .right, .right] smallGame = .ok g ∧ g.snakePos = [8, 7, 6] ∧
      g.gameOver = true ∧ Inv 1 smallGame g := by
  obtain ⟨g, hg, hpos, hover⟩ : ∃ g, play 1 [.none, .right, .right] smallGame = .ok g ∧
      g.snakePos = [8, 7, 6] ∧ g.gameOver = true := ⟨_, rfl, rfl, rfl⟩
  exact ⟨g, hg, hpos, hover, ((snake_invariant 1 smallGame smallGame_start _).2 g hg).1⟩

end

end SystemsProjects.Snake
