/-
SystemsProjects.Snake.FoodPlacement — when `place_food` finds a cell.

`place_food` draws indices with replacement, as many as the board has
cells. It returns exactly if one of these draws hits a plain or
grass-only cell and no draw before it leaves the array
(`placeFoodLoop_ok_iff`), so whether it succeeds depends on the values of
`rand()`, not only on the board: with one cell taken there are values for
which its assertion fails (`placeFood_always_iff`).
-/
import SystemsProjects.Snake.Invariant
import Mathlib.Data.Nat.Find

namespace SystemsProjects.Snake

/-! ## The draws -/

/-- What `generate_index` is called with, cut to `unsigned`. -/
def Game.drawSize (g : Game) : Nat := sizeT (g.width * g.height) % 2 ^ 32

/-- The index that the `k`-th draw from now on gives. -/
def Game.foodIndex (g : Game) (k : Nat) : Nat := (g.rand (g.drawn + k)).val % g.drawSize

/-- The `k`-th draw is the first to hit a free cell; those before it are
on the board too. -/
structure Game.FirstHit (g : Game) (k : Nat) : Prop where
  free : Free g.cells (g.foodIndex k)
  before : ∀ i < k, g.foodIndex i < g.cells.length ∧ ¬ Free g.cells (g.foodIndex i)

/-- Food on cell `j`, after `n` draws. -/
def Game.feed (g : Game) (j n : Nat) : Game :=
  { g with cells := g.cells.modify j (· ||| FLAG_FOOD), drawn := g.drawn + n }

theorem Free.lt {cells : Cells} {j : Nat} (h : Free cells j) : j < cells.length := by
  obtain ⟨c, hc, -⟩ := h
  exact (List.getElem?_eq_some_iff.mp hc).1

theorem free_iff {cells : Cells} {j : Nat} {c : Cell} (h : cells[j]? = some c) :
    Free cells j ↔ c = PLAIN_CELL ∨ c = FLAG_GRASS := by
  simp [Free, h]

/-- Food is the only flag that changes, and only on cell `j`. -/
theorem flagChange_feed {g : Game} {j : Nat} (h : Free g.cells j) (n : Nat) :
    FlagChange g.cells (g.feed j n).cells .food
      fun i => hasFlag .food g.cells i || decide (i = j) := by
  obtain ⟨c, hc, -⟩ := h
  have hset : (g.feed j n).cells = g.cells.set j (c ||| Flag.mask .food) := by
    rw [Game.feed, List.modify_eq_set, hc, Option.getD_some]
    rfl
  rw [hset]
  exact flagChange_or hc .food

section

variable {g g' : Game} {attempts : Nat}

/-- The draws after the first. -/
theorem Game.foodIndex_next (g : Game) (k : Nat) :
    Game.foodIndex { g with drawn := g.drawn + 1 } k = g.foodIndex (k + 1) := by
  simp only [Game.foodIndex, Game.drawSize, Nat.add_assoc, Nat.add_comm 1]

theorem Game.feed_next (g : Game) (j n : Nat) :
    Game.feed { g with drawn := g.drawn + 1 } j n = g.feed j (n + 1) := by
  simp only [Game.feed, Nat.add_assoc, Nat.add_comm 1]

/-- A later first hit is one after the first draw has missed. -/
theorem Game.firstHit_succ (k : Nat) :
    g.FirstHit (k + 1) ↔ (g.foodIndex 0 < g.cells.length ∧ ¬ Free g.cells (g.foodIndex 0)) ∧
      Game.FirstHit { g with drawn := g.drawn + 1 } k := by
  constructor
  · intro h
    refine ⟨h.before 0 (Nat.succ_pos k), ?_, fun i hi => ?_⟩
    · rw [foodIndex_next]
      exact h.free
    · rw [foodIndex_next]
      exact h.before (i + 1) (by omega)
  · intro h
    obtain ⟨hfirst, hlater⟩ := h
    have hfree := hlater.free
    have hbefore := hlater.before
    simp only [foodIndex_next] at hfree hbefore
    refine ⟨hfree, fun i hi => ?_⟩
    cases i with
    | zero => exact hfirst
    | succ i => exact hbefore i (by omega)

theorem Game.firstHit_zero : g.FirstHit 0 ↔ Free g.cells (g.foodIndex 0) := by
  refine ⟨fun h => h.free, fun h => ⟨h, ?_⟩⟩
  simp

/-- A hit with all draws before it on the board makes a first hit. -/
theorem Game.exists_firstHit :
    (∃ k < attempts, g.FirstHit k) ↔
      ∃ k < attempts, Free g.cells (g.foodIndex k) ∧ ∀ i < k, g.foodIndex i < g.cells.length := by
  classical
  constructor
  · intro h
    obtain ⟨k, hk, hhit⟩ := h
    exact ⟨k, hk, hhit.free, fun i hi => (hhit.before i hi).1⟩
  · intro h
    obtain ⟨k, hk, hfree, hbefore⟩ := h
    have hex : ∃ k, Free g.cells (g.foodIndex k) := ⟨k, hfree⟩
    have hle : Nat.find hex ≤ k := Nat.find_min' hex hfree
    refine ⟨Nat.find hex, by omega, Nat.find_spec hex, fun i hi => ⟨?_, Nat.find_min hex hi⟩⟩
    exact hbefore i (by omega)

/-! ## The loop -/

/-- One attempt. -/
theorem placeFoodLoop_succ (hsize : g.drawSize ≠ 0) {c : Cell}
    (hc : g.cells[g.foodIndex 0]? = some c) :
    placeFoodLoop (attempts + 1) g =
      if c = PLAIN_CELL ∨ c = FLAG_GRASS then .ok (g.feed (g.foodIndex 0) 1)
      else placeFoodLoop attempts { g with drawn := g.drawn + 1 } := by
  have hindex : generateIndex g (sizeT (g.width * g.height)) =
      .ok (g.foodIndex 0, { g with drawn := g.drawn + 1 }) := if_neg hsize
  have hmodify : g.cells.modify (g.foodIndex 0) (· ||| FLAG_FOOD) =
      g.cells.set (g.foodIndex 0) (c ||| FLAG_FOOD) := by
    rw [List.modify_eq_set, hc, Option.getD_some]
  rw [placeFoodLoop, hindex]
  simp only [readCell_eq hc, Game.feed, hmodify]

/-- An attempt that draws no index of the array. -/
theorem placeFoodLoop_fault (attempts : Nat) (h : g.drawSize = 0 ∨ g.cells.length ≤ g.foodIndex 0) :
    ∃ e, placeFoodLoop (attempts + 1) g = .error e := by
  by_cases hsize : g.drawSize = 0
  · have hindex : generateIndex g (sizeT (g.width * g.height)) = .error .divisionByZero :=
      if_pos hsize
    rw [placeFoodLoop, hindex]
    exact ⟨_, rfl⟩
  · have hindex : generateIndex g (sizeT (g.width * g.height)) =
        .ok (g.foodIndex 0, { g with drawn := g.drawn + 1 }) := if_neg hsize
    have hnone : g.cells[g.foodIndex 0]? = none :=
      List.getElem?_eq_none (h.resolve_left hsize)
    rw [placeFoodLoop, hindex]
    simp only [readCell, hnone]
    exact ⟨_, rfl⟩

/-- The loop returns with food on the cell of the first hit. -/
theorem placeFoodLoop_eq_ok_iff :
    placeFoodLoop attempts g = .ok g' ↔
      g.drawSize ≠ 0 ∧ ∃ k < attempts, g.FirstHit k ∧ g' = g.feed (g.foodIndex k) (k + 1) := by
  induction attempts generalizing g with
  | zero => simp [placeFoodLoop]
  | succ attempts ih =>
    by_cases hbad : g.drawSize = 0 ∨ g.cells.length ≤ g.foodIndex 0
    · obtain ⟨e, he⟩ := placeFoodLoop_fault attempts hbad
      rw [he]
      constructor
      · intro h
        cases h
      · intro h
        obtain ⟨hsize, k, -, hhit, -⟩ := h
        refine absurd hbad ?_
        -- a hit, first or later, has the first draw on the board
        rw [not_or, Nat.not_le]
        refine ⟨hsize, ?_⟩
        cases k with
        | zero => exact hhit.free.lt
        | succ k => exact (hhit.before 0 (Nat.succ_pos k)).1
    · rw [not_or, Nat.not_le] at hbad
      obtain ⟨hsize, hlt⟩ := hbad
      have hc := List.getElem?_eq_getElem hlt
      rw [placeFoodLoop_succ hsize hc, Nat.exists_lt_succ_left, Game.firstHit_zero]
      by_cases hfree : Free g.cells (g.foodIndex 0)
      · rw [if_pos ((free_iff hc).mp hfree)]
        constructor
        · intro h
          cases h
          exact ⟨hsize, .inl ⟨hfree, rfl⟩⟩
        · intro h
          obtain ⟨-, h⟩ := h
          rcases h with ⟨_, hg⟩ | ⟨k, _, hhit, _⟩
          · rw [hg]
          · exact absurd hfree ((Game.firstHit_succ k).mp hhit).1.2
      · have hmiss : ∀ k, g.FirstHit (k + 1) ↔ Game.FirstHit { g with drawn := g.drawn + 1 } k := by
          intro k
          rw [Game.firstHit_succ]
          exact ⟨fun h => h.2, fun h => ⟨⟨hlt, hfree⟩, h⟩⟩
        rw [if_neg (mt (free_iff hc).mpr hfree), ih]
        simp only [hfree, false_and, false_or, hmiss, Game.foodIndex_next, Game.feed_next]
        rfl

/-- **When the loop returns.** -/
theorem placeFoodLoop_ok_iff :
    (∃ g', placeFoodLoop attempts g = .ok g') ↔ g.drawSize ≠ 0 ∧
      ∃ k < attempts, Free g.cells (g.foodIndex k) ∧
        ∀ i < k, g.foodIndex i < g.cells.length := by
  rw [← Game.exists_firstHit]
  constructor
  · intro h
    obtain ⟨g', h⟩ := h
    obtain ⟨hsize, k, hk, hhit, -⟩ := placeFoodLoop_eq_ok_iff.mp h
    exact ⟨hsize, k, hk, hhit⟩
  · intro h
    obtain ⟨hsize, k, hk, hhit⟩ := h
    exact ⟨_, placeFoodLoop_eq_ok_iff.mpr ⟨hsize, k, hk, hhit, rfl⟩⟩

end

/-! ## Boards -/

/-- A board of `width * height` cells, fewer than 2^31. -/
structure Game.IsBoard (g : Game) : Prop where
  size : g.cells.length = g.width * g.height
  small : g.width * g.height < 2 ^ 31

section

variable {g : Game}

theorem Game.IsBoard.attempts (h : g.IsBoard) :
    sizeT (g.width * g.height) = g.width * g.height := by
  have hsmall := h.small
  exact Nat.mod_eq_of_lt (by omega)

theorem Game.IsBoard.drawSize (h : g.IsBoard) : g.drawSize = g.width * g.height := by
  have hsmall := h.small
  rw [Game.drawSize, h.attempts]
  exact Nat.mod_eq_of_lt (by omega)

theorem Game.IsBoard.foodIndex (h : g.IsBoard) (k : Nat) :
    g.foodIndex k = (g.rand (g.drawn + k)).val % (g.width * g.height) := by
  rw [Game.foodIndex, h.drawSize]

/-- Every draw is on the board. -/
theorem Game.IsBoard.foodIndex_lt (h : g.IsBoard) (hpos : 0 < g.width * g.height) (k : Nat) :
    g.foodIndex k < g.cells.length := by
  rw [h.size, h.foodIndex]
  exact Nat.mod_lt _ hpos

/-- On a board only the hit is in question. -/
theorem Game.IsBoard.placeFood_ok_iff (h : g.IsBoard) :
    (∃ g', placeFood g = .ok g') ↔
      ∃ k < g.width * g.height, Free g.cells (g.foodIndex k) := by
  rw [placeFood, placeFoodLoop_ok_iff, h.attempts, h.drawSize]
  constructor
  · intro hex
    obtain ⟨-, k, hk, hfree, -⟩ := hex
    exact ⟨k, hk, hfree⟩
  · intro hex
    obtain ⟨k, hk, hfree⟩ := hex
    have hpos : 0 < g.width * g.height := by omega
    exact ⟨by omega, k, hk, hfree, fun i _ => h.foodIndex_lt hpos i⟩

/-- What `place_food` does when it returns: one free cell gets food,
nothing else changes. -/
theorem placeFood_ok {g' : Game} (h : placeFood g = .ok g') :
    ∃ j n, Free g.cells j ∧ g' = g.feed j n := by
  obtain ⟨-, k, -, hhit, rfl⟩ := placeFoodLoop_eq_ok_iff.mp h
  exact ⟨_, _, hhit.free, rfl⟩

/-- **`place_food` succeeds exactly if a draw hits**: it returns with food
on one plain or grass-only cell, and nothing else changed, if and only if
one of the next `width * height` values of `rand()`, taken modulo that
number, is the index of such a cell. -/
theorem placeFood_succeeds_iff (h : g.IsBoard) :
    (∃ j n, Free g.cells j ∧
      placeFood g = .ok
        { g with cells := g.cells.modify j (· ||| FLAG_FOOD), drawn := g.drawn + n }) ↔
      ∃ k < g.width * g.height,
        Free g.cells ((g.rand (g.drawn + k)).val % (g.width * g.height)) := by
  simp only [← h.foodIndex]
  rw [← h.placeFood_ok_iff]
  constructor
  · intro hex
    obtain ⟨j, n, -, hok⟩ := hex
    exact ⟨_, hok⟩
  · intro hex
    obtain ⟨g', hok⟩ := hex
    obtain ⟨j, n, hfree, rfl⟩ := placeFood_ok hok
    exact ⟨j, n, hfree, hok⟩

/-- The board `B1x3|S1W1E1`, and the values `rand()` begins with when no
seed is set. -/
def crowdedGame : Game where
  cells := [FLAG_SNAKE, FLAG_WALL, PLAIN_CELL]
  width := 3
  height := 1
  snakeDir := .right
  snakePos := [0]
  gameOver := false
  score := 0
  rand := fun n =>
    ⟨[1804289383, 846930886, 1681692777, 1714636915, 1957747793].getD n 0 % 2 ^ 31, by omega⟩
  drawn := 0

theorem crowdedGame_isBoard : crowdedGame.IsBoard := ⟨rfl, by decide⟩

/-- Two values later the draws are 0, 1 and 2. -/
theorem placeFood_succeeds_crowded :
    ∃ j n, Free crowdedGame.cells j ∧ placeFood { crowdedGame with drawn := 2 } = .ok
      { crowdedGame with
        cells := crowdedGame.cells.modify j (· ||| FLAG_FOOD), drawn := 2 + n } := by
  have hboard : Game.IsBoard { crowdedGame with drawn := 2 } := ⟨rfl, by decide⟩
  have hhit : Free crowdedGame.cells (1957747793 % 3) := ⟨PLAIN_CELL, rfl, .inl rfl⟩
  exact (placeFood_succeeds_iff hboard).mpr ⟨2, by decide, hhit⟩

/-- The third cell is plain, but the draws are 1, 1 and 0. -/
theorem placeFood_misses_crowded :
    crowdedGame.IsBoard ∧ Free crowdedGame.cells 2 ∧
      placeFood crowdedGame = .error .noCellForFood :=
  ⟨crowdedGame_isBoard, ⟨PLAIN_CELL, rfl, .inl rfl⟩, rfl⟩

/-- Only with every cell free does it succeed whatever `rand()` returns. -/
theorem placeFood_always_iff (h : g.IsBoard) (hpos : 0 < g.width * g.height) :
    (∀ rand, ∃ g', placeFood { g with rand := rand } = .ok g') ↔
      ∀ j < g.width * g.height, Free g.cells j := by
  have hboard : ∀ rand, Game.IsBoard { g with rand := rand } := fun rand => ⟨h.size, h.small⟩
  constructor
  · intro halways j hj
    -- `rand()` may return `j` each time
    have hsmall := h.small
    obtain ⟨k, -, hfree⟩ := (hboard fun _ => ⟨j, by omega⟩).placeFood_ok_iff.mp
      (halways fun _ => ⟨j, by omega⟩)
    rw [(hboard _).foodIndex] at hfree
    dsimp only at hfree
    rwa [Nat.mod_eq_of_lt hj] at hfree
  · intro hall rand
    refine (hboard rand).placeFood_ok_iff.mpr ⟨0, hpos, hall _ ?_⟩
    rw [(hboard rand).foodIndex]
    exact Nat.mod_lt _ hpos

end

end SystemsProjects.Snake
