/-
SystemsProjects.Snake.Game — game.c: one step of the game, and placing
food.

The board and the snake are passed explicitly, the globals `g_game_over`
and `g_score` with them, and the values `rand()` will return as a stream.
The snake's linked list is the list of its positions, head first. A read
or write outside the array, the dereference of a null pointer, a division
by zero and the assertion of `place_food` are faults. `size_t` arithmetic
is modulo 2^64; the counters of type `int` are unbounded, since overflow
is undefined there; `malloc` succeeds.
-/
import SystemsProjects.Snake.Board

namespace SystemsProjects.Snake

inductive InputKey where
  | up
  | down
  | left
  | right
  | none
  deriving DecidableEq, Repr

inductive SnakeDirection where
  | up
  | down
  | left
  | right
  deriving DecidableEq, Repr

/-- What `update` reads and writes. -/
structure Game where
  cells : Cells
  width : Nat
  height : Nat
  snakeDir : SnakeDirection
  snakePos : List Nat
  gameOver : Bool
  score : Nat
  /-- The values `rand()` returns, and how many it has returned. -/
  rand : Nat → Fin (2 ^ 31)
  drawn : Nat

inductive Fault where
  | outOfBounds
  | nullDeref
  | divisionByZero
  | noCellForFood
  deriving DecidableEq, Repr

/-- `size_t` arithmetic. -/
def sizeT (n : Nat) : Nat := n % 2 ^ 64

def readCell (cells : Cells) (i : Nat) : Except Fault Cell :=
  match cells[i]? with
  | some c => .ok c
  | none => .error .outOfBounds

/-- `*ptr`, for a pointer that may be null. -/
def deref (ptr : Option Nat) : Except Fault Nat :=
  match ptr with
  | some v => .ok v
  | none => .error .nullDeref

/-! ## Food -/

/-- `generate_index`: the next value of `rand()` modulo `size`, with
`size` cut to `unsigned`. -/
def generateIndex (g : Game) (size : Nat) : Except Fault (Nat × Game) :=
  let size := size % 2 ^ 32
  if size = 0 then .error .divisionByZero
  else .ok ((g.rand g.drawn).val % size, { g with drawn := g.drawn + 1 })

/-- The loop of `place_food`, with the attempts left. -/
def placeFoodLoop : Nat → Game → Except Fault Game
  | 0, _ => .error .noCellForFood
  | attempts + 1, g =>
    match generateIndex g (sizeT (g.width * g.height)) with
    | .error e => .error e
    | .ok (foodIndex, g) =>
      match readCell g.cells foodIndex with
      | .error e => .error e
      | .ok c =>
        if c = PLAIN_CELL ∨ c = FLAG_GRASS then
          .ok { g with cells := g.cells.set foodIndex (c ||| FLAG_FOOD) }
        else placeFoodLoop attempts g

def placeFood (g : Game) : Except Fault Game := placeFoodLoop (sizeT (g.width * g.height)) g

/-! ## One step -/

/-- The direction after an input; a snake longer than one cell does not
turn back on itself. -/
def turn (oldDir : SnakeDirection) (snakeLen : Nat) : InputKey → SnakeDirection
  | .none => oldDir
  | .down => if ¬ snakeLen > 1 ∨ oldDir ≠ .up then .down else oldDir
  | .up => if ¬ snakeLen > 1 ∨ oldDir ≠ .down then .up else oldDir
  | .left => if ¬ snakeLen > 1 ∨ oldDir ≠ .right then .left else oldDir
  | .right => if ¬ snakeLen > 1 ∨ oldDir ≠ .left then .right else oldDir

/-- The square ahead of the head. -/
def nextCell (width : Nat) (dir : SnakeDirection) (headVal : Nat) : Nat :=
  match dir with
  | .up => sizeT (headVal + (2 ^ 64 - sizeT width))
  | .down => sizeT (headVal + width)
  | .right => sizeT (headVal + 1)
  | .left => sizeT (headVal + (2 ^ 64 - 1))

/-- Drop the last position; its cell loses the flag unless the head is
there. -/
def removeTail (g : Game) : Except Fault Game :=
  match deref g.snakePos.getLast? with
  | .error e => .error e
  | .ok lastCell =>
    let snakePos := g.snakePos.dropLast
    match deref snakePos.head? with
    | .error e => .error e
    | .ok firstCell =>
      if firstCell ≠ lastCell then
        match readCell g.cells lastCell with
        | .error e => .error e
        | .ok c =>
          .ok { g with snakePos := snakePos, cells := g.cells.set lastCell (c &&& ~~~FLAG_SNAKE) }
      else .ok { g with snakePos := snakePos }

/-- After a meal: place new food, and drop the tail unless growing. -/
def replaceFood (growing : Int) (g : Game) : Except Fault Game :=
  match placeFood g with
  | .error e => .error e
  | .ok g => if growing = 0 then removeTail g else .ok g

/-- The head enters `newCell`, whose contents are `c`. -/
def advance (growing : Int) (newCell : Nat) (c : Cell) (g : Game) : Except Fault Game :=
  let c := c ||| FLAG_SNAKE
  let g := { g with snakePos := newCell :: g.snakePos, cells := g.cells.set newCell c }
  if c &&& FLAG_FOOD ≠ 0 then
    let g := { g with score := g.score + 1, cells := g.cells.set newCell (c &&& ~~~FLAG_FOOD) }
    replaceFood growing g
  else removeTail g

def update (growing : Int) (input : InputKey) (g : Game) : Except Fault Game :=
  let g := { g with snakeDir := turn g.snakeDir g.snakePos.length input }
  match deref g.snakePos.head? with
  | .error e => .error e
  | .ok headVal =>
    let newCell := nextCell g.width g.snakeDir headVal
    match deref g.snakePos.getLast? with
    | .error e => .error e
    | .ok tail =>
      match readCell g.cells newCell with
      | .error e => .error e
      | .ok c =>
        if c &&& FLAG_WALL ≠ 0 ∨ (c &&& FLAG_SNAKE ≠ 0 ∧ tail ≠ newCell) then
          .ok { g with gameOver := true }
        else advance growing newCell c g

/-- Update calls up to the end of the inputs or of the game. -/
def play (growing : Int) : List InputKey → Game → Except Fault Game
  | [], g => .ok g
  | input :: inputs, g =>
    if g.gameOver then .ok g
    else
      match update growing input g with
      | .error e => .error e
      | .ok g => play growing inputs g

end SystemsProjects.Snake
