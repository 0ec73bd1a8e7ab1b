/-
SystemsProjects.Snake.GameSetup — game_setup.c: decoding a board from its
run-length encoding.

A C string is the list of its characters, the terminator being the end of
the list. `strtok` keeps its position between calls; here it is what is
left of the string. The results `*cells_p`, `*width_p`, `*height_p` are a
`Board`, and the variable `num_snakes` that the nested function
`fill_cells` shares with its caller is the fourth field of `Decoding`.

A write outside the allocated cells is a fault, and so is an `int` that
overflows, since C leaves its value undefined. The loops over the rows and
over the runs of a row take a bound on their number; running out of it is
a fault as well. Sizes stay below 2^64, as both dimensions are `int`s. What
`malloc` returns is a parameter: a block, or a null pointer, which the
source does not test for. The lines printed on `stdout` are left out.
-/
import SystemsProjects.Snake.Board

namespace SystemsProjects.Snake.Setup

/-- `board_init_status`. -/
inductive InitStatus where
  | success
  | errIncorrectDimensions
  | errWrongSnakeNum
  | errBadChar
  | unimplemented
  deriving DecidableEq, Repr

inductive Fault where
  | outOfBounds
  | signedOverflow
  | outOfFuel
  deriving DecidableEq, Repr

/-- What `decompress_board_str` sets through its pointers. -/
structure Board where
  cells : Cells
  width : Nat
  height : Nat
  deriving DecidableEq, Repr

structure Decoding extends Board where
  numSnakes : Nat
  deriving DecidableEq, Repr

def INT_MAX : Nat := 2 ^ 31 - 1

/-- A value of type `int`. -/
def toInt (n : Nat) : Except Fault Nat :=
  if n ≤ INT_MAX then .ok n else .error .signedOverflow

def isDigit (c : Char) : Bool := '0' ≤ c ∧ c ≤ '9'

/-- `10 * n + (c - '0')`. -/
def pushDigit (n : Nat) (c : Char) : Nat := 10 * n + (c.toNat - 48)

/-! ## The dimensions -/

/-- The loop of `set_dimensions`; `none` when it returns
`INIT_ERR_INCORRECT_DIMENSIONS`. -/
def setDimensionsLoop (rowDim colDim : Nat) (onRows : Bool) :
    List Char → Except Fault (Option (Nat × Nat))
  | [] => .ok none -- the terminator is no digit
  | c :: rest =>
    if c = '|' then .ok (some (rowDim, colDim))
    else if c = 'B' then setDimensionsLoop rowDim colDim onRows rest
    else if c = 'x' then setDimensionsLoop rowDim colDim false rest
    else if isDigit c = false then .ok none
    else if onRows then do
      let rowDim ← toInt (pushDigit rowDim c)
      setDimensionsLoop rowDim colDim onRows rest
    else do
      let colDim ← toInt (pushDigit colDim c)
      setDimensionsLoop rowDim colDim onRows rest

def setDimensions (b : Board) (compressed : List Char) : Except Fault (InitStatus × Board) := do
  match ← setDimensionsLoop 0 0 true compressed with
  | none => pure (.errIncorrectDimensions, b)
  | some (rowDim, colDim) => pure (.success, { b with width := colDim, height := rowDim })

/-! ## The cells -/

/-- `cells[j] = v`. -/
def writeCell (cells : Cells) (j : Nat) (v : Cell) : Except Fault Cells :=
  if j < cells.length then .ok (cells.set j v) else .error .outOfBounds

/-- `fill_cells`, from index `j` on, with `numCells` left. -/
def fillCells (flag : Char) : Nat → Nat → Decoding → Except Fault (InitStatus × Decoding)
  | _, 0, d => pure (.success, d)
  | j, numCells + 1, d =>
    if j ≥ d.width * d.height then pure (.errIncorrectDimensions, d)
    else
      match flag with
      | 'S' => do
        let cells ← writeCell d.cells j FLAG_SNAKE
        let numSnakes ← toInt (d.numSnakes + 1)
        fillCells flag (j + 1) numCells { d with cells := cells, numSnakes := numSnakes }
      | 'E' => do
        let cells ← writeCell d.cells j PLAIN_CELL
        fillCells flag (j + 1) numCells { d with cells := cells }
      | 'G' => do
        let cells ← writeCell d.cells j FLAG_GRASS
        fillCells flag (j + 1) numCells { d with cells := cells }
      | 'W' => do
        let cells ← writeCell d.cells j FLAG_WALL
        fillCells flag (j + 1) numCells { d with cells := cells }
      | _ => pure (.errBadChar, d)

/-! ## The rows -/

/-- `strtok(s, "|")`: the token, and what is left for the next call. -/
def strtok (s : List Char) : Option (List Char × List Char) :=
  match s.dropWhile (· = '|') with
  | [] => none
  | c :: rest =>
    some ((c :: rest).takeWhile (· ≠ '|'), ((c :: rest).dropWhile (· ≠ '|')).tail)

/-- The digits of a count. -/
def readCount (count : Nat) : List Char → Except Fault (Nat × List Char)
  | [] => .ok (count, [])
  | c :: rest =>
    if isDigit c = true then do
      let count ← toInt (pushDigit count c)
      readCount count rest
    else .ok (count, c :: rest)

/-- The runs of a row: the status, `curr_cell` and `num_cells_in_row`
after them. -/
def rowLoop : Nat → List Char → Nat → Nat → Decoding →
    Except Fault (InitStatus × Nat × Nat × Decoding)
  | 0, _, _, _, _ => .error .outOfFuel
  | _ + 1, [], currCell, numCellsInRow, d => pure (.success, currCell, numCellsInRow, d)
  | fuel + 1, c :: rest, currCell, numCellsInRow, d => do
    let (count, rest) ← readCount 0 rest
    let (status, d) ← fillCells c currCell count d
    if status ≠ .success then pure (status, currCell, numCellsInRow, d)
    else rowLoop fuel rest (currCell + count) (numCellsInRow + count) d

/-- The loop over the rows, and the tests behind it. -/
def boardLoop : Nat → List Char → Nat → Nat → Decoding → Except Fault (InitStatus × Decoding)
  | 0, _, _, _, _ => .error .outOfFuel
  | fuel + 1, s, currRow, currCell, d =>
    match strtok s with
    | none =>
      if currRow ≠ d.height then pure (.errIncorrectDimensions, d)
      else if d.numSnakes ≠ 1 then pure (.errWrongSnakeNum, d)
      else if currRow ≠ d.height then pure (.errIncorrectDimensions, d)
      else pure (.success, d)
    | some (rowToken, s) => do
      let (status, currCell, numCellsInRow, d) ←
        rowLoop (rowToken.length + 1) rowToken currCell 0 d
      if status ≠ .success then pure (status, d)
      else if numCellsInRow ≠ d.width then pure (.errIncorrectDimensions, d)
      else boardLoop fuel s (currRow + 1) currCell d

/-- The `n` cells at the pointer that `malloc` returns, `none` being null.
Behind a null pointer there is no cell, so every access is a fault. -/
def mallocCells (block : Option (Nat → Cell)) (n : Nat) : Cells :=
  match block with
  | none => []
  | some fresh => (List.range n).map fresh

def decompressBoardStr (block : Option (Nat → Cell)) (old : Board) (compressed : List Char) :
    Except Fault (InitStatus × Board) := do
  let (status, b) ← setDimensions old compressed
  if status ≠ .success then pure (status, b)
  else
    let cells := mallocCells block (b.width * b.height)
    -- the first token is the dimensions
    let s :=
      match strtok compressed with
      | none => []
      | some (_, s) => s
    let (status, d) ← boardLoop (s.length + 1) s 0 0 { b with cells := cells, numSnakes := 0 }
    pure (status, d.toBoard)

end SystemsProjects.Snake.Setup
