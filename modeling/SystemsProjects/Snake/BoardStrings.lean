/-
SystemsProjects.Snake.BoardStrings — the documented format of a board
string, and the strings `decompress_board_str` accepts beyond it.

`Encodes` is the format: `B<h>x<w>` and one bar and row for each row of a
grid, a row being cut into runs in any way. Every encoding is decoded to
its grid (`decompress_encoding`).

The converse fails. `strtok` swallows empty rows, a run without a count
or with the count 0 paints nothing whatever its letter, and
`set_dimensions` takes the letters of the header in any order and number.
`Tolerated` is the format with these allowances, and the decoder succeeds
on exactly the tolerated strings, if `malloc` grants the array. Behind a
null pointer it returns only where it stops before the first cell
(`Stored`).
-/
import SystemsProjects.Snake.NullCells

namespace SystemsProjects.Snake.Setup

open SystemsProjects.Base

/-! ## The tolerated strings -/

section

variable (s : List Char)

def heightOf : Nat := decimal (rowDigits true (readable s))

def widthOf : Nat := decimal (colDigits true (readable s))

/-- The rows: all tokens but the first. -/
def boardRows : List (List Run) := (tokens s).tail.map runs

/-- The text up to some number is in order, and the number, or the count
of snake cells, exceeds an `int`. -/
def Overflows : Prop :=
  (INT_MAX < heightOf s ∨ INT_MAX < widthOf s) ∨
    headerOk s = true ∧ BoardOverflows (widthOf s * heightOf s) (widthOf s) 0 0 (boardRows s)

/-- A header of digits, `B`s and `x`s; as many rows, empty ones not
counted, as it says; rows of the width it says, made of runs of known
letters and of empty runs; and one snake cell. -/
structure Tolerated : Prop where
  header : headerOk s = true
  height : heightOf s ≤ INT_MAX
  width : widthOf s ≤ INT_MAX
  rows : (boardRows s).length = heightOf s
  widths : ∀ row ∈ boardRows s, cellCount row = widthOf s
  known : ∀ row ∈ boardRows s, ∀ run ∈ row, run.Known
  oneSnake : snakeCount (boardRows s).flatten = 1

end

variable {s : List Char} {block : Option (Nat → Cell)} {fresh : Nat → Cell} {old : Board}

theorem cellCount_flatten {rows : List (List Run)} {w : Nat}
    (h : ∀ row ∈ rows, cellCount row = w) : cellCount rows.flatten = w * rows.length := by
  induction rows with
  | nil => rfl
  | cons row rows ih =>
    rw [List.flatten_cons, cellCount_append, h row List.mem_cons_self,
      ih fun r hr => h r (List.mem_cons_of_mem _ hr), List.length_cons, Nat.mul_succ, Nat.add_comm]

theorem count_le_cellCount {run : Run} {rs : List Run} (h : run ∈ rs) :
    run.count ≤ cellCount rs := by
  induction rs with
  | nil => cases h
  | cons other rs ih =>
    rw [cellCount_cons]
    cases List.mem_cons.mp h with
    | inl he => rw [he]; exact Nat.le_add_right _ _
    | inr hm => exact Nat.le_trans (ih hm) (Nat.le_add_left _ _)

theorem Tolerated.paints (h : Tolerated s) :
    BoardPaints (widthOf s * heightOf s) (widthOf s) 0 0 (boardRows s) := by
  refine ⟨h.widths, fun run hr => ?_, fun run hr => ?_, ?_, ?_⟩
  · obtain ⟨row, hrow, hrun⟩ := List.mem_flatten.mp hr
    exact h.known row hrow run hrun
  · obtain ⟨row, hrow, hrun⟩ := List.mem_flatten.mp hr
    have hle := count_le_cellCount hrun
    rw [h.widths row hrow] at hle
    exact Nat.le_trans hle h.width
  · rw [cellCount_flatten h.widths, h.rows, Nat.zero_add]
  · rw [h.oneSnake]
    decide

/-- What the loop over the rows reads, the first token being gone. -/
theorem rowsOf_rest : rowsOf (match strtok s with
    | none => []
    | some (_, rest) => rest) = boardRows s := by
  obtain ⟨hnil, hs⟩ | ⟨token, rest, -, hcons, hs, -⟩ := strtok_eq s
  · rw [hs, boardRows, hnil]
    rfl
  · rw [hs, boardRows, hcons]
    rfl

/-- `set_dimensions` of the whole string. -/
theorem setDimensions_eq :
    setDimensions old s =
      if INT_MAX < heightOf s ∨ INT_MAX < widthOf s then .error .signedOverflow
      else if headerOk s = true then
        .ok (.success, { old with width := widthOf s, height := heightOf s })
      else .ok (.errIncorrectDimensions, old) := by
  have hloop : setDimensionsLoop 0 0 true s =
      if INT_MAX < heightOf s ∨ INT_MAX < widthOf s then .error .signedOverflow
      else if headerOk s = true then .ok (some (heightOf s, widthOf s))
      else .ok none := setDimensionsLoop_eq (Nat.zero_le _) (Nat.zero_le _) true s
  rw [setDimensions, hloop]
  split
  · rfl
  · split <;> rfl

/-- The state in which the rows are read. -/
def started (block : Option (Nat → Cell)) (s : List Char) : Decoding where
  cells := mallocCells block (widthOf s * heightOf s)
  width := widthOf s
  height := heightOf s
  numSnakes := 0

theorem length_started (fresh : Nat → Cell) (s : List Char) :
    (started (some fresh) s).cells.length = widthOf s * heightOf s := by
  rw [started, mallocCells, List.length_map, List.length_range]

/-- `decompress_board_str` from the rows on. -/
theorem decompressBoardStr_eq (block : Option (Nat → Cell)) (old : Board)
    (hsmall : ¬ (INT_MAX < heightOf s ∨ INT_MAX < widthOf s)) (hheader : headerOk s = true) :
    ∃ rest, rowsOf rest = boardRows s ∧
      decompressBoardStr block old s =
        (boardLoop (rest.length + 1) rest 0 0 (started block s) >>= fun r =>
          .ok (r.1, r.2.toBoard)) := by
  refine ⟨match strtok s with
    | none => []
    | some (_, rest) => rest, rowsOf_rest, ?_⟩
  rw [decompressBoardStr, setDimensions_eq, if_neg hsmall, if_pos hheader]
  rfl

/-- A tolerated string is decoded to the cells of its runs. -/
theorem decompress_tolerated (h : Tolerated s) :
    decompressBoardStr (some fresh) old s =
      .ok (.success, ⟨cellsOf (boardRows s).flatten, widthOf s, heightOf s⟩) := by
  have hsmall : ¬ (INT_MAX < heightOf s ∨ INT_MAX < widthOf s) :=
    not_or.mpr ⟨Nat.not_lt.mpr h.height, Nat.not_lt.mpr h.width⟩
  obtain ⟨rest, hrows, heq⟩ := decompressBoardStr_eq (some fresh) old hsmall h.header
  have hpaints := h.paints
  rw [← hrows] at hpaints
  rw [heq, boardLoop_paints (Nat.lt_succ_self _) (length_started fresh s) hpaints, ok_bind, hrows]
  have hverdict : verdict (0 + (boardRows s).length)
      ((started (some fresh) s).painted 0 (boardRows s).flatten) = .success := by
    simp [verdict, h.rows, h.oneSnake, started]
  have hall : (started (some fresh) s).cells.length = (cellsOf (boardRows s).flatten).length := by
    rw [length_started, length_cellsOf, cellCount_flatten h.widths, h.rows]
  rw [hverdict, Decoding.painted, overwrite_all 0 hall.symm]
  rfl

theorem decompress_overflows (h : Overflows s) :
    decompressBoardStr (some fresh) old s = .error .signedOverflow := by
  by_cases hbig : INT_MAX < heightOf s ∨ INT_MAX < widthOf s
  · rw [decompressBoardStr, setDimensions_eq, if_pos hbig]
    rfl
  · obtain ⟨hheader, hover⟩ := h.resolve_left hbig
    obtain ⟨rest, hrows, heq⟩ := decompressBoardStr_eq (some fresh) old hbig hheader
    rw [← hrows] at hover
    rw [heq, boardLoop_overflows (Nat.lt_succ_self _) (length_started fresh s)
      (Nat.zero_le _) hover]
    rfl

/-! ## Where the decoder stops -/

/-- How far the rows of `s` come. -/
def progressOf (s : List Char) : Progress :=
  boardProgress (widthOf s) (widthOf s * heightOf s) (boardRows s)

/-- The cells that have been set when the decoder returns. -/
def setCells (s : List Char) : Cells := (progressOf s).cells

/-- The status of a string on which no `int` overflows. -/
def statusOf (s : List Char) : InitStatus :=
  if headerOk s = true then
    match (progressOf s).stop with
    | some st => st
    | none =>
      if (boardRows s).length ≠ heightOf s then .errIncorrectDimensions
      else if snakeCount (boardRows s).flatten ≠ 1 then .errWrongSnakeNum
      else .success
  else .errIncorrectDimensions

theorem progressOf_of_paints
    (h : BoardPaints (widthOf s * heightOf s) (widthOf s) 0 0 (boardRows s)) :
    progressOf s = ⟨cellsOf (boardRows s).flatten, none⟩ := by
  have hpaints := boardProgress_of_paints h
  rwa [Nat.sub_zero] at hpaints

/-- A tolerated string sets every cell. -/
theorem Tolerated.setCells_eq (h : Tolerated s) :
    setCells s = cellsOf (boardRows s).flatten := by
  rw [setCells, progressOf_of_paints h.paints]

theorem Tolerated.length_setCells (h : Tolerated s) :
    (setCells s).length = widthOf s * heightOf s := by
  rw [h.setCells_eq, length_cellsOf, cellCount_flatten h.widths, h.rows]

/-- An error in the header leaves everything unset. -/
theorem decompress_header (hover : ¬ Overflows s) (hheader : ¬ headerOk s = true) :
    decompressBoardStr block old s = .ok (.errIncorrectDimensions, old) := by
  rw [Overflows, not_or] at hover
  rw [decompressBoardStr, setDimensions_eq, if_neg hover.1, if_neg hheader]
  rfl

/-- The rows stop the decoder, or it comes to the end. -/
theorem boardLoop_eq (fresh : Nat → Cell) {rest : List Char} (hrows : rowsOf rest = boardRows s)
    (hover : ¬ Overflows s) (hheader : headerOk s = true) :
    ∃ k, boardLoop (rest.length + 1) rest 0 0 (started (some fresh) s) =
        .ok (statusOf s, (started (some fresh) s).wrote 0 (setCells s) k) ∧
      (Tolerated s ∨ (statusOf s).IsError) := by
  rw [Overflows, not_or] at hover
  obtain ⟨hsmall, hover⟩ := hover
  by_cases hpaints : BoardPaints (widthOf s * heightOf s) (widthOf s) 0 0 (boardRows s)
  · -- every run is painted, so the verdict decides
    have hrest := hpaints
    rw [← hrows] at hrest
    have hverdict : verdict (0 + (boardRows s).length)
        ((started (some fresh) s).painted 0 (boardRows s).flatten) = statusOf s := by
      rw [statusOf, if_pos hheader, progressOf_of_paints hpaints, verdict, Nat.zero_add,
        Decoding.painted_numSnakes]
      simp [started]
    have hcells : setCells s = cellsOf (boardRows s).flatten := by
      rw [setCells, progressOf_of_paints hpaints]
    refine ⟨(started (some fresh) s).numSnakes + snakeCount (boardRows s).flatten, ?_, ?_⟩
    · rw [boardLoop_paints (Nat.lt_succ_self _) (length_started fresh s) hrest, hrows, hverdict,
        hcells]
      rfl
    · rw [statusOf, if_pos hheader, progressOf_of_paints hpaints]
      by_cases hcount : (boardRows s).length ≠ heightOf s
      · exact .inr (by simp [hcount, InitStatus.IsError])
      · by_cases hsnakes : snakeCount (boardRows s).flatten ≠ 1
        · exact .inr (by simp [hcount, hsnakes, InitStatus.IsError])
        · left
          exact
            { header := hheader
              height := by omega
              width := by omega
              rows := not_not.mp hcount
              widths := hpaints.widths
              known := fun row hrow run hrun =>
                hpaints.paints.known run (List.mem_flatten.mpr ⟨row, hrow, hrun⟩)
              oneSnake := not_not.mp hsnakes }
  · have hover : ¬ BoardOverflows (widthOf s * heightOf s) (widthOf s) 0 0 (rowsOf rest) := by
      rw [hrows]
      exact fun h => hover ⟨hheader, h⟩
    rw [← hrows] at hpaints
    obtain ⟨st, k, hstop, herr, hloop⟩ := boardLoop_stops (r := 0) (Nat.lt_succ_self _)
      (length_started fresh s) (Nat.zero_le _) (Nat.zero_le _) hpaints hover
    have hprogress : boardProgress (started (some fresh) s).width
        ((started (some fresh) s).width * (started (some fresh) s).height - 0) (rowsOf rest) =
        progressOf s := by
      rw [hrows]
      rfl
    rw [hprogress] at hstop hloop
    have hstatus : statusOf s = st := by
      rw [statusOf, if_pos hheader, hstop]
    rw [hstatus]
    exact ⟨k, hloop, .inr herr⟩

/-- **What the decoder does** with a string whose header is in order, if
no `int` overflows: the dimensions are set, and as many cells as the rows
come to. -/
theorem decompress_eq (fresh : Nat → Cell) (old : Board) (hover : ¬ Overflows s)
    (hheader : headerOk s = true) :
    decompressBoardStr (some fresh) old s = .ok (statusOf s,
      ⟨overwrite 0 (started (some fresh) s).cells 0 (setCells s), widthOf s, heightOf s⟩) := by
  obtain ⟨rest, hrows, heq⟩ :=
    decompressBoardStr_eq (some fresh) old (fun h => hover (.inl h)) hheader
  obtain ⟨k, hloop, -⟩ := boardLoop_eq fresh hrows hover hheader
  rw [heq, hloop]
  rfl

theorem statusOf_isError (h : ¬ Tolerated s) (hover : ¬ Overflows s) : (statusOf s).IsError := by
  by_cases hheader : headerOk s = true
  · obtain ⟨rest, hrows, -⟩ := decompressBoardStr_eq (some fun _ => 0) ⟨[], 0, 0⟩
      (fun h => hover (.inl h)) hheader
    obtain ⟨k, -, hcases⟩ := boardLoop_eq (fun _ => 0) hrows hover hheader
    exact hcases.resolve_left h
  · rw [statusOf, if_neg hheader]
    exact .inl rfl

theorem decompress_refuses (h : ¬ Tolerated s) (hover : ¬ Overflows s) :
    Refused (decompressBoardStr (some fresh) old s) := by
  by_cases hheader : headerOk s = true
  · rw [decompress_eq fresh old hover hheader]
    exact refused_ok (statusOf_isError h hover)
  · rw [decompress_header hover hheader]
    exact refused_ok (.inl rfl)

/-! ## The documented format -/

/-- The kinds of cells a board string names. -/
inductive Tile where
  | plain
  | grass
  | wall
  | snake
  deriving DecidableEq, Repr

def Tile.letter : Tile → Char
  | .plain => 'E'
  | .grass => 'G'
  | .wall => 'W'
  | .snake => 'S'

def Tile.cell : Tile → Cell
  | .plain => PLAIN_CELL
  | .grass => FLAG_GRASS
  | .wall => FLAG_WALL
  | .snake => FLAG_SNAKE

/-- A run of tiles and its count, in decimal. -/
structure Piece where
  tile : Tile
  digits : List Char
  numeral : ∀ c ∈ digits, isDigit c = true
  positive : 1 ≤ decimal digits

namespace Piece

def run (p : Piece) : Run := ⟨p.tile.letter, p.digits⟩

def text (p : Piece) : List Char := p.tile.letter :: p.digits

def tiles (p : Piece) : List Tile := List.replicate (decimal p.digits) p.tile

end Piece

def rowText (row : List Piece) : List Char := row.flatMap Piece.text

def rowTiles (row : List Piece) : List Tile := row.flatMap Piece.tiles

/-- `B<h>x<w>|row|...|row`. -/
def boardText (heightDigits widthDigits : List Char) (rows : List (List Piece)) : List Char :=
  'B' :: heightDigits ++ 'x' :: widthDigits ++ rows.flatMap fun row => '|' :: rowText row

/-- `s` is a run-length encoding of the rows `grid`, with the dimensions
`h` and `w` in front. -/
structure Encodes (s : List Char) (h w : Nat) (grid : List (List Tile)) : Prop where
  text : ∃ heightDigits widthDigits rows, s = boardText heightDigits widthDigits rows ∧
    (∀ c ∈ heightDigits, isDigit c = true) ∧ decimal heightDigits = h ∧
    (∀ c ∈ widthDigits, isDigit c = true) ∧ decimal widthDigits = w ∧
    grid = rows.map rowTiles

/-- `h` rows of `w` tiles, one of them a snake. -/
structure IsBoard (h w : Nat) (grid : List (List Tile)) : Prop where
  height : grid.length = h
  width : ∀ row ∈ grid, row.length = w
  oneSnake : grid.flatten.count .snake = 1

/-- The strings the documentation of `decompress_board_str` describes. -/
def WellFormed (s : List Char) : Prop := ∃ h w grid, Encodes s h w grid ∧ IsBoard h w grid

/-! ### Cutting an encoding -/

theorem digit_ne_bar {c : Char} (h : isDigit c = true) : c ≠ '|' := by
  rintro rfl
  exact absurd h (by decide)

theorem digit_isHeaderChar {c : Char} (h : isDigit c = true) : isHeaderChar c = true := by
  rw [isHeaderChar, h, Bool.or_true]

theorem letter_ne_bar (t : Tile) : t.letter ≠ '|' := by
  cases t <;> decide

theorem letter_not_digit (t : Tile) : isDigit t.letter = false := by
  cases t <;> decide

theorem rowText_cons (p : Piece) (row : List Piece) :
    rowText (p :: row) = p.tile.letter :: (p.digits ++ rowText row) := rfl

theorem rowText_ne_bar (row : List Piece) : ∀ c ∈ rowText row, c ≠ '|' := by
  intro c hc
  obtain ⟨p, -, hp⟩ := List.mem_flatMap.mp hc
  cases List.mem_cons.mp hp with
  | inl hletter => exact hletter ▸ letter_ne_bar p.tile
  | inr hdigit => exact digit_ne_bar (p.numeral c hdigit)

/-- A row is cut where it was put together. -/
theorem runs_rowText (row : List Piece) : runs (rowText row) = row.map Piece.run := by
  induction row with
  | nil => rfl
  | cons p row ih =>
    have hnext : ∀ c, (rowText row).head? = some c → isDigit c = false := by
      intro c hc
      cases row with
      | nil => cases hc
      | cons q row =>
        rw [rowText_cons] at hc
        cases hc
        exact letter_not_digit q.tile
    rw [rowText_cons, runs_cons, takeWhile_stops p.numeral hnext, dropWhile_stops p.numeral hnext,
      ih]
    rfl

theorem segments_rows {a : List Char} (ha : ∀ c ∈ a, c ≠ '|') (rows : List (List Piece)) :
    segments (a ++ rows.flatMap fun row => '|' :: rowText row) = a :: rows.map rowText := by
  induction rows generalizing a with
  | nil => rw [List.flatMap_nil, List.append_nil, segments_last ha, List.map_nil]
  | cons row rows ih =>
    rw [List.flatMap_cons, List.cons_append, segments_bar ha, ih (rowText_ne_bar row),
      List.map_cons]

section

variable {hd wd : List Char} (rows : List (List Piece))

/-- The text in front of the rows. -/
theorem boardText_eq : boardText hd wd rows =
    ('B' :: hd ++ 'x' :: wd) ++ rows.flatMap fun row => '|' :: rowText row := rfl

theorem headerText_isHeaderChar (hhd : ∀ c ∈ hd, isDigit c = true)
    (hwd : ∀ c ∈ wd, isDigit c = true) :
    ∀ c ∈ 'B' :: hd ++ 'x' :: wd, isHeaderChar c = true := by
  intro c hc
  rcases List.mem_append.mp hc with hfirst | hsecond
  · cases List.mem_cons.mp hfirst with
    | inl hB => exact hB ▸ by decide
    | inr hdigit => exact digit_isHeaderChar (hhd c hdigit)
  · cases List.mem_cons.mp hsecond with
    | inl hx => exact hx ▸ by decide
    | inr hdigit => exact digit_isHeaderChar (hwd c hdigit)

theorem headerChar_ne_bar {c : Char} (h : isHeaderChar c = true) : c ≠ '|' := by
  rintro rfl
  exact absurd h (by decide)

theorem boardRows_boardText (hhd : ∀ c ∈ hd, isDigit c = true)
    (hwd : ∀ c ∈ wd, isDigit c = true) (hrows : ∀ row ∈ rows, row ≠ []) :
    boardRows (boardText hd wd rows) = rows.map fun row => row.map Piece.run := by
  have hbar : ∀ c ∈ 'B' :: hd ++ 'x' :: wd, c ≠ '|' := fun c hc =>
    headerChar_ne_bar (headerText_isHeaderChar hhd hwd c hc)
  have hnonempty : (rows.map rowText).filter (· ≠ []) = rows.map rowText := by
    refine List.filter_eq_self.mpr fun text htext => ?_
    obtain ⟨row, hrow, rfl⟩ := List.mem_map.mp htext
    cases row with
    | nil => exact absurd rfl (hrows [] hrow)
    | cons p row => rfl
  rw [boardRows, tokens, boardText_eq, segments_rows hbar, List.filter_cons_of_pos (by simp),
    List.tail_cons, hnonempty, List.map_map]
  exact List.map_congr_left fun row _ => runs_rowText row

theorem header_boardText (hhd : ∀ c ∈ hd, isDigit c = true) (hwd : ∀ c ∈ wd, isDigit c = true) :
    header (boardText hd wd rows) = 'B' :: hd ++ 'x' :: wd := by
  rw [header, boardText_eq]
  refine takeWhile_stops (fun c hc => ?_) fun c hc => ?_
  · exact decide_eq_true (headerChar_ne_bar (headerText_isHeaderChar hhd hwd c hc))
  · cases rows with
    | nil => cases hc
    | cons row rows =>
      cases hc
      rfl

theorem readable_boardText (hhd : ∀ c ∈ hd, isDigit c = true)
    (hwd : ∀ c ∈ wd, isDigit c = true) :
    readable (boardText hd wd rows) = 'B' :: hd ++ 'x' :: wd := by
  have htake := takeWhile_stops (b := []) (headerText_isHeaderChar hhd hwd) (by simp)
  rw [readable, header_boardText rows hhd hwd]
  rwa [List.append_nil] at htake

theorem headerOk_boardText (hhd : ∀ c ∈ hd, isDigit c = true) (hwd : ∀ c ∈ wd, isDigit c = true)
    (hrows : rows ≠ []) : headerOk (boardText hd wd rows) = true := by
  obtain ⟨row, more, rfl⟩ := List.exists_cons_of_ne_nil hrows
  rw [headerOk, header_boardText _ hhd hwd, List.all_eq_true.mpr (headerText_isHeaderChar hhd hwd)]
  simp [boardText]

/-- The digits of a header, on either side of its `x`. -/
theorem dimensions_boardText (hhd : ∀ c ∈ hd, isDigit c = true)
    (hwd : ∀ c ∈ wd, isDigit c = true) :
    heightOf (boardText hd wd rows) = decimal hd ∧
      widthOf (boardText hd wd rows) = decimal wd := by
  have hfront : ∀ c ∈ 'B' :: hd, decide (c ≠ 'x') = true := by
    refine List.forall_mem_cons.mpr ⟨by decide, fun c hc => decide_eq_true ?_⟩
    rintro rfl
    exact absurd (hhd _ hc) (by decide)
  have hdigits : ∀ {ds : List Char}, (∀ c ∈ ds, isDigit c = true) → ds.filter isDigit = ds :=
    fun h => List.filter_eq_self.mpr h
  have hB : isDigit 'B' = false := by decide
  have hx : isDigit 'x' = false := by decide
  rw [heightOf, widthOf, readable_boardText rows hhd hwd]
  constructor
  · rw [rowDigits, if_pos rfl, takeWhile_stops hfront (by simp),
      List.filter_cons_of_neg (by simp [hB]),
      hdigits hhd]
  · rw [colDigits, if_pos rfl, dropWhile_stops hfront (by simp),
      List.filter_cons_of_neg (by simp [hx]),
      hdigits hwd]

end

/-! ### The cells of an encoding -/

theorem rowTiles_cons (p : Piece) (row : List Piece) :
    rowTiles (p :: row) = p.tiles ++ rowTiles row := rfl

theorem cellsOf_append (rs more : List Run) : cellsOf (rs ++ more) = cellsOf rs ++ cellsOf more :=
  List.flatMap_append

theorem letter_cell (t : Tile) : cellOf t.letter = some t.cell := by
  cases t <;> rfl

theorem count_run (p : Piece) : p.run.count = p.tiles.length := by
  rw [Piece.tiles, List.length_replicate]
  rfl

theorem cells_run (p : Piece) : p.run.cells = p.tiles.map Tile.cell := by
  rw [Run.cells, show p.run.flag = p.tile.letter from rfl, letter_cell, Piece.tiles,
    List.map_replicate]
  rfl

theorem snakes_run (p : Piece) : p.run.snakes = p.tiles.count .snake := by
  rw [Run.snakes, snakesOf, Piece.tiles, List.count_replicate,
    show p.run.flag = p.tile.letter from rfl]
  cases p.tile <;> rfl

theorem cellCount_row (row : List Piece) :
    cellCount (row.map Piece.run) = (rowTiles row).length := by
  induction row with
  | nil => rfl
  | cons p row ih =>
    rw [List.map_cons, cellCount_cons, ih, count_run, rowTiles_cons, List.length_append]

theorem cellsOf_row (row : List Piece) :
    cellsOf (row.map Piece.run) = (rowTiles row).map Tile.cell := by
  induction row with
  | nil => rfl
  | cons p row ih =>
    rw [List.map_cons, ← List.singleton_append, cellsOf_append, ih, cellsOf_singleton, cells_run,
      rowTiles_cons, List.map_append]

theorem snakeCount_row (row : List Piece) :
    snakeCount (row.map Piece.run) = (rowTiles row).count .snake := by
  induction row with
  | nil => rfl
  | cons p row ih =>
    rw [List.map_cons, snakeCount_cons, ih, snakes_run, rowTiles_cons, List.count_append]

section

variable {rows : List (List Piece)}

theorem cellsOf_rows : cellsOf (rows.map fun row => row.map Piece.run).flatten =
    (rows.map rowTiles).flatten.map Tile.cell := by
  induction rows with
  | nil => rfl
  | cons row rows ih =>
    rw [List.map_cons, List.flatten_cons, List.map_cons, List.flatten_cons, List.map_append, ← ih,
      ← cellsOf_row, cellsOf_append]

theorem snakeCount_rows : snakeCount (rows.map fun row => row.map Piece.run).flatten =
    (rows.map rowTiles).flatten.count .snake := by
  induction rows with
  | nil => rfl
  | cons row rows ih =>
    rw [List.map_cons, List.flatten_cons, List.map_cons, List.flatten_cons, List.count_append,
      ← ih, ← snakeCount_row, snakeCount_append]

end

/-- A run of an encoding names a tile. -/
theorem known_run (p : Piece) : p.run.Known := by
  refine .inr ?_
  rw [show p.run.flag = p.tile.letter from rfl, letter_cell]
  rfl

/-- A board has a cell: that of the snake. -/
theorem IsBoard.positive {h w : Nat} {grid : List (List Tile)} (hgrid : IsBoard h w grid) :
    0 < w ∧ 0 < h := by
  have hsnake : Tile.snake ∈ grid.flatten := by
    rw [← List.count_pos_iff, hgrid.oneSnake]
    exact Nat.one_pos
  obtain ⟨row, hrow, hmem⟩ := List.mem_flatten.mp hsnake
  have hwidth := List.length_pos_of_mem hmem
  have hheight := List.length_pos_of_mem hrow
  rw [hgrid.width row hrow] at hwidth
  rw [hgrid.height] at hheight
  exact ⟨hwidth, hheight⟩

/-- An encoding of a board is tolerated, and says what the board is. -/
theorem tolerated_of_encodes {h w : Nat} {grid : List (List Tile)} (hs : Encodes s h w grid)
    (hgrid : IsBoard h w grid) (hint : w * h ≤ INT_MAX) :
    Tolerated s ∧ widthOf s = w ∧ heightOf s = h ∧
      cellsOf (boardRows s).flatten = grid.flatten.map Tile.cell := by
  obtain ⟨hwidth, hheight⟩ := hgrid.positive
  obtain ⟨hd, wd, rows, rfl, hhd, hh, hwd, hw, rfl⟩ := hs.text
  obtain ⟨hlength, hwidths, hsnake⟩ := hgrid
  rw [List.length_map] at hlength
  have hwidths : ∀ row ∈ rows, (rowTiles row).length = w := fun row hrow =>
    hwidths _ (List.mem_map_of_mem hrow)
  have hnonempty : ∀ row ∈ rows, row ≠ [] := by
    rintro row hrow rfl
    have := hwidths [] hrow
    rw [rowTiles, List.flatMap_nil, List.length_nil] at this
    omega
  have hsome : rows ≠ [] := by
    rintro rfl
    rw [List.length_nil] at hlength
    omega
  obtain ⟨hheightOf, hwidthOf⟩ := dimensions_boardText rows hhd hwd
  rw [hh] at hheightOf
  rw [hw] at hwidthOf
  rw [hheightOf, hwidthOf, boardRows_boardText rows hhd hwd hnonempty, cellsOf_rows]
  refine ⟨?_, rfl, rfl, rfl⟩
  exact
    { header := headerOk_boardText rows hhd hwd hsome
      height := by
        rw [hheightOf]
        exact Nat.le_trans (Nat.le_mul_of_pos_left h hwidth) hint
      width := by
        rw [hwidthOf]
        exact Nat.le_trans (Nat.le_mul_of_pos_right w hheight) hint
      rows := by rw [boardRows_boardText rows hhd hwd hnonempty, List.length_map,
        hheightOf, hlength]
      widths := by
        rw [boardRows_boardText rows hhd hwd hnonempty, hwidthOf]
        intro row hrow
        obtain ⟨pieces, hpieces, rfl⟩ := List.mem_map.mp hrow
        rw [cellCount_row, hwidths pieces hpieces]
      known := by
        rw [boardRows_boardText rows hhd hwd hnonempty]
        intro row hrow run hrun
        obtain ⟨pieces, -, rfl⟩ := List.mem_map.mp hrow
        obtain ⟨p, -, rfl⟩ := List.mem_map.mp hrun
        exact known_run p
      oneSnake := by rw [boardRows_boardText rows hhd hwd hnonempty, snakeCount_rows, hsnake] }

/-- Every run-length encoding of a board, however its runs are cut, is
decoded to the dimensions and the cells of the board. -/
theorem decompress_encoding {h w : Nat} {grid : List (List Tile)} (fresh : Nat → Cell)
    (old : Board) (hs : Encodes s h w grid) (hgrid : IsBoard h w grid)
    (hint : w * h ≤ INT_MAX) :
    decompressBoardStr (some fresh) old s = .ok (.success, ⟨grid.flatten.map Tile.cell, w, h⟩) := by
  obtain ⟨htolerated, hw, hh, hcells⟩ := tolerated_of_encodes hs hgrid hint
  rw [decompress_tolerated htolerated, hw, hh, hcells]

/-- The encoding `B1x3|S1E2`. -/
theorem decompress_encoding_small :
    decompressBoardStr (some fun _ => 7) ⟨[], 0, 0⟩ ['B', '1', 'x', '3', '|', 'S', '1', 'E', '2'] =
      .ok (.success, ⟨[FLAG_SNAKE, PLAIN_CELL, PLAIN_CELL], 3, 1⟩) := by
  have hdigit : ∀ s : List Char, s.all isDigit = true → ∀ c ∈ s, isDigit c = true :=
    fun _ => List.all_eq_true.mp
  have hs : Encodes ['B', '1', 'x', '3', '|', 'S', '1', 'E', '2'] 1 3
      [[.snake, .plain, .plain]] :=
    ⟨['1'], ['3'],
      [[⟨.snake, ['1'], hdigit _ (by decide), by decide⟩,
      ⟨.plain, ['2'], hdigit _ (by decide), by decide⟩]],
      rfl, hdigit _ (by decide), rfl, hdigit _ (by decide), rfl, rfl⟩
  have hgrid : IsBoard 1 3 [[.snake, .plain, .plain]] := ⟨rfl, by decide, by decide⟩
  exact decompress_encoding _ _ hs hgrid (by decide)

/-! ## Behind a null pointer -/

/-- `malloc` grants the array, or no cell is set before the decoder stops. -/
def Stored (block : Option (Nat → Cell)) (s : List Char) : Prop :=
  headerOk s = true → block = none → setCells s = []

theorem Tolerated.setCells_ne_nil (h : Tolerated s) : setCells s ≠ [] := by
  intro hnil
  have hzero : cellCount (boardRows s).flatten = 0 := by
    rw [← length_cellsOf, ← h.setCells_eq, hnil]
    rfl
  have hnone := (rowPaints_of_empty hzero (Nat.le_refl 0) (Nat.zero_le _)).2
  rw [h.oneSnake] at hnone
  cases hnone

theorem null_faults (h : Overflows s ∨ headerOk s = true ∧ setCells s ≠ []) :
    Faults (decompressBoardStr none old s) := by
  by_cases hbig : INT_MAX < heightOf s ∨ INT_MAX < widthOf s
  · rw [decompressBoardStr, setDimensions_eq, if_pos hbig]
    exact .inl rfl
  · have hheader : headerOk s = true := h.elim (fun h => (h.resolve_left hbig).1) And.left
    obtain ⟨rest, hrows, heq⟩ := decompressBoardStr_eq none old hbig hheader
    have hloop := (boardLoop_null (s := rest) (r := 0) (k := 0) (d := started none s)
      (Nat.lt_succ_self _) rfl (Nat.zero_le _) (Nat.zero_le _)).1
    rw [hrows] at hloop
    rw [heq]
    exact (hloop (h.imp (fun h => (h.resolve_left hbig).2) And.right)).bind _

/-- Where no cell is set, the decoder ends in an error, there being no
snake. -/
theorem decompress_null (hover : ¬ Overflows s) (hheader : headerOk s = true)
    (hnil : setCells s = []) (old : Board) :
    ∃ st : InitStatus, st.IsError ∧
      decompressBoardStr none old s = .ok (st, ⟨[], widthOf s, heightOf s⟩) := by
  obtain ⟨rest, hrows, heq⟩ := decompressBoardStr_eq none old (fun h => hover (.inl h)) hheader
  have hloop := (boardLoop_null (s := rest) (r := 0) (k := 0) (d := started none s)
    (Nat.lt_succ_self _) rfl (Nat.zero_le _) (Nat.zero_le _)).2
  rw [hrows] at hloop
  have hloop : boardLoop (rest.length + 1) rest 0 0 (started none s) =
      .ok ((progressOf s).stop.getD (verdict (0 + (boardRows s).length) (started none s)),
        started none s) := hloop (fun h => hover (.inr ⟨hheader, h⟩)) hnil
  refine ⟨(progressOf s).stop.getD (verdict (0 + (boardRows s).length) (started none s)), ?_, ?_⟩
  · cases hstop : (progressOf s).stop with
    | some st =>
      have herr := statusOf_isError (fun h => h.setCells_ne_nil hnil) hover
      rwa [statusOf, if_pos hheader, hstop] at herr
    | none =>
      rw [Option.getD_none, verdict]
      split
      · exact .inl rfl
      · exact .inr (.inl rfl)
  · rw [heq, hloop]
    rfl

/-! ## What is rejected -/

/-- The three ways `decompress_board_str` ends if `malloc` grants the
array. No other fault occurs: no write misses the array, and no loop runs
out of its bound. -/
theorem decompress_cases (fresh : Nat → Cell) (old : Board) (s : List Char) :
    (Tolerated s ∧ ∃ b, decompressBoardStr (some fresh) old s = .ok (.success, b)) ∨
      (Overflows s ∧ decompressBoardStr (some fresh) old s = .error .signedOverflow) ∨
      (¬ Tolerated s ∧ ¬ Overflows s ∧ Refused (decompressBoardStr (some fresh) old s)) := by
  by_cases htolerated : Tolerated s
  · exact .inl ⟨htolerated, _, decompress_tolerated htolerated⟩
  · by_cases hover : Overflows s
    · exact .inr (.inl ⟨hover, decompress_overflows hover⟩)
    · exact .inr (.inr ⟨htolerated, hover, decompress_refuses htolerated hover⟩)

/-- The two ways it ends if `malloc` does not. -/
theorem null_cases (old : Board) (s : List Char) :
    ((Overflows s ∨ ¬ Stored none s) ∧ Faults (decompressBoardStr none old s)) ∨
      (¬ Overflows s ∧ Stored none s ∧ Refused (decompressBoardStr none old s)) := by
  by_cases hover : Overflows s
  · exact .inl ⟨.inl hover, null_faults (.inl hover)⟩
  · by_cases hheader : headerOk s = true
    · by_cases hnil : setCells s = []
      · obtain ⟨st, herr, hdec⟩ := decompress_null hover hheader hnil old
        rw [hdec]
        exact .inr ⟨hover, fun _ _ => hnil, refused_ok herr⟩
      · exact .inl ⟨.inr fun h => hnil (h hheader rfl), null_faults (.inr ⟨hheader, hnil⟩)⟩
    · rw [decompress_header hover hheader]
      exact .inr ⟨hover, fun h => absurd h hheader, refused_ok (.inl rfl)⟩

theorem Faults.not_refused {α : Type} {r : Except Fault (InitStatus × α)} (h : Faults r) :
    ¬ Refused r := by
  rintro ⟨st, a, hrun, -⟩
  exact h.ne_ok _ hrun

theorem refused_iff (block : Option (Nat → Cell)) (old : Board) (s : List Char) :
    Refused (decompressBoardStr block old s) ↔ ¬ Tolerated s ∧ ¬ Overflows s ∧ Stored block s := by
  cases block with
  | none =>
    rcases null_cases old s with ⟨hwhy, hfault⟩ | ⟨hover, hstored, hrefused⟩
    · refine ⟨fun h => absurd h hfault.not_refused, fun ⟨_, hover, hstored⟩ => ?_⟩
      exact absurd hwhy (not_or.mpr ⟨hover, not_not_intro hstored⟩)
    · refine ⟨fun _ => ⟨fun h => ?_, hover, hstored⟩, fun _ => hrefused⟩
      exact h.setCells_ne_nil (hstored h.header rfl)
  | some fresh =>
    have hstored : Stored (some fresh) s := fun _ hnull => by cases hnull
    rcases decompress_cases fresh old s with ⟨ht, b, hok⟩ | ⟨ho, hfault⟩ | ⟨ht, ho, hrefused⟩
    · refine ⟨?_, fun h => absurd ht h.1⟩
      rintro ⟨st, b', hrun, herr⟩
      rw [hok] at hrun
      cases hrun
      exact absurd rfl herr.ne_success
    · exact ⟨fun h => absurd h (Faults.not_refused (.inl hfault)), fun h => absurd ho h.2.1⟩
    · exact ⟨fun _ => ⟨ht, ho, hstored⟩, fun _ => hrefused⟩

/-- A string that is not of the documented form is rejected exactly if it
is not tolerated either, no `int` overflows before the first error, and
no cell is set through a null pointer. -/
theorem strict_iff (block : Option (Nat → Cell)) (old : Board) (s : List Char) :
    (¬ WellFormed s → Refused (decompressBoardStr block old s)) ↔
      (WellFormed s ∨ ¬ Tolerated s ∧ ¬ Overflows s ∧ Stored block s) := by
  rw [refused_iff]
  constructor
  · intro h
    by_cases hs : WellFormed s
    · exact .inl hs
    · exact .inr (h hs)
  · exact fun h hs => h.resolve_left hs

-- an array that `malloc` cannot grant
example : decompressBoardStr none ⟨[], 0, 0⟩ "B2147483647x2147483647|E1S1".toList =
    .error .outOfBounds := by decide +kernel

/-- The characters a string of the documented form can have. -/
theorem WellFormed.mem_chars (hs : WellFormed s) {c : Char} (hc : c ∈ s) :
    isHeaderChar c = true ∨ c = '|' ∨ ∃ t : Tile, c = t.letter := by
  obtain ⟨h, w, grid, ⟨hd, wd, rows, rfl, hhd, -, hwd, -⟩, -⟩ := hs
  rw [boardText_eq] at hc
  rcases List.mem_append.mp hc with hheader | hrows
  · exact .inl (headerText_isHeaderChar hhd hwd c hheader)
  · obtain ⟨row, -, hrow⟩ := List.mem_flatMap.mp hrows
    rcases List.mem_cons.mp hrow with hbar | hrow
    · exact .inr (.inl hbar)
    · obtain ⟨p, -, hp⟩ := List.mem_flatMap.mp hrow
      rcases List.mem_cons.mp hp with hletter | hdigit
      · exact .inr (.inr ⟨p.tile, hletter⟩)
      · exact .inl (digit_isHeaderChar (p.numeral c hdigit))

/-- A letter that is no tile, without a count: `B1x1|ZS1` is taken for a
board. -/
theorem stray_letter_accepted :
    ¬ WellFormed ['B', '1', 'x', '1', '|', 'Z', 'S', '1'] ∧
      decompressBoardStr (some fun _ => 0) ⟨[], 0, 0⟩ ['B', '1', 'x', '1', '|', 'Z', 'S', '1'] =
        .ok (.success, ⟨[FLAG_SNAKE], 1, 1⟩) := by
  refine ⟨fun hs => ?_, by decide⟩
  have hZ : 'Z' ∈ ['B', '1', 'x', '1', '|', 'Z', 'S', '1'] := by decide
  rcases hs.mem_chars hZ with hheader | hbar | ⟨t, ht⟩
  · exact absurd hheader (by decide)
  · exact absurd hbar (by decide)
  · cases t <;> exact absurd ht (by decide)

end SystemsProjects.Snake.Setup
