/-
SystemsProjects.Snake.BoardDecoding — which strings
`decompress_board_str` decodes, and to what.

Each of its three loops ends in one of three ways: it goes through
(`Paints`, `RowPaints`, `BoardPaints`), it meets an `int` that overflows
(`RunOverflows` and so on), or it returns an error. The first two are
defined on the runs of the text; one lemma for each loop and each way
says that the loop ends so, and that no way is left out. How far a loop
comes before an error is its `Progress`: the cells it has set and the
status it stops with, again computed from the runs. Without an array, as
behind a null pointer, a loop goes on until it would set its first cell
(`boardLoop_null`).
-/
import SystemsProjects.Snake.BoardFormat
import SystemsProjects.Base.FileBytes
import Mathlib.Algebra.Order.Ring.Nat

namespace SystemsProjects.Snake.Setup

open SystemsProjects.Base

/-! ## Cells -/

/-- The cell a letter stands for. -/
def cellOf : Char → Option Cell
  | 'S' => some FLAG_SNAKE
  | 'E' => some PLAIN_CELL
  | 'G' => some FLAG_GRASS
  | 'W' => some FLAG_WALL
  | _ => none

/-- The cells of a run. -/
def Run.cells (run : Run) : Cells := List.replicate run.count ((cellOf run.flag).getD PLAIN_CELL)

/-- The snake cells of a run of `n`. -/
def snakesOf (flag : Char) (n : Nat) : Nat := if flag = 'S' then n else 0

def Run.snakes (run : Run) : Nat := snakesOf run.flag run.count

/-- The letter is one of the four, or the run is empty. -/
def Run.Known (run : Run) : Prop := run.count = 0 ∨ (cellOf run.flag).isSome = true

@[simp] theorem Run.length_cells (run : Run) : run.cells.length = run.count :=
  List.length_replicate ..

/-- A status that reports a defect of the string. -/
def InitStatus.IsError (st : InitStatus) : Prop :=
  st = .errIncorrectDimensions ∨ st = .errWrongSnakeNum ∨ st = .errBadChar

theorem InitStatus.IsError.ne_success {st : InitStatus} (h : st.IsError) : st ≠ .success := by
  rcases h with rfl | rfl | rfl <;> decide

/-- Ends with an error status. -/
def Refused {α : Type} (r : Except Fault (InitStatus × α)) : Prop :=
  ∃ st a, r = .ok (st, a) ∧ st.IsError

theorem refused_ok {α : Type} {st : InitStatus} {a : α} (h : st.IsError) :
    Refused (.ok (st, a)) := ⟨st, a, rfl, h⟩

/-- The cells a loop has set, and the status it stops with, if it does. -/
structure Progress where
  cells : Cells
  stop : Option InitStatus
  deriving DecidableEq, Repr

/-- `q` comes after `p`, unless `p` has stopped. -/
def Progress.andThen (p q : Progress) : Progress :=
  match p.stop with
  | none => ⟨p.cells ++ q.cells, q.stop⟩
  | some _ => p

theorem Progress.andThen_of_none {p : Progress} (h : p.stop = none) (q : Progress) :
    p.andThen q = ⟨p.cells ++ q.cells, q.stop⟩ := by
  rw [andThen, h]

theorem Progress.andThen_of_some {p : Progress} {st : InitStatus} (h : p.stop = some st)
    (q : Progress) : p.andThen q = p := by
  rw [andThen, h]

/-- What `fill_cells` sets where the board has `room` left. -/
def fillProgress (flag : Char) : Nat → Nat → Progress
  | _, 0 => ⟨[], none⟩
  | 0, _ + 1 => ⟨[], some .errIncorrectDimensions⟩
  | room + 1, n + 1 =>
    match cellOf flag with
    | none => ⟨[], some .errBadChar⟩
    | some v => ⟨v :: (fillProgress flag room n).cells, (fillProgress flag room n).stop⟩

def Run.progress (room : Nat) (run : Run) : Progress := fillProgress run.flag room run.count

theorem set_eq_overwrite {cells : Cells} {j : Nat} (h : j < cells.length) (v : Cell) :
    cells.set j v = overwrite 0 cells j [v] := by
  rw [overwrite, if_neg (List.cons_ne_nil _ _), Nat.sub_eq_zero_of_le (Nat.le_of_lt h),
    List.replicate_zero, List.append_nil, List.set_eq_take_append_cons_drop, if_pos h]
  simp

/-- `d` with `cells` written from `j` on, and `k` snake cells counted. -/
def Decoding.wrote (d : Decoding) (j : Nat) (cells : Cells) (k : Nat) : Decoding :=
  { d with cells := overwrite 0 d.cells j cells, numSnakes := k }

theorem Decoding.wrote_nil (d : Decoding) (j : Nat) : d.wrote j [] d.numSnakes = d := by
  rw [wrote, overwrite_nil]

theorem Decoding.wrote_append (d : Decoding) (j k k' : Nat) (a b : Cells) :
    (d.wrote j a k).wrote (j + a.length) b k' = d.wrote j (a ++ b) k' := by
  simp only [wrote, overwrite_append]

/-! ## One run -/

section Run

variable {flag : Char} {v : Cell} {j n : Nat} {d : Decoding}

/-- A step of `fill_cells` inside the board. -/
theorem fillCells_succ (hv : cellOf flag = some v) (hj : j < d.width * d.height)
    (hlen : d.cells.length = d.width * d.height) :
    fillCells flag j (n + 1) d =
      if INT_MAX < d.numSnakes + snakesOf flag 1 ∧ flag = 'S' then .error .signedOverflow
      else fillCells flag (j + 1) n
        { d with cells := d.cells.set j v, numSnakes := d.numSnakes + snakesOf flag 1 } := by
  have hwrite : ∀ v, writeCell d.cells j v = .ok (d.cells.set j v) := fun v =>
    if_pos (by rw [hlen]; exact hj)
  conv_lhs => unfold fillCells
  rw [if_neg (Nat.not_le.mpr hj)]
  unfold cellOf at hv
  split at hv
  · cases hv
    simp only [hwrite, ok_bind, snakesOf, if_true, and_true]
    rcases Nat.lt_or_ge INT_MAX (d.numSnakes + 1) with hlt | hle
    · rw [toInt_of_lt hlt, error_bind, if_pos hlt]
    · rw [toInt_of_le hle, ok_bind, if_neg (Nat.not_lt.mpr hle)]
  · cases hv
    simp only [hwrite, ok_bind, snakesOf]
    simp
  · cases hv
    simp only [hwrite, ok_bind, snakesOf]
    simp
  · cases hv
    simp only [hwrite, ok_bind, snakesOf]
    simp
  · cases hv

/-- A run of known cells that fits is painted. -/
theorem fillCells_paints (hv : n = 0 ∨ cellOf flag = some v)
    (hlen : d.cells.length = d.width * d.height) (hfit : j + n ≤ d.width * d.height)
    (hfew : d.numSnakes + snakesOf flag n ≤ INT_MAX) :
    fillCells flag j n d = .ok (.success,
      { d with cells := overwrite 0 d.cells j (List.replicate n v),
               numSnakes := d.numSnakes + snakesOf flag n }) := by
  induction n generalizing j d with
  | zero =>
    have hnone : d.numSnakes + snakesOf flag 0 = d.numSnakes := by simp [snakesOf]
    rw [fillCells, hnone]
    rfl
  | succ n ih =>
    have hv := hv.resolve_left (Nat.succ_ne_zero n)
    have hsplit : snakesOf flag (n + 1) = snakesOf flag 1 + snakesOf flag n := by
      unfold snakesOf
      split <;> omega
    have hj : j < d.cells.length := by omega
    rw [fillCells_succ hv (by omega) hlen, if_neg (by omega), ih (.inr hv)]
    · have happend := overwrite_append 0 d.cells j [v] (List.replicate n v)
      rw [List.length_singleton, List.singleton_append, ← List.replicate_succ] at happend
      rw [set_eq_overwrite hj, happend, hsplit, Nat.add_assoc]
    · rw [List.length_set, hlen]
    · dsimp only
      omega
    · dsimp only
      omega

/-- The board has room for more snake cells than an `int` counts, and the
run has them. -/
def RunOverflows (total j k : Nat) (flag : Char) (n : Nat) : Prop :=
  flag = 'S' ∧ INT_MAX < k + min n (total - j)

theorem fillCells_overflows (hlen : d.cells.length = d.width * d.height)
    (hk : d.numSnakes ≤ INT_MAX) (h : RunOverflows (d.width * d.height) j d.numSnakes flag n) :
    fillCells flag j n d = .error .signedOverflow := by
  obtain ⟨rfl, hover⟩ := h
  induction n generalizing j d with
  | zero => omega
  | succ n ih =>
    have hv : cellOf 'S' = some FLAG_SNAKE := rfl
    rw [fillCells_succ hv (by omega) hlen]
    split
    · rfl
    · rename_i hnot
      have hone : snakesOf 'S' 1 = 1 := rfl
      rw [hone] at hnot ⊢
      have hnot : ¬ INT_MAX < d.numSnakes + 1 := fun h => hnot ⟨h, rfl⟩
      refine ih ?_ ?_ ?_
      · rw [List.length_set, hlen]
      · dsimp only
        omega
      · dsimp only
        omega

theorem fillProgress_of_paints {room : Nat} (hv : n = 0 ∨ cellOf flag = some v) (hn : n ≤ room) :
    fillProgress flag room n = ⟨List.replicate n v, none⟩ := by
  induction n generalizing room with
  | zero => rw [fillProgress, List.replicate_zero]
  | succ n ih =>
    have hv := hv.resolve_left (Nat.succ_ne_zero n)
    cases room with
    | zero => omega
    | succ room =>
      have hrest := ih (.inr hv) (Nat.le_of_succ_le_succ hn)
      simp only [fillProgress, hv, hrest, List.replicate_succ]

/-- What is neither painted nor overflows stops. -/
theorem fillCells_stops (hlen : d.cells.length = d.width * d.height)
    (hfit : ¬ ((n = 0 ∨ (cellOf flag).isSome = true) ∧ j + n ≤ d.width * d.height))
    (hj : j ≤ d.width * d.height)
    (hover : ¬ RunOverflows (d.width * d.height) j d.numSnakes flag n) :
    ∃ st k, (fillProgress flag (d.width * d.height - j) n).stop = some st ∧ st.IsError ∧
      fillCells flag j n d =
        .ok (st, d.wrote j (fillProgress flag (d.width * d.height - j) n).cells k) := by
  induction n generalizing j d with
  | zero => exact absurd ⟨.inl rfl, by omega⟩ hfit
  | succ n ih =>
    rcases Nat.lt_or_ge j (d.width * d.height) with hlt | hge
    · obtain ⟨room, hroom⟩ : ∃ room, d.width * d.height - j = room + 1 :=
        ⟨d.width * d.height - j - 1, by omega⟩
      rw [hroom, fillProgress]
      cases hv : cellOf flag with
      | none =>
        refine ⟨.errBadChar, d.numSnakes, rfl, .inr (.inr rfl), ?_⟩
        unfold fillCells
        rw [if_neg (Nat.not_le.mpr hlt), Decoding.wrote_nil]
        split
        · cases hv
        · cases hv
        · cases hv
        · cases hv
        · rfl
      | some v =>
        have hfit' : ¬ j + (n + 1) ≤ d.width * d.height := by
          rw [hv] at hfit
          exact fun h => hfit ⟨.inr rfl, h⟩
        have hone : snakesOf 'S' 1 = 1 := rfl
        have hcount : ¬ (INT_MAX < d.numSnakes + snakesOf flag 1 ∧ flag = 'S') := by
          intro ⟨hmany, hS⟩
          subst hS
          exact hover ⟨rfl, by omega⟩
        obtain ⟨st, k, hstop, herr, hrun⟩ :=
          ih (j := j + 1) (d := d.wrote j [v] (d.numSnakes + snakesOf flag 1))
            (by rw [Decoding.wrote, ← set_eq_overwrite (by omega), List.length_set, hlen])
            (fun h => hfit' (by have := h.2; dsimp only [Decoding.wrote] at this; omega))
            hlt
            (by
              intro ⟨hS, hmany⟩
              subst hS
              dsimp only [Decoding.wrote] at hmany
              exact hover ⟨rfl, by omega⟩)
        have hrest : (d.wrote j [v] (d.numSnakes + snakesOf flag 1)).width *
            (d.wrote j [v] (d.numSnakes + snakesOf flag 1)).height - (j + 1) = room := by
          dsimp only [Decoding.wrote]
          omega
        rw [hrest] at hstop hrun
        have hstep : fillCells flag j (n + 1) d =
            fillCells flag (j + 1) n (d.wrote j [v] (d.numSnakes + snakesOf flag 1)) := by
          rw [fillCells_succ hv hlt hlen, if_neg hcount, Decoding.wrote,
            set_eq_overwrite (by omega)]
        have happend := Decoding.wrote_append d j (d.numSnakes + snakesOf flag 1) k [v]
          (fillProgress flag room n).cells
        rw [List.length_singleton, List.singleton_append] at happend
        exact ⟨st, k, hstop, herr, by rw [hstep, hrun, happend]⟩
    · have hroom : d.width * d.height - j = 0 := by omega
      rw [hroom, fillProgress]
      refine ⟨.errIncorrectDimensions, d.numSnakes, rfl, .inl rfl, ?_⟩
      unfold fillCells
      rw [if_pos hge, Decoding.wrote_nil]
      rfl

end Run

/-! ## The runs of a row -/

def cellCount (rs : List Run) : Nat := (rs.map Run.count).sum

def snakeCount (rs : List Run) : Nat := (rs.map Run.snakes).sum

def cellsOf (rs : List Run) : Cells := rs.flatMap Run.cells

@[simp] theorem cellCount_cons (run : Run) (rs : List Run) :
    cellCount (run :: rs) = run.count + cellCount rs := rfl

@[simp] theorem snakeCount_cons (run : Run) (rs : List Run) :
    snakeCount (run :: rs) = run.snakes + snakeCount rs := rfl

theorem length_cellsOf (rs : List Run) : (cellsOf rs).length = cellCount rs := by
  induction rs with
  | nil => rfl
  | cons run rest ih =>
    rw [cellsOf, List.flatMap_cons, List.length_append, Run.length_cells, cellCount_cons, ← ih]
    rfl

/-- The run is painted from cell `j` on, with `k` snake cells before it. -/
structure RunPaints (total j k : Nat) (run : Run) : Prop where
  known : run.Known
  small : run.count ≤ INT_MAX
  fits : j + run.count ≤ total
  few : k + run.snakes ≤ INT_MAX

/-- Every run of the row is painted. -/
structure RowPaints (total j k : Nat) (rs : List Run) : Prop where
  known : ∀ run ∈ rs, run.Known
  small : ∀ run ∈ rs, run.count ≤ INT_MAX
  fits : j + cellCount rs ≤ total
  few : k + snakeCount rs ≤ INT_MAX

/-- A count or the snake counter overflows, the runs before being painted. -/
def RowOverflows (total : Nat) : Nat → Nat → List Run → Prop
  | _, _, [] => False
  | j, k, run :: rest =>
    INT_MAX < run.count ∨ RunOverflows total j k run.flag run.count ∨
      RunPaints total j k run ∧ RowOverflows total (j + run.count) (k + run.snakes) rest

/-- What a row sets where the board has `room` left. -/
def rowProgress (room : Nat) : List Run → Progress
  | [] => ⟨[], none⟩
  | run :: rest => (run.progress room).andThen (rowProgress (room - run.count) rest)

section Row

variable {total j m k fuel : Nat} {d : Decoding} {token : List Char} {run : Run} {rs : List Run}

theorem rowPaints_cons : RowPaints total j k (run :: rs) ↔
    RunPaints total j k run ∧ RowPaints total (j + run.count) (k + run.snakes) rs := by
  constructor
  · rintro ⟨hknown, hsmall, hfits, hfew⟩
    rw [cellCount_cons] at hfits
    rw [snakeCount_cons] at hfew
    exact ⟨⟨hknown _ List.mem_cons_self, hsmall _ List.mem_cons_self, by omega, by omega⟩,
      fun r hr => hknown r (List.mem_cons_of_mem _ hr),
      fun r hr => hsmall r (List.mem_cons_of_mem _ hr), by omega, by omega⟩
  · rintro ⟨⟨hknown, hsmall, hfits, hfew⟩, hrest⟩
    have hfits' := hrest.fits
    have hfew' := hrest.few
    refine ⟨List.forall_mem_cons.mpr ⟨hknown, hrest.known⟩,
      List.forall_mem_cons.mpr ⟨hsmall, hrest.small⟩, ?_, ?_⟩
    · rw [cellCount_cons]
      omega
    · rw [snakeCount_cons]
      omega

/-- The state after a painted run. -/
def Decoding.painted (d : Decoding) (j : Nat) (rs : List Run) : Decoding :=
  { d with cells := overwrite 0 d.cells j (cellsOf rs), numSnakes := d.numSnakes + snakeCount rs }

@[simp] theorem Decoding.painted_width (d : Decoding) (j : Nat) (rs : List Run) :
    (d.painted j rs).width = d.width := rfl

@[simp] theorem Decoding.painted_height (d : Decoding) (j : Nat) (rs : List Run) :
    (d.painted j rs).height = d.height := rfl

@[simp] theorem Decoding.painted_numSnakes (d : Decoding) (j : Nat) (rs : List Run) :
    (d.painted j rs).numSnakes = d.numSnakes + snakeCount rs := rfl

@[simp] theorem cellCount_singleton (run : Run) : cellCount [run] = run.count := Nat.add_zero _

@[simp] theorem snakeCount_singleton (run : Run) : snakeCount [run] = run.snakes := Nat.add_zero _

@[simp] theorem cellsOf_singleton (run : Run) : cellsOf [run] = run.cells := List.append_nil _

theorem cellCount_append (rs more : List Run) :
    cellCount (rs ++ more) = cellCount rs + cellCount more := by
  simp [cellCount]

theorem snakeCount_append (rs more : List Run) :
    snakeCount (rs ++ more) = snakeCount rs + snakeCount more := by
  simp [snakeCount]

theorem Decoding.painted_append (d : Decoding) (j : Nat) (rs more : List Run) :
    (d.painted j rs).painted (j + cellCount rs) more = d.painted j (rs ++ more) := by
  have happend := overwrite_append 0 d.cells j (cellsOf rs) (cellsOf more)
  rw [length_cellsOf] at happend
  have hcells : cellsOf (rs ++ more) = cellsOf rs ++ cellsOf more := List.flatMap_append
  simp only [Decoding.painted, hcells, snakeCount_append, happend, Nat.add_assoc]

theorem Decoding.length_painted (hlen : d.cells.length = d.width * d.height)
    (hfit : j + cellCount rs ≤ d.width * d.height) :
    (d.painted j rs).cells.length = d.width * d.height := by
  rw [Decoding.painted, length_overwrite_inside, hlen]
  rw [length_cellsOf, hlen]
  exact hfit

/-- The loop over the runs, run by run. -/
theorem rowLoop_cons (fuel : Nat) (flag : Char) (s : List Char) (j m : Nat) (d : Decoding) :
    rowLoop (fuel + 1) (flag :: s) j m d =
      if decimal (s.takeWhile isDigit) ≤ INT_MAX then
        fillCells flag j (decimal (s.takeWhile isDigit)) d >>= fun r =>
          if r.1 ≠ .success then .ok (r.1, j, m, r.2)
          else rowLoop fuel (s.dropWhile isDigit) (j + decimal (s.takeWhile isDigit))
            (m + decimal (s.takeWhile isDigit)) r.2
      else .error .signedOverflow := by
  rw [rowLoop, readCount_eq (Nat.zero_le _)]
  unfold decimal
  split <;> rfl

theorem rowLoop_run_paints (flag : Char) (s : List Char) (fuel j m : Nat)
    (hlen : d.cells.length = d.width * d.height)
    (h : RunPaints (d.width * d.height) j d.numSnakes ⟨flag, s.takeWhile isDigit⟩) :
    rowLoop (fuel + 1) (flag :: s) j m d =
      rowLoop fuel (s.dropWhile isDigit) (j + decimal (s.takeWhile isDigit))
        (m + decimal (s.takeWhile isDigit)) (d.painted j [⟨flag, s.takeWhile isDigit⟩]) := by
  obtain ⟨hknown, hsmall, hfits, hfew⟩ := h
  have hv : decimal (s.takeWhile isDigit) = 0 ∨
      cellOf flag = some ((cellOf flag).getD PLAIN_CELL) := by
    refine hknown.imp_right fun hsome => ?_
    obtain ⟨v, hv⟩ := Option.isSome_iff_exists.mp hsome
    rw [hv]
    rfl
  have hsmall : decimal (s.takeWhile isDigit) ≤ INT_MAX := hsmall
  rw [rowLoop_cons, if_pos hsmall, fillCells_paints hv hlen hfits hfew, ok_bind, if_neg (by simp),
    Decoding.painted, cellsOf_singleton, snakeCount_singleton]
  rfl

theorem rowLoop_run_overflows (flag : Char) (s : List Char) (fuel j m : Nat)
    (hlen : d.cells.length = d.width * d.height) (hk : d.numSnakes ≤ INT_MAX)
    (h : INT_MAX < decimal (s.takeWhile isDigit) ∨
      RunOverflows (d.width * d.height) j d.numSnakes flag (decimal (s.takeWhile isDigit))) :
    rowLoop (fuel + 1) (flag :: s) j m d = .error .signedOverflow := by
  rw [rowLoop_cons]
  split
  · rename_i hle
    rw [fillCells_overflows hlen hk (h.resolve_left (Nat.not_lt.mpr hle)), error_bind]
  · rfl

theorem Run.progress_of_paints (h : RunPaints total j k run) :
    run.progress (total - j) = ⟨run.cells, none⟩ := by
  have hfits := h.fits
  refine fillProgress_of_paints (h.known.imp_right fun hsome => ?_) (by omega)
  obtain ⟨v, hv⟩ := Option.isSome_iff_exists.mp hsome
  rw [hv]
  rfl

/-- A run that neither is painted nor overflows stops the row. -/
theorem rowLoop_run_stops (flag : Char) (s : List Char) (fuel j m : Nat)
    (hlen : d.cells.length = d.width * d.height) (hj : j ≤ d.width * d.height)
    (hk : d.numSnakes ≤ INT_MAX)
    (hfit : ¬ RunPaints (d.width * d.height) j d.numSnakes ⟨flag, s.takeWhile isDigit⟩)
    (hsmall : ¬ INT_MAX < decimal (s.takeWhile isDigit))
    (hover : ¬ RunOverflows (d.width * d.height) j d.numSnakes flag
      (decimal (s.takeWhile isDigit))) :
    ∃ st k, (Run.progress (d.width * d.height - j) ⟨flag, s.takeWhile isDigit⟩).stop = some st ∧
      st.IsError ∧ rowLoop (fuel + 1) (flag :: s) j m d = .ok (st, j, m,
        d.wrote j (Run.progress (d.width * d.height - j) ⟨flag, s.takeWhile isDigit⟩).cells k) := by
  have hunfit : ¬ ((decimal (s.takeWhile isDigit) = 0 ∨ (cellOf flag).isSome = true) ∧
      j + decimal (s.takeWhile isDigit) ≤ d.width * d.height) := by
    rintro ⟨hknown, hfits⟩
    refine hfit ⟨hknown, Nat.not_lt.mp hsmall, hfits, ?_⟩
    -- the run fits, so only the snake counter is left
    rw [Run.snakes, snakesOf]
    split
    · rename_i hS
      by_contra hmany
      refine hover ⟨hS, ?_⟩
      rw [Nat.min_eq_left (by omega)]
      exact Nat.not_le.mp hmany
    · exact hk
  obtain ⟨st, k, hstop, herr, hfill⟩ := fillCells_stops hlen hunfit hj hover
  refine ⟨st, k, hstop, herr, ?_⟩
  rw [rowLoop_cons, if_pos (Nat.not_lt.mp hsmall), hfill, ok_bind, if_pos herr.ne_success]
  rfl

/-- What is left of a token after a run is shorter. -/
theorem length_dropWhile_lt (flag : Char) (s : List Char) :
    (s.dropWhile isDigit).length < (flag :: s).length := by
  have := (List.dropWhile_suffix (l := s) isDigit).length_le
  rw [List.length_cons]
  omega

theorem rowLoop_paints (hfuel : token.length < fuel)
    (hlen : d.cells.length = d.width * d.height)
    (h : RowPaints (d.width * d.height) j d.numSnakes (runs token)) :
    rowLoop fuel token j m d = .ok (.success, j + cellCount (runs token),
      m + cellCount (runs token), d.painted j (runs token)) := by
  induction fuel generalizing token j m d with
  | zero => omega
  | succ fuel ih =>
    cases token with
    | nil => simp [rowLoop, runs, cellCount, snakeCount, cellsOf, Decoding.painted]
    | cons flag s =>
      have hshort := length_dropWhile_lt flag s
      rw [runs_cons] at h ⊢
      obtain ⟨hrun, hrest⟩ := rowPaints_cons.mp h
      have hstate := Decoding.painted_append d j [⟨flag, s.takeWhile isDigit⟩]
        (runs (s.dropWhile isDigit))
      rw [cellCount_singleton, List.singleton_append] at hstate
      rw [rowLoop_run_paints flag s fuel j m hlen hrun, ih (by omega), cellCount_cons, ← hstate,
        Nat.add_assoc, Nat.add_assoc]
      · rfl
      · exact Decoding.length_painted hlen (by rw [cellCount_singleton]; exact hrun.fits)
      · rw [Decoding.painted_numSnakes, snakeCount_singleton]
        exact hrest

theorem rowLoop_overflows (hfuel : token.length < fuel)
    (hlen : d.cells.length = d.width * d.height) (hk : d.numSnakes ≤ INT_MAX)
    (h : RowOverflows (d.width * d.height) j d.numSnakes (runs token)) :
    rowLoop fuel token j m d = .error .signedOverflow := by
  induction fuel generalizing token j m d with
  | zero => omega
  | succ fuel ih =>
    cases token with
    | nil => exact h.elim
    | cons flag s =>
      have hshort := length_dropWhile_lt flag s
      rw [runs_cons, RowOverflows] at h
      rcases h with hbig | hmany | ⟨hrun, hrest⟩
      · exact rowLoop_run_overflows flag s fuel j m hlen hk (.inl hbig)
      · exact rowLoop_run_overflows flag s fuel j m hlen hk (.inr hmany)
      · rw [rowLoop_run_paints flag s fuel j m hlen hrun]
        refine ih (by omega) ?_ ?_ ?_
        · exact Decoding.length_painted hlen (by rw [cellCount_singleton]; exact hrun.fits)
        · rw [Decoding.painted_numSnakes, snakeCount_singleton]
          exact hrun.few
        · rw [Decoding.painted_numSnakes, snakeCount_singleton]
          exact hrest

theorem rowProgress_cons_of_paints (h : RunPaints total j k run) (rest : List Run) :
    rowProgress (total - j) (run :: rest) =
      ⟨run.cells ++ (rowProgress (total - (j + run.count)) rest).cells,
        (rowProgress (total - (j + run.count)) rest).stop⟩ := by
  rw [rowProgress, Run.progress_of_paints h, Progress.andThen_of_none rfl, Nat.sub_sub]

theorem rowProgress_of_paints (h : RowPaints total j k rs) :
    rowProgress (total - j) rs = ⟨cellsOf rs, none⟩ := by
  induction rs generalizing j k with
  | nil => rfl
  | cons run rest ih =>
    obtain ⟨hrun, hrest⟩ := rowPaints_cons.mp h
    rw [rowProgress_cons_of_paints hrun, ih hrest]
    rfl

/-- A painted run comes before what the rest of the row writes. -/
theorem Decoding.painted_wrote (d : Decoding) (j : Nat) (run : Run) (cells : Cells) (k : Nat) :
    (d.painted j [run]).wrote (j + run.count) cells k = d.wrote j (run.cells ++ cells) k := by
  have happend := wrote_append d j (d.numSnakes + snakeCount [run]) k run.cells cells
  rw [Run.length_cells] at happend
  rw [← happend, painted, cellsOf_singleton]
  rfl

theorem rowLoop_stops (hfuel : token.length < fuel)
    (hlen : d.cells.length = d.width * d.height) (hj : j ≤ d.width * d.height)
    (hk : d.numSnakes ≤ INT_MAX)
    (hfit : ¬ RowPaints (d.width * d.height) j d.numSnakes (runs token))
    (hover : ¬ RowOverflows (d.width * d.height) j d.numSnakes (runs token)) :
    ∃ st j' m' k, (rowProgress (d.width * d.height - j) (runs token)).stop = some st ∧
      st.IsError ∧ rowLoop fuel token j m d = .ok (st, j', m',
        d.wrote j (rowProgress (d.width * d.height - j) (runs token)).cells k) := by
  induction fuel generalizing token j m d with
  | zero => omega
  | succ fuel ih =>
    cases token with
    | nil => exact absurd ⟨by simp [runs], by simp [runs], hj, hk⟩ hfit
    | cons flag s =>
      have hshort := length_dropWhile_lt flag s
      rw [runs_cons] at hfit hover ⊢
      rw [RowOverflows, not_or, not_or] at hover
      obtain ⟨hsmall, hmany, hlater⟩ := hover
      by_cases hrun : RunPaints (d.width * d.height) j d.numSnakes ⟨flag, s.takeWhile isDigit⟩
      · have hnext := rowLoop_run_paints flag s fuel j m hlen hrun
        have hlen' : (d.painted j [⟨flag, s.takeWhile isDigit⟩]).cells.length =
            d.width * d.height :=
          Decoding.length_painted hlen (by rw [cellCount_singleton]; exact hrun.fits)
        have hfuel' : (s.dropWhile isDigit).length < fuel := by omega
        have hfits : j + decimal (s.takeWhile isDigit) ≤ d.width * d.height := hrun.fits
        have hrest := ih (m := m + decimal (s.takeWhile isDigit)) hfuel' hlen' hfits
        rw [Decoding.painted_numSnakes, snakeCount_singleton] at hrest
        obtain ⟨st, j', m', k, hstop, herr, hloop⟩ := hrest hrun.few
          (fun h => hfit (rowPaints_cons.mpr ⟨hrun, h⟩)) (fun h => hlater ⟨hrun, h⟩)
        rw [rowProgress_cons_of_paints hrun]
        refine ⟨st, j', m', k, hstop, herr, ?_⟩
        have hstate := Decoding.painted_wrote d j ⟨flag, s.takeWhile isDigit⟩
          (rowProgress (d.width * d.height - (j + decimal (s.takeWhile isDigit)))
            (runs (s.dropWhile isDigit))).cells k
        rw [hnext, hloop]
        exact congrArg (fun d => Except.ok (st, j', m', d)) hstate
      · obtain ⟨st, k, hstop, herr, hloop⟩ :=
          rowLoop_run_stops flag s fuel j m hlen hj hk hrun hsmall hmany
        rw [rowProgress, Progress.andThen_of_some hstop]
        exact ⟨st, j, m, k, hstop, herr, hloop⟩

end Row

/-! ## The rows of the board -/

/-- The rows of a text: the runs of each token. -/
def rowsOf (s : List Char) : List (List Run) := (tokens s).map runs

/-- Every row has `width` cells, and every run is painted. -/
structure BoardPaints (total width j k : Nat) (rows : List (List Run)) : Prop where
  widths : ∀ row ∈ rows, cellCount row = width
  paints : RowPaints total j k rows.flatten

/-- A row overflows, the rows before being painted. -/
def BoardOverflows (total width : Nat) : Nat → Nat → List (List Run) → Prop
  | _, _, [] => False
  | j, k, row :: rest =>
    RowOverflows total j k row ∨
      RowPaints total j k row ∧ cellCount row = width ∧
        BoardOverflows total width (j + cellCount row) (k + snakeCount row) rest

/-- What the rows set where the board has `room` left. -/
def boardProgress (width room : Nat) : List (List Run) → Progress
  | [] => ⟨[], none⟩
  | row :: rest =>
    (rowProgress room row).andThen
      (if cellCount row = width then boardProgress width (room - cellCount row) rest
      else ⟨[], some .errIncorrectDimensions⟩)

/-- What `decompress_board_str` returns behind the last row. -/
def verdict (currRow : Nat) (d : Decoding) : InitStatus :=
  if currRow ≠ d.height then .errIncorrectDimensions
  else if d.numSnakes ≠ 1 then .errWrongSnakeNum
  else .success

section Board

variable {total width j k r fuel : Nat} {d : Decoding} {s : List Char}

theorem rowPaints_append {rs more : List Run} : RowPaints total j k (rs ++ more) ↔
    RowPaints total j k rs ∧ RowPaints total (j + cellCount rs) (k + snakeCount rs) more := by
  constructor
  · rintro ⟨hknown, hsmall, hfits, hfew⟩
    rw [cellCount_append] at hfits
    rw [snakeCount_append] at hfew
    exact ⟨⟨fun run hr => hknown run (List.mem_append_left _ hr),
      fun run hr => hsmall run (List.mem_append_left _ hr), by omega, by omega⟩,
      fun run hr => hknown run (List.mem_append_right _ hr),
      fun run hr => hsmall run (List.mem_append_right _ hr), by omega, by omega⟩
  · rintro ⟨hfirst, hsecond⟩
    have hfits := hsecond.fits
    have hfew := hsecond.few
    refine ⟨fun run hr => ?_, fun run hr => ?_, ?_, ?_⟩
    · exact (List.mem_append.mp hr).elim (hfirst.known run) (hsecond.known run)
    · exact (List.mem_append.mp hr).elim (hfirst.small run) (hsecond.small run)
    · rw [cellCount_append]
      omega
    · rw [snakeCount_append]
      omega

theorem boardPaints_cons {row : List Run} {rows : List (List Run)} :
    BoardPaints total width j k (row :: rows) ↔ RowPaints total j k row ∧ cellCount row = width ∧
      BoardPaints total width (j + cellCount row) (k + snakeCount row) rows := by
  constructor
  · rintro ⟨hwidths, hpaints⟩
    obtain ⟨hfirst, hrest⟩ := rowPaints_append.mp hpaints
    exact ⟨hfirst, hwidths row List.mem_cons_self,
      fun other ho => hwidths other (List.mem_cons_of_mem _ ho), hrest⟩
  · rintro ⟨hfirst, hwidth, hwidths, hrest⟩
    exact ⟨List.forall_mem_cons.mpr ⟨hwidth, hwidths⟩, rowPaints_append.mpr ⟨hfirst, hrest⟩⟩

theorem boardLoop_none (hs : strtok s = none) (fuel r j : Nat) (d : Decoding) :
    boardLoop (fuel + 1) s r j d = .ok (verdict r d, d) := by
  rw [boardLoop, hs]
  simp only [verdict]
  split
  · rfl
  · split
    · rfl
    · rfl

/-- One row, its runs having been read. -/
theorem boardLoop_some {token rest : List Char} (hs : strtok s = some (token, rest))
    (fuel r j : Nat) (d : Decoding) :
    boardLoop (fuel + 1) s r j d =
      (rowLoop (token.length + 1) token j 0 d >>= fun out =>
        if out.1 ≠ .success then .ok (out.1, out.2.2.2)
        else if out.2.2.1 ≠ out.2.2.2.width then .ok (.errIncorrectDimensions, out.2.2.2)
        else boardLoop fuel rest (r + 1) out.2.1 out.2.2.2) := by
  rw [boardLoop, hs]
  rfl

theorem boardLoop_row_paints {token rest : List Char} (hs : strtok s = some (token, rest))
    (hlen : d.cells.length = d.width * d.height) (fuel r : Nat)
    (h : RowPaints (d.width * d.height) j d.numSnakes (runs token)) :
    boardLoop (fuel + 1) s r j d =
      if cellCount (runs token) ≠ d.width then
        .ok (.errIncorrectDimensions, d.painted j (runs token))
      else boardLoop fuel rest (r + 1) (j + cellCount (runs token)) (d.painted j (runs token)) := by
  rw [boardLoop_some hs, rowLoop_paints (Nat.lt_succ_self _) hlen h, ok_bind, if_neg (by simp),
    Nat.zero_add]
  rfl

theorem boardLoop_paints (hfuel : s.length < fuel) (hlen : d.cells.length = d.width * d.height)
    (h : BoardPaints (d.width * d.height) d.width j d.numSnakes (rowsOf s)) :
    boardLoop fuel s r j d =
      .ok (verdict (r + (rowsOf s).length) (d.painted j (rowsOf s).flatten),
        d.painted j (rowsOf s).flatten) := by
  induction fuel generalizing s r j d with
  | zero => omega
  | succ fuel ih =>
    obtain ⟨hnil, hs⟩ | ⟨token, rest, -, hcons, hs, hshort⟩ := strtok_eq s
    · rw [boardLoop_none hs, rowsOf, hnil]
      simp [Decoding.painted, cellsOf, snakeCount]
    · rw [rowsOf, hcons, List.map_cons] at h ⊢
      obtain ⟨hrow, hwidth, hrest⟩ := boardPaints_cons.mp h
      rw [boardLoop_row_paints hs hlen fuel r hrow, if_neg (not_not_intro hwidth), ih (by omega),
        Decoding.painted_append, List.flatten_cons, List.length_cons]
      · rw [rowsOf, Nat.add_assoc, Nat.add_comm 1]
      · exact Decoding.length_painted hlen hrow.fits
      · exact hrest

theorem boardLoop_overflows (hfuel : s.length < fuel)
    (hlen : d.cells.length = d.width * d.height) (hk : d.numSnakes ≤ INT_MAX)
    (h : BoardOverflows (d.width * d.height) d.width j d.numSnakes (rowsOf s)) :
    boardLoop fuel s r j d = .error .signedOverflow := by
  induction fuel generalizing s r j d with
  | zero => omega
  | succ fuel ih =>
    obtain ⟨hnil, -⟩ | ⟨token, rest, -, hcons, hs, hshort⟩ := strtok_eq s
    · rw [rowsOf, hnil] at h
      exact h.elim
    · rw [rowsOf, hcons, List.map_cons, BoardOverflows] at h
      obtain hover | ⟨hrow, hwidth, hrest⟩ := h
      · rw [boardLoop_some hs, rowLoop_overflows (Nat.lt_succ_self _) hlen hk hover, error_bind]
      · rw [boardLoop_row_paints hs hlen fuel r hrow, if_neg (not_not_intro hwidth)]
        exact ih (by omega) (Decoding.length_painted hlen hrow.fits) hrow.few hrest

theorem boardProgress_cons_of_paints {row : List Run} (h : RowPaints total j k row)
    (rest : List (List Run)) :
    boardProgress width (total - j) (row :: rest) =
      if cellCount row = width then
        ⟨cellsOf row ++ (boardProgress width (total - (j + cellCount row)) rest).cells,
          (boardProgress width (total - (j + cellCount row)) rest).stop⟩
      else ⟨cellsOf row, some .errIncorrectDimensions⟩ := by
  rw [boardProgress, rowProgress_of_paints h, Progress.andThen_of_none rfl, Nat.sub_sub]
  split
  · rfl
  · rw [List.append_nil]

theorem boardProgress_of_paints {rows : List (List Run)}
    (h : BoardPaints total width j k rows) :
    boardProgress width (total - j) rows = ⟨cellsOf rows.flatten, none⟩ := by
  induction rows generalizing j k with
  | nil => rfl
  | cons row rows ih =>
    obtain ⟨hrow, hwidth, hrest⟩ := boardPaints_cons.mp h
    have hcells : cellsOf (row ++ rows.flatten) = cellsOf row ++ cellsOf rows.flatten :=
      List.flatMap_append
    rw [boardProgress_cons_of_paints hrow, if_pos hwidth, ih hrest, List.flatten_cons, hcells]

theorem boardLoop_stops (hfuel : s.length < fuel)
    (hlen : d.cells.length = d.width * d.height) (hj : j ≤ d.width * d.height)
    (hk : d.numSnakes ≤ INT_MAX)
    (hfit : ¬ BoardPaints (d.width * d.height) d.width j d.numSnakes (rowsOf s))
    (hover : ¬ BoardOverflows (d.width * d.height) d.width j d.numSnakes (rowsOf s)) :
    ∃ st k, (boardProgress d.width (d.width * d.height - j) (rowsOf s)).stop = some st ∧
      st.IsError ∧ boardLoop fuel s r j d = .ok (st,
        d.wrote j (boardProgress d.width (d.width * d.height - j) (rowsOf s)).cells k) := by
  induction fuel generalizing s r j d with
  | zero => omega
  | succ fuel ih =>
    obtain ⟨hnil, -⟩ | ⟨token, rest, -, hcons, hs, hshort⟩ := strtok_eq s
    · refine absurd ⟨?_, ?_⟩ hfit
      · simp [rowsOf, hnil]
      · rw [rowsOf, hnil]
        exact ⟨by simp, by simp, hj, hk⟩
    · rw [rowsOf, hcons, List.map_cons] at hfit hover ⊢
      rw [BoardOverflows, not_or] at hover
      by_cases hrow : RowPaints (d.width * d.height) j d.numSnakes (runs token)
      · rw [boardLoop_row_paints hs hlen fuel r hrow, boardProgress_cons_of_paints hrow]
        by_cases hwidth : cellCount (runs token) = d.width
        · obtain ⟨st, k, hstop, herr, hloop⟩ := ih (r := r + 1) (s := rest)
            (j := j + cellCount (runs token)) (d := d.painted j (runs token)) (by omega)
            (Decoding.length_painted hlen hrow.fits) hrow.fits hrow.few
            (fun h => hfit (boardPaints_cons.mpr ⟨hrow, hwidth, h⟩))
            (fun h => hover.2 ⟨hrow, hwidth, h⟩)
          rw [if_pos hwidth, if_neg (not_not_intro hwidth), hloop]
          refine ⟨st, k, hstop, herr, ?_⟩
          have happend := Decoding.wrote_append d j (d.numSnakes + snakeCount (runs token)) k
            (cellsOf (runs token))
            (boardProgress d.width (d.width * d.height - (j + cellCount (runs token)))
              (rowsOf rest)).cells
          rw [length_cellsOf] at happend
          exact congrArg (fun d => Except.ok (st, d)) happend
        · rw [if_neg hwidth, if_pos hwidth]
          exact ⟨.errIncorrectDimensions, _, rfl, .inl rfl, rfl⟩
      · obtain ⟨st, j', m', k, hstop, herr, hloop⟩ :=
          rowLoop_stops (m := 0) (Nat.lt_succ_self _) hlen hj hk hrow hover.1
        rw [boardProgress, Progress.andThen_of_some hstop]
        refine ⟨st, k, hstop, herr, ?_⟩
        rw [boardLoop_some hs, hloop, ok_bind, if_pos herr.ne_success]

end Board

end SystemsProjects.Snake.Setup
