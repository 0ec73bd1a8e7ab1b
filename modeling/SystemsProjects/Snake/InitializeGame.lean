/-
SystemsProjects.Snake.InitializeGame — game_setup.c: initialize_game.

`initialize_game` decodes the board string, looks for the snake on the
board and places food. It does the last two whatever status the decoder
returns, on the variables of its caller: after an error in the header
these are not set at all, after a later error the cells behind the
stopping point are not.

An unset value is a parameter: `block` is what `malloc` returns, null or
cells of any values, the board in the caller's `Game` what `cells`,
`width` and `height` are before the call. What the decoder has set when it
stops is `setCells`. The rest of the function (`populate`) is run on these
cells alone, the others left out; where it returns, it returns the same on
every board that continues them (`populate_append`). Behind a null pointer
it never returns after the header is read, as no cell can be read or fed.
-/
import SystemsProjects.Snake.BoardStrings
import SystemsProjects.Snake.FoodPlacement

namespace SystemsProjects.Snake

open Setup SystemsProjects.Base

/-! ## The function -/

/-- A fault of the decoder, or of what comes after it. -/
inductive InitFault where
  | setup (e : Setup.Fault)
  | game (e : Fault)
  deriving DecidableEq, Repr

/-- `*cells_p`, `*width_p` and `*height_p`. -/
def Game.board (g : Game) : Board := ⟨g.cells, g.width, g.height⟩

def Game.withBoard (g : Game) (b : Board) : Game :=
  { g with cells := b.cells, width := b.width, height := b.height }

def initializeDefaultBoard : InitStatus × Board :=
  let cells := List.replicate (20 * 10) PLAIN_CELL
  let cells := (List.range 20).foldl
    (fun cells i => (cells.set i FLAG_WALL).set (i + 20 * (10 - 1)) FLAG_WALL) cells
  let cells := (List.range 10).foldl
    (fun cells i => (cells.set (i * 20) FLAG_WALL).set (i * 20 + 20 - 1) FLAG_WALL) cells
  let cells := (List.range' 1 18).foldl
    (fun cells i => (cells.set (i + 20) FLAG_GRASS).set (i + 20 * (9 - 1)) FLAG_GRASS) cells
  let cells := (List.range' 1 8).foldl
    (fun cells i => (cells.set (i * 20 + 1) FLAG_GRASS).set (i * 20 + 19 - 1) FLAG_GRASS) cells
  (.success, ⟨cells.set (20 * 2 + 2) FLAG_SNAKE, 20, 10⟩)

/-- The loop that looks for the snake, from cell `i` on with `left` cells
to go. -/
def snakeLoop (cells : Cells) (start : Nat) : Nat → Nat → Except Fault Nat
  | _, 0 => .ok start
  | i, left + 1 =>
    match readCell cells i with
    | .error e => .error e
    | .ok c => if c &&& FLAG_SNAKE ≠ 0 then .ok i else snakeLoop cells start (i + 1) left

/-- What is done on the decoded board: `*start` is set, then food placed. -/
def populate (g : Game) : Except Fault Game :=
  match snakeLoop g.cells 42 0 (sizeT (g.width * g.height)) with
  | .error e => .error e
  | .ok start => placeFood { g with snakeDir := .right, snakePos := [start] }

/-- `initialize_game`; `g` has the caller's variables, and `none` is a null
`board_rep`. -/
def initializeGame (block : Option (Nat → Cell)) (g : Game) (boardRep : Option (List Char)) :
    Except InitFault (InitStatus × Game) :=
  match boardRep with
  | none =>
    let (status, b) := initializeDefaultBoard
    match placeFood { g.withBoard b with snakeDir := .right, snakePos := [42] } with
    | .error e => .error (.game e)
    | .ok g => .ok (status, g)
  | some boardRep =>
    match decompressBoardStr block g.board boardRep with
    | .error e => .error (.setup e)
    | .ok (status, b) =>
      match populate (g.withBoard b) with
      | .error e => .error (.game e)
      | .ok g => .ok (status, g)

/-! ## On the set cells alone -/

section

variable {cells rest : Cells} {start i left p r : Nat}

theorem and_snake_ne_zero {c : Cell} (hc : cells[i]? = some c) :
    c &&& FLAG_SNAKE ≠ 0 ↔ hasFlag .snake cells i = true := by
  rw [hasFlag_eq hc]
  exact Flag.and_mask_ne_zero .snake c

theorem snakeLoop_succ (hi : i < cells.length) :
    snakeLoop cells start i (left + 1) =
      if hasFlag .snake cells i = true then .ok i else snakeLoop cells start (i + 1) left := by
  have hc := List.getElem?_eq_getElem hi
  rw [snakeLoop, readCell_eq hc]
  simp only [and_snake_ne_zero hc]

theorem snakeLoop_fault (hi : cells.length ≤ i) :
    snakeLoop cells start i (left + 1) = .error .outOfBounds := by
  rw [snakeLoop, readCell, List.getElem?_eq_none hi]

theorem hasFlag_append (f : Flag) (hi : i < cells.length) :
    hasFlag f (cells ++ rest) i = hasFlag f cells i := by
  rw [hasFlag, hasFlag, List.getElem?_append_left hi]

/-- The search ends if there is a snake cell, or no cell is missing. -/
theorem snakeLoop_ok (start : Nat) (h : (∃ p, i ≤ p ∧ hasFlag .snake cells p = true) ∨
    i + left ≤ cells.length) : ∃ r, snakeLoop cells start i left = .ok r := by
  induction left generalizing i with
  | zero => exact ⟨start, rfl⟩
  | succ left ih =>
    have hi : i < cells.length := by
      rcases h with ⟨p, hp, hflag⟩ | h
      · have hlt := hasFlag_lt hflag
        omega
      · omega
    rw [snakeLoop_succ hi]
    split
    · exact ⟨i, rfl⟩
    · rename_i hflag
      refine ih ?_
      rcases h with ⟨p, hp, hp'⟩ | h
      · left
        refine ⟨p, Nat.lt_of_le_of_ne hp ?_, hp'⟩
        intro he
        exact hflag (he ▸ hp')
      · right
        omega

/-- Conversely. -/
theorem of_snakeLoop_ok (h : snakeLoop cells start i left = .ok r) :
    (∃ p, hasFlag .snake cells p = true) ∨ left = 0 ∨ i + left ≤ cells.length := by
  induction left generalizing i with
  | zero => exact .inr (.inl rfl)
  | succ left ih =>
    rcases Nat.lt_or_ge i cells.length with hi | hi
    · rw [snakeLoop_succ hi] at h
      split at h
      · rename_i hflag
        exact .inl ⟨i, hflag⟩
      · rcases ih h with hsnake | hleft | hall
        · exact .inl hsnake
        · exact .inr (.inr (by omega))
        · exact .inr (.inr (by omega))
    · rw [snakeLoop_fault hi] at h
      cases h

/-- What the search finds, if there is anything to find. -/
theorem snakeLoop_finds (h : snakeLoop cells start i left = .ok r)
    (hp : hasFlag .snake cells p = true) (hi : i ≤ p) (hleft : p < i + left) :
    hasFlag .snake cells r = true := by
  induction left generalizing i with
  | zero => omega
  | succ left ih =>
    have hlt := hasFlag_lt hp
    rw [snakeLoop_succ (by omega)] at h
    split at h
    · rename_i hflag
      cases h
      exact hflag
    · rename_i hflag
      have hne : i ≠ p := by
        intro he
        exact hflag (he ▸ hp)
      exact ih h (by omega) (by omega)

/-- Cells behind those that are read do not matter. -/
theorem snakeLoop_append (h : snakeLoop cells start i left = .ok r) :
    snakeLoop (cells ++ rest) start i left = .ok r := by
  induction left generalizing i with
  | zero => exact h
  | succ left ih =>
    rcases Nat.lt_or_ge i cells.length with hi | hi
    · have hi' : i < (cells ++ rest).length := by
        rw [List.length_append]
        omega
      rw [snakeLoop_succ hi] at h
      rw [snakeLoop_succ hi', hasFlag_append .snake hi]
      split
      · rename_i hflag
        rwa [if_pos hflag] at h
      · rename_i hflag
        rw [if_neg hflag] at h
        exact ih h
    · rw [snakeLoop_fault hi] at h
      cases h

end

section

variable {g g' : Game} {rest : Cells}

theorem free_append {cells : Cells} {j : Nat} (hj : j < cells.length) :
    Free (cells ++ rest) j ↔ Free cells j := by
  rw [Free, Free, List.getElem?_append_left hj]

theorem placeFoodLoop_append {attempts : Nat} (h : placeFoodLoop attempts g = .ok g') :
    placeFoodLoop attempts { g with cells := g.cells ++ rest } =
      .ok { g' with cells := g'.cells ++ rest } := by
  obtain ⟨hsize, k, hk, hhit, rfl⟩ := placeFoodLoop_eq_ok_iff.mp h
  have hlt := hhit.free.lt
  refine placeFoodLoop_eq_ok_iff.mpr ⟨hsize, k, hk, ⟨?_, fun i hi => ?_⟩, ?_⟩
  · exact (free_append hlt).mpr hhit.free
  · obtain ⟨hi, hmiss⟩ := hhit.before i hi
    refine ⟨?_, mt (free_append hi).mp hmiss⟩
    rw [List.length_append]
    exact Nat.lt_add_right _ hi
  · have hmodify : (g.cells ++ rest).modify (g.foodIndex k) (· ||| FLAG_FOOD) =
        g.cells.modify (g.foodIndex k) (· ||| FLAG_FOOD) ++ rest := by
      rw [List.modify_eq_set, List.modify_eq_set, List.getElem?_append_left hlt,
        List.set_append_left _ _ hlt]
    rw [Game.feed, Game.feed]
    exact congrArg (fun cells => { g with cells := cells, drawn := g.drawn + (k + 1) })
      hmodify.symm

/-- **What returns on some cells returns the same on any board that
continues them**, and leaves the others alone. -/
theorem populate_append (rest : Cells) (h : populate g = .ok g') :
    populate { g with cells := g.cells ++ rest } = .ok { g' with cells := g'.cells ++ rest } := by
  rw [populate] at h
  rw [populate]
  cases hloop : snakeLoop g.cells 42 0 (sizeT (g.width * g.height)) with
  | error e =>
    rw [hloop] at h
    cases h
  | ok start =>
    rw [hloop] at h
    dsimp only at h ⊢
    rw [snakeLoop_append hloop]
    exact placeFoodLoop_append h

/-- When it returns: the search for the snake stays on the cells, and so
do the draws up to the first hit. -/
theorem populate_ok_iff (hsize : sizeT (g.width * g.height) = g.width * g.height) :
    (∃ g', populate g = .ok g') ↔
      ((∃ p, hasFlag .snake g.cells p = true) ∨ g.width * g.height ≤ g.cells.length) ∧
        g.drawSize ≠ 0 ∧ ∃ k < g.width * g.height, Free g.cells (g.foodIndex k) ∧
          ∀ i < k, g.foodIndex i < g.cells.length := by
  have hfood : ∀ start, (∃ g', placeFood { g with snakeDir := .right, snakePos := [start] } =
      .ok g') ↔ g.drawSize ≠ 0 ∧ ∃ k < g.width * g.height, Free g.cells (g.foodIndex k) ∧
        ∀ i < k, g.foodIndex i < g.cells.length := by
    intro start
    rw [placeFood, placeFoodLoop_ok_iff]
    dsimp only
    rw [hsize]
    rfl
  rw [populate, hsize]
  constructor
  · intro h
    obtain ⟨g', h⟩ := h
    cases hloop : snakeLoop g.cells 42 0 (g.width * g.height) with
    | error e =>
      rw [hloop] at h
      cases h
    | ok start =>
      rw [hloop] at h
      refine ⟨?_, (hfood start).mp ⟨g', h⟩⟩
      rcases of_snakeLoop_ok hloop with hsnake | hzero | hall
      · exact .inl hsnake
      · exact .inr (by omega)
      · exact .inr (by omega)
  · intro h
    obtain ⟨hsnake, hdraws⟩ := h
    have hsnake : (∃ p, 0 ≤ p ∧ hasFlag .snake g.cells p = true) ∨
        0 + g.width * g.height ≤ g.cells.length := by
      rw [Nat.zero_add]
      refine hsnake.imp_left fun h => ?_
      obtain ⟨p, hp⟩ := h
      exact ⟨p, Nat.zero_le p, hp⟩
    obtain ⟨start, hloop⟩ := snakeLoop_ok 42 hsnake
    rw [hloop]
    exact (hfood start).mpr hdraws

end

/-! ## Painted cells -/

section

variable {rs : List Run}

/-- The four letters. -/
theorem cellOf_eq_some {flag : Char} {v : Cell} (h : cellOf flag = some v) :
    (flag = 'S' ∧ v = FLAG_SNAKE) ∨ (flag = 'E' ∧ v = PLAIN_CELL) ∨
      (flag = 'G' ∧ v = FLAG_GRASS) ∨ (flag = 'W' ∧ v = FLAG_WALL) := by
  unfold cellOf at h
  split at h
  · cases h
    exact .inl ⟨rfl, rfl⟩
  · cases h
    exact .inr (.inl ⟨rfl, rfl⟩)
  · cases h
    exact .inr (.inr (.inl ⟨rfl, rfl⟩))
  · cases h
    exact .inr (.inr (.inr ⟨rfl, rfl⟩))
  · cases h

/-- A painted cell has one flag at most, and never that of food. -/
theorem mem_cellsOf {c : Cell} (h : c ∈ cellsOf rs) :
    c = FLAG_SNAKE ∨ c = PLAIN_CELL ∨ c = FLAG_GRASS ∨ c = FLAG_WALL := by
  obtain ⟨run, -, hrun⟩ := List.mem_flatMap.mp h
  rw [Run.cells] at hrun
  rw [(List.mem_replicate.mp hrun).2]
  cases hv : cellOf run.flag with
  | none => exact .inr (.inl rfl)
  | some v =>
    rcases cellOf_eq_some hv with ⟨-, hv⟩ | ⟨-, hv⟩ | ⟨-, hv⟩ | ⟨-, hv⟩
    · exact .inl hv
    · exact .inr (.inl hv)
    · exact .inr (.inr (.inl hv))
    · exact .inr (.inr (.inr hv))

theorem no_food_cellsOf (i : Nat) : hasFlag .food (cellsOf rs) i = false := by
  rcases Nat.lt_or_ge i (cellsOf rs).length with hi | hi
  · rw [hasFlag_eq (List.getElem?_eq_getElem hi)]
    rcases mem_cellsOf (List.getElem_mem hi) with h | h | h | h <;> rw [h] <;> rfl
  · rw [hasFlag, List.getElem?_eq_none hi]
    rfl

theorem hasFlag_snake_cellsOf (i : Nat) :
    hasFlag .snake (cellsOf rs) i = true ↔ (cellsOf rs)[i]? = some FLAG_SNAKE := by
  rcases Nat.lt_or_ge i (cellsOf rs).length with hi | hi
  · have hc := List.getElem?_eq_getElem hi
    rw [hasFlag_eq hc, hc]
    rcases mem_cellsOf (List.getElem_mem hi) with h | h | h | h <;> rw [h] <;> decide
  · rw [hasFlag, List.getElem?_eq_none hi]
    decide

theorem Run.count_snake {run : Run} (h : run.Known) :
    run.cells.count FLAG_SNAKE = run.snakes := by
  rw [Run.cells, Run.snakes, snakesOf, List.count_replicate]
  rcases h with hzero | hsome
  · rw [hzero]
    split <;> split <;> rfl
  · obtain ⟨v, hv⟩ := Option.isSome_iff_exists.mp hsome
    rw [hv]
    rcases cellOf_eq_some hv with ⟨hf, hv⟩ | ⟨hf, hv⟩ | ⟨hf, hv⟩ | ⟨hf, hv⟩ <;> rw [hf, hv] <;> rfl

theorem count_snake_cellsOf (h : ∀ run ∈ rs, run.Known) :
    (cellsOf rs).count FLAG_SNAKE = snakeCount rs := by
  induction rs with
  | nil => rfl
  | cons run rest ih =>
    have hrest := ih fun r hr => h r (List.mem_cons_of_mem _ hr)
    rw [snakeCount_cons, ← hrest, ← Run.count_snake (h run List.mem_cons_self),
      ← List.count_append]
    rfl

/-- What occurs once has one index. -/
theorem exists_index_of_count_eq_one {α : Type} [BEq α] [LawfulBEq α] {l : List α} {x : α}
    (h : l.count x = 1) : ∃ p, ∀ i : Nat, l[i]? = some x ↔ i = p := by
  have hmem : x ∈ l := by
    rw [← List.count_pos_iff, h]
    exact Nat.one_pos
  obtain ⟨a, b, rfl⟩ := List.append_of_mem hmem
  rw [List.count_append, List.count_cons_self] at h
  have ha : x ∉ a := List.count_eq_zero.mp (by omega)
  have hb : x ∉ b := List.count_eq_zero.mp (by omega)
  refine ⟨a.length, fun i => ⟨fun hi => ?_, fun hi => ?_⟩⟩
  · rcases Nat.lt_trichotomy i a.length with hlt | heq | hgt
    · rw [List.getElem?_append_left hlt] at hi
      exact absurd (List.mem_of_getElem? hi) ha
    · exact heq
    · obtain ⟨n, hn⟩ : ∃ n, i - a.length = n + 1 := ⟨i - a.length - 1, by omega⟩
      rw [List.getElem?_append_right (Nat.le_of_lt hgt), hn, List.getElem?_cons_succ] at hi
      exact absurd (List.mem_of_getElem? hi) hb
  · rw [hi, List.getElem?_append_right (Nat.le_refl _), Nat.sub_self, List.getElem?_cons_zero]

variable {s : List Char}

/-- The one snake cell of a tolerated string. -/
theorem Setup.Tolerated.exists_snake (h : Tolerated s) :
    ∃ p, ∀ i, hasFlag .snake (cellsOf (boardRows s).flatten) i = true ↔ i = p := by
  have hknown : ∀ run ∈ (boardRows s).flatten, run.Known := by
    intro run hrun
    obtain ⟨row, hrow, hmem⟩ := List.mem_flatten.mp hrun
    exact h.known row hrow run hmem
  have hcount := count_snake_cellsOf hknown
  rw [h.oneSnake] at hcount
  obtain ⟨p, hp⟩ := exists_index_of_count_eq_one hcount
  refine ⟨p, fun i => ?_⟩
  rw [hasFlag_snake_cellsOf, hp]

end

/-! ## Clean starts -/

/-- The decoder stops on `s` with `status`, having set the dimensions and
the cells of `b` and no other cell of the array: these are as `malloc`
left them. -/
def Leaves (s : List Char) (status : InitStatus) (b : Board) : Prop :=
  ∀ fresh old, decompressBoardStr (some fresh) old s = .ok (status, { b with
    cells := b.cells ++ ((List.range (b.width * b.height)).map fresh).drop b.cells.length })

section

-- whether `malloc` grants the array
variable (granted : Bool)

/-- An error is reported without a fault and without recourse to what the
decoder has not set. -/
structure ErrorIsClean (g : Game) (s : List Char) (status : InitStatus) : Prop where
  /-- Whatever the unset values are, the call returns, with the same snake
  and after the same draws. -/
  independent : ∃ snakePos drawn, ∀ block, block.isSome = granted → ∀ old, ∃ g',
    initializeGame block (g.withBoard old) (some s) = .ok (status, g') ∧
      g'.snakePos = snakePos ∧ g'.drawn = drawn
  /-- The rest of the function would return even if the cells that are not
  set were missing. -/
  confined : ∀ b, Leaves s status b → ∃ g', populate (g.withBoard b) = .ok g'

/-- The snake is where the one snake cell is, and there is one food. -/
def SuccessIsRight (g : Game) (s : List Char) : Prop :=
  ∃ g' p f, (∀ block, block.isSome = granted → ∀ old,
      initializeGame block (g.withBoard old) (some s) = .ok (.success, g')) ∧
    g'.snakePos = [p] ∧ (∀ i, hasFlag .snake g'.cells i = true ↔ i = p) ∧
      ∀ i, hasFlag .food g'.cells i = true ↔ i = f

/-- `initialize_game` returns the decoder's status for `s`, cleanly. -/
structure StartsCleanly (g : Game) (s : List Char) : Prop where
  returns : ∃ status, ∀ block, block.isSome = granted → ∀ old,
    (∃ b, decompressBoardStr block old s = .ok (status, b)) ∧
      ∃ g', initializeGame block (g.withBoard old) (some s) = .ok (status, g')
  error : ∀ status block, block.isSome = granted → ∀ old b,
    decompressBoardStr block old s = .ok (status, b) →
      status.IsError → ErrorIsClean granted g s status
  success : ∀ block, block.isSome = granted → ∀ old b,
    decompressBoardStr block old s = .ok (.success, b) → SuccessIsRight granted g s

end

/-- The board as far as it is set when the decoder returns. -/
def Game.setBoard (g : Game) (s : List Char) : Game :=
  g.withBoard ⟨setCells s, widthOf s, heightOf s⟩

/-- The strings and values of `rand()` with which it does so. -/
structure StartsWell (g : Game) (s : List Char) : Prop where
  noOverflow : ¬ Overflows s
  header : headerOk s = true
  /-- The search for the snake stays on the cells that are set. -/
  snake : (∃ p, hasFlag .snake (setCells s) p = true) ∨
    widthOf s * heightOf s ≤ (setCells s).length
  drawSize : (g.setBoard s).drawSize ≠ 0
  /-- A draw hits a free cell, and those before it are on cells that are
  set. -/
  food : ∃ k < widthOf s * heightOf s, Free (setCells s) ((g.setBoard s).foodIndex k) ∧
    ∀ i < k, (g.setBoard s).foodIndex i < (setCells s).length

/-! ### Only what is set -/

section

variable {g g' : Game} {s : List Char} {status : InitStatus} {granted : Bool}

theorem overwrite_front (d data : Cells) :
    overwrite 0 d 0 data = data ++ d.drop data.length := by
  rw [overwrite]
  split
  · rename_i hnil
    rw [hnil]
    rfl
  · rw [List.take_zero, List.nil_append, Nat.zero_add]

theorem leaves_setCells (hover : ¬ Overflows s) (hheader : headerOk s = true) :
    Leaves s (statusOf s) ⟨setCells s, widthOf s, heightOf s⟩ := by
  intro fresh old
  rw [decompress_eq fresh old hover hheader, overwrite_front]
  rfl

/-- Two descriptions of the same boards. -/
theorem Leaves.agree {b b' : Board} (h : Leaves s status b) (h' : Leaves s status b')
    (fresh : Nat → Cell) :
    b.width = b'.width ∧ b.height = b'.height ∧
      b.cells ++ ((List.range (b.width * b.height)).map fresh).drop b.cells.length =
        b'.cells ++ ((List.range (b'.width * b'.height)).map fresh).drop b'.cells.length := by
  have hrun := h fresh ⟨[], 0, 0⟩
  rw [h' fresh ⟨[], 0, 0⟩] at hrun
  simp only [Except.ok.injEq, Prod.mk.injEq, Board.mk.injEq, true_and] at hrun
  exact ⟨hrun.2.1.symm, hrun.2.2.symm, hrun.1.symm⟩

/-- A cell that is set does not depend on `malloc`, one that is not set
does. -/
theorem Leaves.length_le {b b' : Board} (h : Leaves s status b) (h' : Leaves s status b') :
    b'.cells.length ≤ b.cells.length := by
  by_contra hlt
  rw [Nat.not_le] at hlt
  obtain ⟨-, -, h0⟩ := h.agree h' fun _ => 0
  obtain ⟨-, -, h1⟩ := h.agree h' fun _ => 1
  have hlength := congrArg List.length h0
  simp only [List.length_append, List.length_drop, List.length_map, List.length_range] at hlength
  have hin : b.cells.length < b.width * b.height := by omega
  -- the first cell that `b` leaves to `malloc` is one that `b'` sets
  have hcell : ∀ v : Cell,
      b.cells ++ ((List.range (b.width * b.height)).map fun _ => v).drop b.cells.length =
        b'.cells ++ ((List.range (b'.width * b'.height)).map fun _ => v).drop b'.cells.length →
      b'.cells[b.cells.length]? = some v := by
    intro v hv
    rw [← List.getElem?_append_left hlt, ← hv, List.getElem?_append_right (Nat.le_refl _),
      Nat.sub_self, List.getElem?_drop, Nat.add_zero, List.getElem?_map, List.getElem?_range hin]
    rfl
  have h0 := hcell 0 h0
  rw [hcell 1 h1] at h0
  cases h0

theorem Leaves.unique {b b' : Board} (h : Leaves s status b) (h' : Leaves s status b') :
    b = b' := by
  obtain ⟨hwidth, hheight, heq⟩ := h.agree h' fun _ => 0
  have hlength : b.cells.length = b'.cells.length :=
    Nat.le_antisymm (h'.length_le h) (h.length_le h')
  obtain ⟨hcells, -⟩ := List.append_inj heq hlength
  cases b
  cases b'
  simp_all

/-- The board of the two dimensions has no more cells than `size_t` counts. -/
theorem sizeT_dimensions (hover : ¬ Overflows s) :
    sizeT (widthOf s * heightOf s) = widthOf s * heightOf s := by
  have hsmall : ¬ (INT_MAX < heightOf s ∨ INT_MAX < widthOf s) := fun h => hover (.inl h)
  rw [not_or, Nat.not_lt, Nat.not_lt] at hsmall
  have hmul := Nat.mul_le_mul hsmall.2 hsmall.1
  have hlt : INT_MAX * INT_MAX < 2 ^ 64 := by decide
  exact Nat.mod_eq_of_lt (Nat.lt_of_le_of_lt hmul hlt)

/-- The rest of the function returns on the set cells alone. -/
theorem populate_setBoard_iff (hover : ¬ Overflows s) (hheader : headerOk s = true) :
    (∃ g', populate (g.setBoard s) = .ok g') ↔ StartsWell g s := by
  have hsize : sizeT ((g.setBoard s).width * (g.setBoard s).height) =
      (g.setBoard s).width * (g.setBoard s).height := sizeT_dimensions hover
  rw [populate_ok_iff hsize]
  constructor
  · intro h
    obtain ⟨hsnake, hsize, hfood⟩ := h
    exact ⟨hover, hheader, hsnake, hsize, hfood⟩
  · intro h
    exact ⟨h.snake, h.drawSize, h.food⟩

/-- The whole call, once the decoder has stopped. -/
theorem initializeGame_of_decoded {block : Option (Nat → Cell)} {old b : Board}
    (h : decompressBoardStr block old s = .ok (status, b)) :
    initializeGame block (g.withBoard old) (some s) =
      match populate (g.withBoard b) with
      | .error e => .error (.game e)
      | .ok g => .ok (status, g) := by
  have hcall : initializeGame block (g.withBoard old) (some s) =
      match decompressBoardStr block old s with
      | .error e => .error (.setup e)
      | .ok (status, b) =>
        match populate (g.withBoard b) with
        | .error e => .error (.game e)
        | .ok g => .ok (status, g) := rfl
  rw [hcall, h]

/-- What returns on the set cells returns so on every board. -/
theorem initializeGame_of_populate (hover : ¬ Overflows s) (hheader : headerOk s = true)
    (h : populate (g.setBoard s) = .ok g') (fresh : Nat → Cell) (old : Board) :
    initializeGame (some fresh) (g.withBoard old) (some s) = .ok (statusOf s, { g' with
      cells := g'.cells ++
        ((List.range (widthOf s * heightOf s)).map fresh).drop (setCells s).length }) := by
  rw [initializeGame_of_decoded (leaves_setCells hover hheader fresh old)]
  have hboard := populate_append
    (((List.range (widthOf s * heightOf s)).map fresh).drop (setCells s).length) h
  have hg : g.withBoard ⟨setCells s ++
      ((List.range (widthOf s * heightOf s)).map fresh).drop (setCells s).length,
      widthOf s, heightOf s⟩ = { g.setBoard s with
        cells := (g.setBoard s).cells ++
          ((List.range (widthOf s * heightOf s)).map fresh).drop (setCells s).length } := rfl
  dsimp only
  rw [hg, hboard]

/-- What the rest of the function does when it returns. -/
theorem populate_ok (h : populate g = .ok g') :
    ∃ start j n, snakeLoop g.cells 42 0 (sizeT (g.width * g.height)) = .ok start ∧
      Free g.cells j ∧ g' = Game.feed { g with snakeDir := .right, snakePos := [start] } j n := by
  rw [populate] at h
  cases hloop : snakeLoop g.cells 42 0 (sizeT (g.width * g.height)) with
  | error e =>
    rw [hloop] at h
    cases h
  | ok start =>
    rw [hloop] at h
    obtain ⟨j, n, hfree, rfl⟩ := placeFood_ok h
    exact ⟨start, j, n, rfl, hfree, rfl⟩

/-! ### The exact condition -/

/-- A decoded board has the snake where it is, and one food. -/
theorem successIsRight_of_populate (hs : Tolerated s) (hover : ¬ Overflows s)
    (h : populate (g.setBoard s) = .ok g') (hstatus : statusOf s = .success) :
    SuccessIsRight true g s := by
  obtain ⟨start, j, n, hloop, hfree, hg'⟩ := populate_ok h
  obtain ⟨p, hp⟩ := hs.exists_snake
  have hcells : (g.setBoard s).cells = cellsOf (boardRows s).flatten := hs.setCells_eq
  have hfood := flagChange_feed (g := { g.setBoard s with
    snakeDir := .right, snakePos := [start] }) hfree n
  rw [← hg'] at hfood
  dsimp only at hfood
  rw [hcells] at hfood
  refine ⟨g', p, j, fun block hblock old => ?_, ?_, fun i => ?_, fun i => ?_⟩
  · obtain ⟨fresh, rfl⟩ := Option.isSome_iff_exists.mp hblock
    have hnone : ((List.range (widthOf s * heightOf s)).map fresh).drop (setCells s).length =
        [] := by
      rw [hs.length_setCells]
      simp
    rw [initializeGame_of_populate hover hs.header h, hnone, List.append_nil, hstatus]
  · -- the search finds a snake cell, and there is but one
    have hlt := hasFlag_lt ((hp p).mpr rfl)
    rw [← hs.setCells_eq, hs.length_setCells] at hlt
    have hsize : sizeT ((g.setBoard s).width * (g.setBoard s).height) =
        widthOf s * heightOf s := sizeT_dimensions hover
    rw [hsize, hcells] at hloop
    have hfound := snakeLoop_finds hloop ((hp p).mpr rfl) (Nat.zero_le p) (by omega)
    rw [hg', (hp start).mp hfound]
    rfl
  · rw [hfood.other .snake (by decide), hp]
  · rw [hfood.flag, no_food_cellsOf, Bool.false_or, decide_eq_true_iff]

/-- Of what `malloc` may return, one. -/
theorem exists_block (granted : Bool) : ∃ block : Option (Nat → Cell), block.isSome = granted := by
  cases granted with
  | true => exact ⟨some fun _ => 0, rfl⟩
  | false => exact ⟨none, rfl⟩

theorem StartsCleanly.noOverflow (h : StartsCleanly granted g s) : ¬ Overflows s := by
  intro hover
  obtain ⟨status, hret⟩ := h.returns
  obtain ⟨block, hblock⟩ := exists_block granted
  obtain ⟨⟨b, hb⟩, -⟩ := hret block hblock ⟨[], 0, 0⟩
  cases block with
  | none => exact (null_faults (.inl hover)).ne_ok _ hb
  | some fresh =>
    rw [decompress_overflows hover] at hb
    cases hb

/-- After an error in the header even the dimensions are the caller's, and
there may be none to place food on. -/
theorem StartsCleanly.header (h : StartsCleanly granted g s) : headerOk s = true := by
  by_contra hbad
  obtain ⟨status, hret⟩ := h.returns
  obtain ⟨block, hblock⟩ := exists_block granted
  obtain ⟨-, g', hg'⟩ := hret block hblock ⟨[], 0, 0⟩
  rw [initializeGame_of_decoded (decompress_header h.noOverflow hbad)] at hg'
  cases hg'

/-- Behind a null pointer there is no cell to put food on. -/
theorem populate_no_cells (hover : ¬ Overflows s) :
    populate (g.withBoard ⟨[], widthOf s, heightOf s⟩) ≠ .ok g' := by
  intro hrun
  have hsize : sizeT ((g.withBoard ⟨[], widthOf s, heightOf s⟩).width *
      (g.withBoard ⟨[], widthOf s, heightOf s⟩).height) =
      (g.withBoard ⟨[], widthOf s, heightOf s⟩).width *
        (g.withBoard ⟨[], widthOf s, heightOf s⟩).height := sizeT_dimensions hover
  obtain ⟨-, -, k, -, hfree, -⟩ := (populate_ok_iff hsize).mp ⟨g', hrun⟩
  exact absurd hfree.lt (Nat.not_lt_zero _)

/-- A null pointer is written or read through, if the header is in order. -/
theorem StartsCleanly.malloc_grants (h : StartsCleanly granted g s) : granted = true := by
  cases granted with
  | true => rfl
  | false =>
    obtain ⟨status, hret⟩ := h.returns
    obtain ⟨⟨b, hb⟩, g', hg'⟩ := hret none rfl ⟨[], 0, 0⟩
    by_cases hnil : setCells s = []
    · obtain ⟨st, -, hdec⟩ := decompress_null h.noOverflow h.header hnil ⟨[], 0, 0⟩
      rw [initializeGame_of_decoded hdec] at hg'
      cases hrun : populate (g.withBoard ⟨[], widthOf s, heightOf s⟩) with
      | error e =>
        rw [hrun] at hg'
        cases hg'
      | ok g₀ => exact absurd hrun (populate_no_cells h.noOverflow)
    · exact absurd hb ((null_faults (.inr ⟨h.header, hnil⟩)).ne_ok _)

/-- **When `initialize_game` reports cleanly**: exactly where `malloc`
grants the array, for the strings whose header is in order, on which no
`int` overflows, whose set cells end the search for the snake, and with
values of `rand()` that hit a free set cell before they leave the set
cells. -/
theorem startsCleanly_iff (granted : Bool) (g : Game) (s : List Char) :
    StartsCleanly granted g s ↔ StartsWell g s ∧ granted = true := by
  constructor
  · intro h
    refine ⟨?_, h.malloc_grants⟩
    obtain rfl := h.malloc_grants
    have hover := h.noOverflow
    have hheader := h.header
    have hleaves := leaves_setCells hover hheader
    refine (populate_setBoard_iff hover hheader).mp ?_
    by_cases hs : Tolerated s
    · obtain ⟨status, hret⟩ := h.returns
      obtain ⟨-, g', hg'⟩ := hret (some fun _ => 0) rfl ⟨[], 0, 0⟩
      rw [initializeGame_of_decoded (decompress_tolerated hs), ← hs.setCells_eq] at hg'
      cases hrun : populate (g.setBoard s) with
      | error e =>
        have hrun : populate (g.withBoard ⟨setCells s, widthOf s, heightOf s⟩) = .error e := hrun
        rw [hrun] at hg'
        cases hg'
      | ok g₀ => exact ⟨g₀, rfl⟩
    · have hclean := h.error (statusOf s) (some fun _ => 0) rfl ⟨[], 0, 0⟩ _ (hleaves _ _)
        (statusOf_isError hs hover)
      exact hclean.confined _ hleaves
  · rintro ⟨h, rfl⟩
    obtain ⟨g₀, hg₀⟩ := (populate_setBoard_iff h.noOverflow h.header).mpr h
    have hleaves := leaves_setCells h.noOverflow h.header
    have hcall := initializeGame_of_populate h.noOverflow h.header hg₀
    refine ⟨⟨statusOf s, fun block hblock old => ?_⟩, ?_, ?_⟩
    · obtain ⟨fresh, rfl⟩ := Option.isSome_iff_exists.mp hblock
      exact ⟨⟨_, hleaves fresh old⟩, _, hcall fresh old⟩
    · intro status block hblock old b hdec _
      obtain ⟨fresh, rfl⟩ := Option.isSome_iff_exists.mp hblock
      rw [hleaves fresh old] at hdec
      cases hdec
      refine ⟨⟨g₀.snakePos, g₀.drawn, fun block hblock old => ?_⟩, ?_⟩
      · obtain ⟨fresh, rfl⟩ := Option.isSome_iff_exists.mp hblock
        exact ⟨_, hcall fresh old, rfl, rfl⟩
      · intro b hb
        rw [hb.unique hleaves]
        exact ⟨g₀, hg₀⟩
    · intro block hblock old b hdec
      obtain ⟨fresh, rfl⟩ := Option.isSome_iff_exists.mp hblock
      rw [hleaves fresh old] at hdec
      simp only [Except.ok.injEq, Prod.mk.injEq] at hdec
      by_cases hs : Tolerated s
      · exact successIsRight_of_populate hs h.noOverflow hg₀ hdec.1
      · exact absurd hdec.1 (statusOf_isError hs h.noOverflow).ne_success

/-- The string `Q`: with no cell in the caller's variables the assertion
fires, with one cell and no array it is read. -/
theorem startsCleanly_bad_header :
    initializeGame (some fun _ => 0) (crowdedGame.withBoard ⟨[], 0, 0⟩) (some ['Q']) =
        .error (.game .noCellForFood) ∧
      initializeGame (some fun _ => 0) (crowdedGame.withBoard ⟨[], 1, 1⟩) (some ['Q']) =
        .error (.game .outOfBounds) ∧
      ¬ StartsCleanly true crowdedGame ['Q'] := by
  refine ⟨rfl, rfl, fun h => ?_⟩
  have hheader := h.header
  cases hheader

/-! ## The default board -/

/-- The game on the default board, before food is placed. -/
def Game.onDefaultBoard (g : Game) : Game :=
  { g.withBoard initializeDefaultBoard.2 with snakeDir := .right, snakePos := [42] }

/-- Walls, grass inside them, and the snake. -/
def defaultCells : Cells :=
  [[2, 2, 2, 2, 2, 2, 2, 2, 2, 2, 2, 2, 2, 2, 2, 2, 2, 2, 2, 2],
   [2, 8, 8, 8, 8, 8, 8, 8, 8, 8, 8, 8, 8, 8, 8, 8, 8, 8, 8, 2],
   [2, 8, 1, 0, 0, 0, 0, 0, 0, 0, 0, 0, 0, 0, 0, 0, 0, 0, 8, 2],
   [2, 8, 0, 0, 0, 0, 0, 0, 0, 0, 0, 0, 0, 0, 0, 0, 0, 0, 8, 2],
   [2, 8, 0, 0, 0, 0, 0, 0, 0, 0, 0, 0, 0, 0, 0, 0, 0, 0, 8, 2],
   [2, 8, 0, 0, 0, 0, 0, 0, 0, 0, 0, 0, 0, 0, 0, 0, 0, 0, 8, 2],
   [2, 8, 0, 0, 0, 0, 0, 0, 0, 0, 0, 0, 0, 0, 0, 0, 0, 0, 8, 2],
   [2, 8, 0, 0, 0, 0, 0, 0, 0, 0, 0, 0, 0, 0, 0, 0, 0, 0, 8, 2],
   [2, 8, 8, 8, 8, 8, 8, 8, 8, 8, 8, 8, 8, 8, 8, 8, 8, 8, 8, 2],
   [2, 2, 2, 2, 2, 2, 2, 2, 2, 2, 2, 2, 2, 2, 2, 2, 2, 2, 2, 2]].flatten

theorem defaultBoard_cells : initializeDefaultBoard.2.cells = defaultCells := by
  decide +kernel

theorem length_defaultCells : defaultCells.length = 20 * 10 := by
  decide +kernel

instance (width height i : Nat) : Decidable (OnEdge width height i) :=
  inferInstanceAs (Decidable (_ ∨ _ ∨ _ ∨ _))

/-- The flags of cell `i`, all cells gone through once. -/
theorem defaultCells_flags {i : Nat} (hi : i < 20 * 10) :
    (OnEdge 20 10 i → hasFlag .wall defaultCells i = true) ∧
      (hasFlag .wall defaultCells i = true → i ≠ 42) ∧
      (hasFlag .snake defaultCells i = true ↔ i = 42) ∧
      hasFlag .food defaultCells i = false := by
  have hall : defaultCells.zipIdx.all (fun x => decide
      ((OnEdge 20 10 x.2 → Flag.wall.isSet x.1 = true) ∧
        (Flag.wall.isSet x.1 = true → x.2 ≠ 42) ∧
        (Flag.snake.isSet x.1 = true ↔ x.2 = 42) ∧ Flag.food.isSet x.1 = false)) = true := by
    decide +kernel
  rw [← length_defaultCells] at hi
  have hc := List.getElem?_eq_getElem hi
  simp only [hasFlag_eq hc]
  exact of_decide_eq_true
    (List.all_eq_true.mp hall _ (List.mk_mem_zipIdx_iff_getElem?.mpr hc))

/-- The call with a null string, once food is placed. -/
theorem initializeGame_none {block : Option (Nat → Cell)}
    (h : initializeGame block g none = .ok (status, g')) :
    status = .success ∧ placeFood g.onDefaultBoard = .ok g' := by
  have hcall : initializeGame block g none =
      match placeFood g.onDefaultBoard with
      | .error e => .error (.game e)
      | .ok g => .ok (.success, g) := rfl
  rw [hcall] at h
  split at h
  · cases h
  · rename_i hfood
    cases h
    exact ⟨rfl, hfood⟩

/-- **A game on the default board starts as the game invariant wants it.** -/
theorem start_of_default {block : Option (Nat → Cell)} (hscore : g.score = 0)
    (h : initializeGame block g none = .ok (status, g')) : Start g' := by
  obtain ⟨f, n, hfree, rfl⟩ := placeFood_ok (initializeGame_none h).2
  have hfood := flagChange_feed hfree n
  have hcells : g.onDefaultBoard.cells = defaultCells := defaultBoard_cells
  have hlength := hfood.length
  have hwall := hfood.other .wall (by decide)
  have hsnake := hfood.other .snake (by decide)
  have hflag := hfood.flag
  rw [hcells] at hlength
  simp only [hcells] at hwall hsnake hflag
  have hin : ∀ {f i}, hasFlag f defaultCells i = true → i < 20 * 10 := fun hset => by
    have hi := hasFlag_lt hset
    rwa [length_defaultCells] at hi
  have hstart : 42 < 20 * 10 := by decide
  refine
    { size := hlength.trans length_defaultCells
      fits := Nat.lt_of_le_of_lt (Nat.le_refl (20 * 10)) (by decide)
      walled := fun i hi hedge => ?_
      snake := ⟨42, rfl, fun i => ?_, ?_⟩
      food := ⟨f, ?_, fun i => ?_⟩
      score := hscore }
  · rw [hwall]
    exact (defaultCells_flags hi).1 hedge
  · rw [hsnake]
    constructor
    · intro hset
      exact (defaultCells_flags (hin hset)).2.2.1.mp hset
    · intro hi
      rw [hi]
      exact (defaultCells_flags hstart).2.2.1.mpr rfl
  · rw [hwall, Bool.eq_false_iff]
    intro hset
    exact (defaultCells_flags hstart).2.1 hset rfl
  · obtain ⟨c, hc, hcases⟩ := hfree
    have hcell : (g.onDefaultBoard.feed f n).cells[f]? = some (c ||| FLAG_FOOD) := by
      rw [Game.feed, List.getElem?_modify_eq, hc]
      rfl
    rw [hcell]
    rcases hcases with hplain | hgrass
    · rw [hplain]
      exact .inl rfl
    · rw [hgrass]
      exact .inr rfl
  · have hnone : hasFlag .food defaultCells i = false := by
      rw [Bool.eq_false_iff]
      intro hset
      rw [(defaultCells_flags (hin hset)).2.2.2] at hset
      cases hset
    rw [hflag, hnone, Bool.false_or, decide_eq_true_iff]

end

end SystemsProjects.Snake
