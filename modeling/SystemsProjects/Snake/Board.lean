/-
SystemsProjects.Snake.Board — boards of flagged cells, and their geometry.

A cell is a C `int`, 32 bits, of which four are flags (common.h). A board
is the flat array of its cells, row after row; `hasFlag` reads one flag
of one cell and is what every statement about a board is made of. The
second half is the geometry of a width: an inner position has four
neighbours, one row or one column away, all on the board.
-/
import Mathlib.Data.List.Basic
import Mathlib.Algebra.Group.Nat.Defs
import Mathlib.Algebra.Group.Int.Defs

namespace SystemsProjects.Snake

/-! ## Cells -/

/-- A C `int`. -/
abbrev Cell := BitVec 32

def PLAIN_CELL : Cell := 0b0000
def FLAG_SNAKE : Cell := 0b0001
def FLAG_WALL : Cell := 0b0010
def FLAG_FOOD : Cell := 0b0100
def FLAG_GRASS : Cell := 0b1000

/-- The four flags. -/
inductive Flag where
  | snake
  | wall
  | food
  | grass
  deriving DecidableEq, Repr

namespace Flag

def bit : Flag → Nat
  | snake => 0
  | wall => 1
  | food => 2
  | grass => 3

def mask : Flag → Cell
  | snake => FLAG_SNAKE
  | wall => FLAG_WALL
  | food => FLAG_FOOD
  | grass => FLAG_GRASS

theorem mask_eq (f : Flag) : f.mask = BitVec.twoPow 32 f.bit := by
  cases f <;> rfl

theorem bit_lt (f : Flag) : f.bit < 32 := by
  cases f <;> decide

theorem bit_inj {f g : Flag} : f.bit = g.bit ↔ f = g := by
  cases f <;> cases g <;> decide

/-- The cell carries the flag. -/
def isSet (f : Flag) (c : Cell) : Bool := c.getLsbD f.bit

theorem and_mask_ne_zero (f : Flag) (c : Cell) : c &&& f.mask ≠ 0 ↔ f.isSet c = true := by
  rw [mask_eq, BitVec.and_twoPow, isSet]
  cases h : c.getLsbD f.bit with
  | true =>
    rw [if_pos rfl]
    cases f <;> decide
  | false => simp

theorem isSet_or_mask (f g : Flag) (c : Cell) :
    f.isSet (c ||| g.mask) = (f.isSet c || decide (f = g)) := by
  simp only [isSet, BitVec.getLsbD_or, mask_eq, BitVec.getLsbD_twoPow, g.bit_lt, decide_true,
    Bool.true_and, ← bit_inj, eq_comm]

theorem isSet_and_not_mask (f g : Flag) (c : Cell) :
    f.isSet (c &&& ~~~g.mask) = (f.isSet c && !decide (f = g)) := by
  simp only [isSet, BitVec.getLsbD_and, BitVec.getLsbD_not, mask_eq, BitVec.getLsbD_twoPow,
    f.bit_lt, g.bit_lt, decide_true, Bool.true_and, ← bit_inj, eq_comm]

end Flag

/-! ## Boards -/

abbrev Cells := List Cell

/-- Flag `f` of cell `i`; cells off the board carry none. -/
def hasFlag (f : Flag) (cells : Cells) (i : Nat) : Bool := f.isSet (cells[i]?.getD 0)

theorem hasFlag_lt {f : Flag} {cells : Cells} {i : Nat} (h : hasFlag f cells i = true) :
    i < cells.length := by
  refine Nat.lt_of_not_le fun hle => ?_
  rw [hasFlag, List.getElem?_eq_none hle, Option.getD_none] at h
  cases f <;> cases h

theorem hasFlag_eq {f : Flag} {cells : Cells} {i : Nat} {c : Cell} (h : cells[i]? = some c) :
    hasFlag f cells i = f.isSet c := by
  rw [hasFlag, h, Option.getD_some]

theorem hasFlag_set {f : Flag} {cells : Cells} {i j : Nat} {c : Cell} (hj : j < cells.length) :
    hasFlag f (cells.set j c) i = if i = j then f.isSet c else hasFlag f cells i := by
  unfold hasFlag
  rw [List.getElem?_set]
  by_cases h : j = i
  · subst h; simp [hj]
  · rw [if_neg h, if_neg (Ne.symm h)]

/-! ## Geometry -/

/-- On the first or last row or column. -/
def OnEdge (width height i : Nat) : Prop :=
  i / width = 0 ∨ i / width + 1 = height ∨ i % width = 0 ∨ i % width + 1 = width

/-- One row apart in the same column, or one column apart in the same row. -/
def Adjacent (width p q : Nat) : Prop :=
  (p % width = q % width ∧ (p / width + 1 = q / width ∨ q / width + 1 = p / width)) ∨
  (p / width = q / width ∧ (p % width + 1 = q % width ∨ q % width + 1 = p % width))

section

variable {width height p : Nat}

/-- A position off the edge, in coordinates. -/
theorem inner_bounds (hp : p < width * height) (hedge : ¬ OnEdge width height p) :
    0 < p / width ∧ p / width + 1 < height ∧ 0 < p % width ∧ p % width + 1 < width := by
  simp only [OnEdge, not_or] at hedge
  obtain ⟨h1, h2, h3, h4⟩ := hedge
  have hw : 0 < width := Nat.pos_of_ne_zero fun h => by rw [h, Nat.zero_mul] at hp; omega
  have hrow : p / width < height := Nat.div_lt_of_lt_mul hp
  have hcol : p % width < width := Nat.mod_lt p hw
  generalize p / width = r at *
  generalize p % width = c at *
  omega

theorem coords_mul_add {r c : Nat} (hc : c < width) :
    (width * r + c) / width = r ∧ (width * r + c) % width = c := by
  constructor
  · rw [Nat.mul_add_div (by omega), Nat.div_eq_of_lt hc, Nat.add_zero]
  · rw [Nat.mul_add_mod, Nat.mod_eq_of_lt hc]

/-- Two positions given in coordinates. -/
theorem adjacent_of_coords {r c r' c' : Nat} (hc : c < width) (hc' : c' < width)
    (h : (c = c' ∧ (r + 1 = r' ∨ r' + 1 = r)) ∨ (r = r' ∧ (c + 1 = c' ∨ c' + 1 = c))) :
    Adjacent width (width * r + c) (width * r' + c') := by
  unfold Adjacent
  rw [(coords_mul_add hc).1, (coords_mul_add hc).2, (coords_mul_add hc').1,
    (coords_mul_add hc').2]
  exact h

/-- A position in row `r`, column `c` is on the board. -/
theorem coords_lt {r c : Nat} (hr : r < height) (hc : c < width) :
    width * r + c < width * height := by
  have hle : width * (r + 1) ≤ width * height := Nat.mul_le_mul_left width hr
  rw [Nat.mul_succ] at hle
  omega

/-- The four neighbours of a position off the edge. -/
theorem neighbours (hp : p < width * height) (hedge : ¬ OnEdge width height p) :
    (width ≤ p ∧ Adjacent width (p - width) p) ∧
    (p + width < width * height ∧ Adjacent width (p + width) p) ∧
    (p + 1 < width * height ∧ Adjacent width (p + 1) p) ∧
    (1 ≤ p ∧ Adjacent width (p - 1) p) := by
  obtain ⟨hr0, hr1, hc0, hc1⟩ := inner_bounds hp hedge
  have hcoords : p = width * (p / width) + p % width := (Nat.div_add_mod p width).symm
  generalize p / width = r at *
  generalize p % width = c at *
  subst hcoords
  obtain ⟨r, rfl⟩ : ∃ r', r = r' + 1 := ⟨r - 1, by omega⟩
  obtain ⟨c, rfl⟩ : ∃ c', c = c' + 1 := ⟨c - 1, by omega⟩
  have hup : width * (r + 1) + (c + 1) - width = width * r + (c + 1) := by
    rw [Nat.mul_succ]; omega
  have hdown : width * (r + 1) + (c + 1) + width = width * (r + 2) + (c + 1) := by
    rw [Nat.mul_succ width (r + 1)]; omega
  refine ⟨⟨?_, ?_⟩, ⟨?_, ?_⟩, ⟨?_, ?_⟩, ?_, ?_⟩
  · rw [Nat.mul_succ]; omega
  · rw [hup]
    exact adjacent_of_coords (by omega) (by omega) (.inl ⟨rfl, .inl rfl⟩)
  · rw [hdown]
    exact coords_lt (by omega) (by omega)
  · rw [hdown]
    exact adjacent_of_coords (by omega) (by omega) (.inl ⟨rfl, .inr rfl⟩)
  · exact coords_lt (c := c + 2) (by omega) (by omega)
  · exact adjacent_of_coords (c := c + 2) (by omega) (by omega) (.inr ⟨rfl, .inr rfl⟩)
  · omega
  · exact adjacent_of_coords (c := c) (by omega) (by omega) (.inr ⟨rfl, .inl rfl⟩)

end

end SystemsProjects.Snake
