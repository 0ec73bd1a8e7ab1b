/-
SystemsProjects.Snake.BoardFormat — the text of a compressed board, and
how the loops of game_setup.c read it.

A board string is cut twice: at the bars into tokens (`tokens`), and a
token into runs, a character and the digits after it (`runs`). Nothing is
said about the characters here. Each reading function of game_setup.c has
one lemma against these cuts: `strtok_eq`, `readCount_eq`,
`setDimensionsLoop_eq`.
-/
import SystemsProjects.Base.Fallible
import SystemsProjects.Snake.GameSetup

namespace SystemsProjects.Snake.Setup

open SystemsProjects.Base

/-! ## Numbers -/

/-- The value of digits read after `n`. -/
def decimalFrom (n : Nat) (digits : List Char) : Nat := digits.foldl pushDigit n

/-- The value of a decimal number; 0 without digits. -/
def decimal (digits : List Char) : Nat := decimalFrom 0 digits

theorem le_pushDigit (n : Nat) (c : Char) : n ≤ pushDigit n c := by
  unfold pushDigit
  omega

theorem le_decimalFrom (n : Nat) (digits : List Char) : n ≤ decimalFrom n digits := by
  induction digits generalizing n with
  | nil => exact Nat.le_refl n
  | cons c digits ih => exact Nat.le_trans (le_pushDigit n c) (ih _)

theorem toInt_of_le {n : Nat} (h : n ≤ INT_MAX) : toInt n = .ok n := if_pos h

theorem toInt_of_lt {n : Nat} (h : INT_MAX < n) : toInt n = .error .signedOverflow :=
  if_neg (Nat.not_le.mpr h)

/-- A count is read to its last digit, unless it exceeds an `int`. -/
theorem readCount_eq {n : Nat} (hn : n ≤ INT_MAX) (s : List Char) :
    readCount n s =
      if decimalFrom n (s.takeWhile isDigit) ≤ INT_MAX then
        .ok (decimalFrom n (s.takeWhile isDigit), s.dropWhile isDigit)
      else .error .signedOverflow := by
  induction s generalizing n with
  | nil => exact (if_pos hn).symm
  | cons c rest ih =>
    rw [readCount]
    by_cases hc : isDigit c = true
    · rw [if_pos hc, List.takeWhile_cons_of_pos hc, List.dropWhile_cons_of_pos hc]
      rcases Nat.lt_or_ge INT_MAX (pushDigit n c) with hlt | hle
      · have hover := Nat.lt_of_lt_of_le hlt (le_decimalFrom _ (rest.takeWhile isDigit))
        rw [toInt_of_lt hlt, error_bind]
        exact (if_neg (Nat.not_le.mpr hover)).symm
      · rw [toInt_of_le hle, ok_bind, ih hle]
        rfl
    · rw [if_neg hc, List.takeWhile_cons_of_neg hc, List.dropWhile_cons_of_neg hc]
      exact (if_pos hn).symm

/-! ## Tokens -/

/-- The pieces of a string between its bars. -/
def segments : List Char → List (List Char)
  | [] => [[]]
  | c :: rest =>
    if c = '|' then [] :: segments rest
    else
      match segments rest with
      | [] => [[c]]
      | seg :: segs => (c :: seg) :: segs

/-- The pieces that are not empty. -/
def tokens (s : List Char) : List (List Char) := (segments s).filter (· ≠ [])

/-- The first piece ends at the first bar. -/
theorem segments_eq (s : List Char) :
    segments s = s.takeWhile (· ≠ '|') ::
      (match s.dropWhile (· ≠ '|') with
        | [] => []
        | _ :: rest => segments rest) := by
  induction s with
  | nil => rfl
  | cons c rest ih =>
    rw [segments]
    by_cases hc : c = '|'
    · simp [hc]
    · rw [if_neg hc, ih]
      simp [hc]

theorem takeWhile_stops {α : Type} {p : α → Bool} {a b : List α} (ha : ∀ c ∈ a, p c = true)
    (hb : ∀ c, b.head? = some c → p c = false) : (a ++ b).takeWhile p = a := by
  rw [List.takeWhile_append_of_pos ha]
  cases b with
  | nil => simp
  | cons c b => simp [hb c rfl]

theorem dropWhile_stops {α : Type} {p : α → Bool} {a b : List α} (ha : ∀ c ∈ a, p c = true)
    (hb : ∀ c, b.head? = some c → p c = false) : (a ++ b).dropWhile p = b := by
  rw [List.dropWhile_append_of_pos ha]
  cases b with
  | nil => simp
  | cons c b => simp [hb c rfl]

theorem segments_bar {a : List Char} (ha : ∀ c ∈ a, c ≠ '|') (b : List Char) :
    segments (a ++ '|' :: b) = a :: segments b := by
  have hne : ∀ c ∈ a, decide (c ≠ '|') = true := fun c hc => decide_eq_true (ha c hc)
  rw [segments_eq, takeWhile_stops hne (by simp), dropWhile_stops hne (by simp)]

theorem segments_last {a : List Char} (ha : ∀ c ∈ a, c ≠ '|') : segments a = [a] := by
  have hne : ∀ c ∈ a, decide (c ≠ '|') = true := fun c hc => decide_eq_true (ha c hc)
  have htake := takeWhile_stops (b := []) hne (by simp)
  have hdrop := dropWhile_stops (b := []) hne (by simp)
  rw [List.append_nil] at htake hdrop
  rw [segments_eq, htake, hdrop]

theorem tokens_bar (s : List Char) : tokens ('|' :: s) = tokens s := by
  simp [tokens, segments]

/-- `strtok` takes the next token. -/
theorem strtok_eq (s : List Char) :
    (tokens s = [] ∧ strtok s = none) ∨
      ∃ token rest, token ≠ [] ∧ tokens s = token :: tokens rest ∧ strtok s = some (token, rest) ∧
        rest.length < s.length := by
  induction s with
  | nil => exact .inl ⟨rfl, rfl⟩
  | cons c s ih =>
    by_cases hc : c = '|'
    · subst hc
      have hskip : strtok ('|' :: s) = strtok s := by simp [strtok]
      rw [tokens_bar, hskip]
      refine ih.imp_right fun ⟨token, rest, h⟩ => ⟨token, rest, h.1, h.2.1, h.2.2.1, ?_⟩
      rw [List.length_cons]
      omega
    · right
      refine ⟨c :: s.takeWhile (· ≠ '|'), (s.dropWhile (· ≠ '|')).tail, by simp, ?_, ?_, ?_⟩
      · rw [tokens, segments_eq]
        simp only [hc, ne_eq, not_false_eq_true, decide_true, List.takeWhile_cons_of_pos,
          List.dropWhile_cons_of_pos, List.filter_cons]
        cases s.dropWhile (fun x => decide ¬ x = '|') with
        | nil => simp [tokens, segments]
        | cons b rest => simp [tokens]
      · simp [strtok, hc]
      · have h1 := (List.dropWhile_suffix (l := s) (· ≠ '|')).length_le
        have h2 := List.length_tail (l := s.dropWhile (· ≠ '|'))
        rw [List.length_cons]
        omega

/-! ## Runs -/

/-- A character and the digits after it. -/
structure Run where
  flag : Char
  digits : List Char
  deriving DecidableEq, Repr

def Run.count (run : Run) : Nat := decimal run.digits

/-- The runs of a text in which `flag` has just been read. -/
def runsFrom (flag : Char) : List Char → List Run
  | [] => [⟨flag, []⟩]
  | c :: rest =>
    if isDigit c = true then
      match runsFrom flag rest with
      | [] => [⟨flag, [c]⟩]
      | run :: more => ⟨run.flag, c :: run.digits⟩ :: more
    else ⟨flag, []⟩ :: runsFrom c rest

/-- The runs of a token. -/
def runs : List Char → List Run
  | [] => []
  | c :: rest => runsFrom c rest

theorem runs_cons (flag : Char) (s : List Char) :
    runs (flag :: s) = ⟨flag, s.takeWhile isDigit⟩ :: runs (s.dropWhile isDigit) := by
  rw [runs]
  induction s with
  | nil => rfl
  | cons c rest ih =>
    rw [runsFrom]
    by_cases hc : isDigit c = true
    · rw [if_pos hc, ih, List.takeWhile_cons_of_pos hc, List.dropWhile_cons_of_pos hc]
    · rw [if_neg hc, List.takeWhile_cons_of_neg hc, List.dropWhile_cons_of_neg hc]
      rfl

/-! ## The dimensions -/

/-- The text in front of the first bar. -/
def header (s : List Char) : List Char := s.takeWhile (· ≠ '|')

def isHeaderChar (c : Char) : Bool := c = 'B' || c = 'x' || isDigit c

/-- The header consists of digits and the letters `B` and `x`, and a bar
ends it. -/
def headerOk (s : List Char) : Bool := (header s).all isHeaderChar && s.contains '|'

/-- The header up to the first character that is out of place. -/
def readable (s : List Char) : List Char := (header s).takeWhile isHeaderChar

/-- The digits of the height: those in front of the first `x`. -/
def rowDigits (onRows : Bool) (text : List Char) : List Char :=
  if onRows then (text.takeWhile (· ≠ 'x')).filter isDigit else []

/-- The digits of the width: those behind the first `x`. -/
def colDigits (onRows : Bool) (text : List Char) : List Char :=
  if onRows then (text.dropWhile (· ≠ 'x')).filter isDigit else text.filter isDigit

theorem headerOk_cons {c : Char} (hbar : c ≠ '|') (s : List Char) :
    headerOk (c :: s) = (isHeaderChar c && headerOk s) := by
  simp [headerOk, header, hbar, Ne.symm hbar, Bool.and_assoc]

theorem readable_cons {c : Char} (hbar : c ≠ '|') (s : List Char) :
    readable (c :: s) = if isHeaderChar c = true then c :: readable s else [] := by
  simp [readable, header, hbar, List.takeWhile_cons]

/-- An empty text overflows nothing. -/
theorem not_overflow_nil {r k : Nat} (hr : r ≤ INT_MAX) (hk : k ≤ INT_MAX) (onRows : Bool) :
    ¬ (INT_MAX < decimalFrom r (rowDigits onRows []) ∨
      INT_MAX < decimalFrom k (colDigits onRows [])) := by
  cases onRows <;> simp [rowDigits, colDigits, decimalFrom, hr, hk]

/-- `set_dimensions` reads the digits in front of the first character out
of place, and overflows or refuses there. -/
theorem setDimensionsLoop_eq {r k : Nat} (hr : r ≤ INT_MAX) (hk : k ≤ INT_MAX) (onRows : Bool)
    (s : List Char) :
    setDimensionsLoop r k onRows s =
      if INT_MAX < decimalFrom r (rowDigits onRows (readable s)) ∨
          INT_MAX < decimalFrom k (colDigits onRows (readable s)) then .error .signedOverflow
      else if headerOk s = true then
        .ok (some (decimalFrom r (rowDigits onRows (readable s)),
          decimalFrom k (colDigits onRows (readable s))))
      else .ok none := by
  induction s generalizing r k onRows with
  | nil =>
    rw [setDimensionsLoop, show readable [] = [] from rfl, if_neg (not_overflow_nil hr hk onRows)]
    rfl
  | cons c rest ih =>
    rw [setDimensionsLoop]
    by_cases hbar : c = '|'
    · subst hbar
      have hread : readable ('|' :: rest) = [] := by simp [readable, header]
      have hok : headerOk ('|' :: rest) = true := by simp [headerOk, header]
      rw [if_pos rfl, hread, if_neg (not_overflow_nil hr hk onRows), if_pos hok]
      cases onRows <;> rfl
    rw [if_neg hbar, readable_cons hbar, headerOk_cons hbar]
    by_cases hB : c = 'B'
    · subst hB
      rw [if_pos rfl, ih hr hk onRows]
      cases onRows <;> rfl
    rw [if_neg hB]
    by_cases hx : c = 'x'
    · subst hx
      rw [if_pos rfl, ih hr hk false]
      cases onRows <;> rfl
    rw [if_neg hx]
    by_cases hd : isDigit c = true
    · have hchar : isHeaderChar c = true := by simp [isHeaderChar, hd]
      rw [if_neg (by simp [hd]), hchar, if_pos rfl, Bool.true_and]
      cases onRows with
      | true =>
        have hrows : rowDigits true (c :: readable rest) = c :: rowDigits true (readable rest) := by
          simp [rowDigits, hx, hd]
        have hcols : colDigits true (c :: readable rest) = colDigits true (readable rest) := by
          simp [colDigits, hx]
        rw [hrows, hcols]
        rcases Nat.lt_or_ge INT_MAX (pushDigit r c) with hlt | hle
        · have hover := Nat.lt_of_lt_of_le hlt (le_decimalFrom _ (rowDigits true (readable rest)))
          rw [if_pos rfl, toInt_of_lt hlt, error_bind]
          exact (if_pos (.inl hover)).symm
        · rw [if_pos rfl, toInt_of_le hle, ok_bind, ih hle hk]
          rfl
      | false =>
        have hrows : rowDigits false (c :: readable rest) = rowDigits false (readable rest) := rfl
        have hcols : colDigits false (c :: readable rest) =
            c :: colDigits false (readable rest) := by
          simp [colDigits, hd]
        rw [hrows, hcols]
        rcases Nat.lt_or_ge INT_MAX (pushDigit k c) with hlt | hle
        · have hover := Nat.lt_of_lt_of_le hlt (le_decimalFrom _ (colDigits false (readable rest)))
          rw [if_neg (by simp), toInt_of_lt hlt, error_bind]
          exact (if_pos (.inr hover)).symm
        · rw [if_neg (by simp), toInt_of_le hle, ok_bind, ih hr hle]
          rfl
    · have hchar : isHeaderChar c = false := by simp [isHeaderChar, hB, hx, hd]
      have hstop : (if isHeaderChar c = true then c :: readable rest else []) = [] := by
        rw [hchar]
        rfl
      rw [if_pos (Bool.not_eq_true _ ▸ hd), hstop, if_neg (not_overflow_nil hr hk onRows), hchar]
      rfl

end SystemsProjects.Snake.Setup
