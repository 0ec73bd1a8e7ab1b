/-
SystemsProjects.Snake.NullCells — the loops of `decompress_board_str`
behind a null pointer.

`malloc` is not tested, so the decoder reads the rows in any case. The
first cell that a row would set is then a fault; a board whose rows stop
the decoder before it sets a cell is decoded as it would be with an array.
-/
import SystemsProjects.Snake.BoardDecoding

namespace SystemsProjects.Snake.Setup

open SystemsProjects.Base

/-- Ends in a fault of the string or of a missing cell. -/
def Faults {α : Type} (r : Except Fault α) : Prop :=
  r = .error .signedOverflow ∨ r = .error .outOfBounds

theorem Faults.bind {α β : Type} {r : Except Fault α} (h : Faults r) (f : α → Except Fault β) :
    Faults (r >>= f) := by
  rcases h with rfl | rfl
  · exact .inl rfl
  · exact .inr rfl

theorem Faults.ne_ok {α : Type} {r : Except Fault α} (h : Faults r) (a : α) : r ≠ .ok a := by
  rcases h with rfl | rfl <;> nofun

section Null

variable {j k m r fuel : Nat} {d : Decoding} {s token : List Char}

/-- The first cell of a run cannot be set. -/
theorem fillCells_null (hcells : d.cells = []) (hj : j ≤ d.width * d.height) (flag : Char)
    (n : Nat) :
    fillCells flag j n d =
      if (fillProgress flag (d.width * d.height - j) n).cells = [] then
        .ok ((fillProgress flag (d.width * d.height - j) n).stop.getD .success, d)
      else .error .outOfBounds := by
  cases n with
  | zero =>
    rw [fillCells, fillProgress]
    rfl
  | succ n =>
    rcases Nat.eq_or_lt_of_le hj with heq | hlt
    · conv_lhs => unfold fillCells
      rw [if_pos (Nat.le_of_eq heq.symm), heq, Nat.sub_self]
      rfl
    · obtain ⟨room, hroom⟩ : ∃ room, d.width * d.height - j = room + 1 :=
        ⟨d.width * d.height - j - 1, by omega⟩
      have hwrite : ∀ v, writeCell d.cells j v = .error .outOfBounds := by
        intro v
        rw [hcells]
        rfl
      rw [hroom, fillProgress]
      conv_lhs => unfold fillCells
      rw [if_neg (Nat.not_le.mpr hlt)]
      unfold cellOf
      split
      · simp [hwrite]
      · simp [hwrite]
      · simp [hwrite]
      · simp [hwrite]
      · simp [*]

/-- A run that sets no cell is empty or stops, with an error. -/
theorem fillProgress_nil {flag : Char} {room n : Nat} (hn : n ≠ 0)
    (hcells : (fillProgress flag room n).cells = []) :
    ∃ st, (fillProgress flag room n).stop = some st ∧ st.IsError ∧
      (room = 0 ∨ cellOf flag = none) := by
  obtain ⟨n, rfl⟩ : ∃ m, n = m + 1 := ⟨n - 1, by omega⟩
  cases room with
  | zero => exact ⟨.errIncorrectDimensions, rfl, .inl rfl, .inl rfl⟩
  | succ room =>
    cases hv : cellOf flag with
    | none =>
      rw [fillProgress, hv]
      exact ⟨.errBadChar, rfl, .inr (.inr rfl), .inr rfl⟩
    | some v =>
      rw [fillProgress, hv] at hcells
      cases hcells

theorem rowProgress_zero {room : Nat} {run : Run} (hzero : run.count = 0) (rest : List Run) :
    rowProgress room (run :: rest) = rowProgress room rest := by
  rw [rowProgress, Run.progress, hzero, fillProgress, Progress.andThen_of_none rfl]
  rfl

theorem rowProgress_nil_iff {room : Nat} {run : Run} (hne : run.count ≠ 0) (rest : List Run) :
    (rowProgress room (run :: rest)).cells = [] ↔ (run.progress room).cells = [] := by
  rw [rowProgress]
  constructor
  · intro h
    cases hstop : (run.progress room).stop with
    | none =>
      rw [Progress.andThen_of_none hstop] at h
      exact (List.append_eq_nil_iff.mp h).1
    | some st => rwa [Progress.andThen_of_some hstop] at h
  · intro h
    obtain ⟨st, hstop, -⟩ := fillProgress_nil hne h
    have hstop : (run.progress room).stop = some st := hstop
    rwa [Progress.andThen_of_some hstop]

/-- An empty run is painted anywhere on the board. -/
theorem runPaints_of_empty {total : Nat} {run : Run} (hzero : run.count = 0) (hj : j ≤ total)
    (hk : k ≤ INT_MAX) : RunPaints total j k run ∧ run.snakes = 0 := by
  have hnone : run.snakes = 0 := by
    rw [Run.snakes, snakesOf, hzero]
    split <;> rfl
  exact ⟨⟨.inl hzero, by omega, by omega, by omega⟩, hnone⟩

theorem rowOverflows_zero {total : Nat} {run : Run} (hzero : run.count = 0) (hj : j ≤ total)
    (hk : k ≤ INT_MAX) (rest : List Run) :
    RowOverflows total j k (run :: rest) ↔ RowOverflows total j k rest := by
  obtain ⟨hpaints, hnone⟩ := runPaints_of_empty hzero hj hk
  rw [RowOverflows, hzero, hnone]
  constructor
  · rintro (hbig | ⟨-, hmany⟩ | ⟨-, hrest⟩)
    · omega
    · omega
    · exact hrest
  · exact fun h => .inr (.inr ⟨hpaints, h⟩)

/-- A run that is not empty and sets no cell does not overflow. -/
theorem not_rowOverflows {total : Nat} {run : Run} (hne : run.count ≠ 0)
    (hsmall : run.count ≤ INT_MAX) (hj : j ≤ total) (hk : k ≤ INT_MAX)
    (hcells : (run.progress (total - j)).cells = []) (rest : List Run) :
    ¬ RowOverflows total j k (run :: rest) := by
  obtain ⟨st, -, -, hwhy⟩ := fillProgress_nil hne hcells
  rw [RowOverflows]
  rintro (hbig | ⟨hS, hmany⟩ | ⟨hpaints, -⟩)
  · omega
  · rcases hwhy with hroom | hflag
    · omega
    · rw [hS] at hflag
      cases hflag
  · have hfits := hpaints.fits
    rcases hwhy with hroom | hflag
    · omega
    · have hknown := hpaints.known.resolve_left hne
      rw [hflag] at hknown
      cases hknown

/-- A row of empty runs is passed over. -/
theorem rowLoop_null_cons (hcells : d.cells = []) (hj : j ≤ d.width * d.height) (flag : Char)
    (s : List Char) (fuel m : Nat) :
    rowLoop (fuel + 1) (flag :: s) j m d =
      if decimal (s.takeWhile isDigit) = 0 then rowLoop fuel (s.dropWhile isDigit) j m d
      else if INT_MAX < decimal (s.takeWhile isDigit) then .error .signedOverflow
      else if (fillProgress flag (d.width * d.height - j)
          (decimal (s.takeWhile isDigit))).cells = [] then
        .ok ((fillProgress flag (d.width * d.height - j)
          (decimal (s.takeWhile isDigit))).stop.getD .success, j, m, d)
      else .error .outOfBounds := by
  rw [rowLoop_cons]
  by_cases hzero : decimal (s.takeWhile isDigit) = 0
  · rw [if_pos hzero, hzero, if_pos (Nat.zero_le _), fillCells, pure_bind]
    rfl
  · rw [if_neg hzero]
    by_cases hbig : INT_MAX < decimal (s.takeWhile isDigit)
    · rw [if_pos hbig, if_neg (Nat.not_le.mpr hbig)]
    · rw [if_neg hbig, if_pos (Nat.not_lt.mp hbig), fillCells_null hcells hj]
      by_cases hnil : (fillProgress flag (d.width * d.height - j)
          (decimal (s.takeWhile isDigit))).cells = []
      · obtain ⟨st, hstop, herr, -⟩ := fillProgress_nil hzero hnil
        rw [if_pos hnil, if_pos hnil, hstop, ok_bind]
        exact if_pos herr.ne_success
      · rw [if_neg hnil, if_neg hnil, error_bind]

/-- The row faults where it would set a cell, or overflows. -/
theorem rowLoop_null_faults (hfuel : token.length < fuel) (hcells : d.cells = [])
    (hj : j ≤ d.width * d.height) (hk : k ≤ INT_MAX)
    (h : RowOverflows (d.width * d.height) j k (runs token) ∨
      (rowProgress (d.width * d.height - j) (runs token)).cells ≠ []) :
    Faults (rowLoop fuel token j m d) := by
  induction fuel generalizing token with
  | zero => omega
  | succ fuel ih =>
    cases token with
    | nil => exact (h.resolve_left id rfl).elim
    | cons flag s =>
      have hshort := length_dropWhile_lt flag s
      rw [runs_cons] at h
      rw [rowLoop_null_cons hcells hj]
      by_cases hzero : Run.count ⟨flag, s.takeWhile isDigit⟩ = 0
      · rw [rowOverflows_zero hzero hj hk, rowProgress_zero hzero] at h
        have hzero : decimal (s.takeWhile isDigit) = 0 := hzero
        rw [if_pos hzero]
        exact ih (by omega) h
      · have hne : ¬ decimal (s.takeWhile isDigit) = 0 := hzero
        rw [if_neg hne]
        split
        · exact .inl rfl
        · rename_i hsmall
          split
          · rename_i hnil
            rw [ne_eq, rowProgress_nil_iff hzero] at h
            exact absurd hnil (h.resolve_left
              (not_rowOverflows hzero (Nat.not_lt.mp hsmall) hj hk hnil _))
          · exact .inr rfl

/-- Otherwise it stops as it does with an array. -/
theorem rowLoop_null (hfuel : token.length < fuel) (hcells : d.cells = [])
    (hj : j ≤ d.width * d.height) (hk : k ≤ INT_MAX)
    (hover : ¬ RowOverflows (d.width * d.height) j k (runs token))
    (hnil : (rowProgress (d.width * d.height - j) (runs token)).cells = []) :
    rowLoop fuel token j m d = .ok
        ((rowProgress (d.width * d.height - j) (runs token)).stop.getD .success, j, m, d) ∧
      (∀ st, (rowProgress (d.width * d.height - j) (runs token)).stop = some st → st.IsError) ∧
      ((rowProgress (d.width * d.height - j) (runs token)).stop = none →
        cellCount (runs token) = 0) := by
  induction fuel generalizing token with
  | zero => omega
  | succ fuel ih =>
    cases token with
    | nil =>
      refine ⟨rfl, fun st hstop => ?_, fun _ => rfl⟩
      cases hstop
    | cons flag s =>
      have hshort := length_dropWhile_lt flag s
      rw [runs_cons] at hover hnil ⊢
      rw [rowLoop_null_cons hcells hj]
      by_cases hzero : Run.count ⟨flag, s.takeWhile isDigit⟩ = 0
      · rw [rowOverflows_zero hzero hj hk] at hover
        rw [rowProgress_zero hzero] at hnil ⊢
        obtain ⟨hloop, herr, hcount⟩ := ih (by omega) hover hnil
        have hskip : decimal (s.takeWhile isDigit) = 0 := hzero
        rw [if_pos hskip]
        refine ⟨hloop, herr, fun hstop => ?_⟩
        rw [cellCount_cons, hcount hstop]
        exact hzero
      · have hsmall : ¬ INT_MAX < decimal (s.takeWhile isDigit) := fun hbig => hover (.inl hbig)
        rw [rowProgress_nil_iff hzero] at hnil
        obtain ⟨st, hstop, herr, -⟩ := fillProgress_nil hzero hnil
        have hstop' : (Run.progress (d.width * d.height - j) ⟨flag, s.takeWhile isDigit⟩).stop =
          some st := hstop
        have hne : ¬ decimal (s.takeWhile isDigit) = 0 := hzero
        have hnil : (fillProgress flag (d.width * d.height - j)
            (decimal (s.takeWhile isDigit))).cells = [] := hnil
        have hfill : (fillProgress flag (d.width * d.height - j)
            (decimal (s.takeWhile isDigit))).stop = some st := hstop
        rw [if_neg hne, if_neg hsmall, if_pos hnil, rowProgress, Progress.andThen_of_some hstop',
          hstop', hfill]
        refine ⟨rfl, fun st' hst => ?_, fun hnone => ?_⟩
        · cases hst
          exact herr
        · cases hnone


/-- A row without cells is painted anywhere on the board. -/
theorem rowPaints_of_empty {total : Nat} {rs : List Run} (hempty : cellCount rs = 0)
    (hj : j ≤ total) (hk : k ≤ INT_MAX) : RowPaints total j k rs ∧ snakeCount rs = 0 := by
  induction rs with
  | nil => exact ⟨⟨by simp, by simp, hj, hk⟩, rfl⟩
  | cons run rest ih =>
    rw [cellCount_cons, Nat.add_eq_zero_iff] at hempty
    obtain ⟨hrun, hfew⟩ := runPaints_of_empty hempty.1 hj hk
    obtain ⟨hrest, hnone⟩ := ih hempty.2
    refine ⟨rowPaints_cons.mpr ⟨hrun, ?_⟩, ?_⟩
    · rwa [hempty.1, hfew]
    · rw [snakeCount_cons, hfew, hnone]

/-- A board that sets no cell sets none in its first row. -/
theorem boardProgress_nil {width room : Nat} {row : List Run} {rows : List (List Run)}
    (h : (boardProgress width room (row :: rows)).cells = []) :
    (rowProgress room row).cells = [] := by
  rw [boardProgress] at h
  cases hstop : (rowProgress room row).stop with
  | none =>
    rw [Progress.andThen_of_none hstop] at h
    exact (List.append_eq_nil_iff.mp h).1
  | some st => rwa [Progress.andThen_of_some hstop] at h

/-- **The rows behind a null pointer.** They fault where they would set a
cell, or overflow; otherwise they end as they do with an array. -/
theorem boardLoop_null (hfuel : s.length < fuel) (hcells : d.cells = [])
    (hj : j ≤ d.width * d.height) (hk : k ≤ INT_MAX) :
    ((BoardOverflows (d.width * d.height) d.width j k (rowsOf s) ∨
        (boardProgress d.width (d.width * d.height - j) (rowsOf s)).cells ≠ []) →
      Faults (boardLoop fuel s r j d)) ∧
    (¬ BoardOverflows (d.width * d.height) d.width j k (rowsOf s) →
      (boardProgress d.width (d.width * d.height - j) (rowsOf s)).cells = [] →
      boardLoop fuel s r j d = .ok
        ((boardProgress d.width (d.width * d.height - j) (rowsOf s)).stop.getD
          (verdict (r + (rowsOf s).length) d), d)) := by
  induction fuel generalizing s r with
  | zero => omega
  | succ fuel ih =>
    obtain ⟨hnil, hs⟩ | ⟨token, rest, -, hcons, hs, hshort⟩ := strtok_eq s
    · rw [rowsOf, hnil]
      refine ⟨fun h => (h.resolve_left id rfl).elim, fun _ _ => ?_⟩
      rw [boardLoop_none hs]
      rfl
    · rw [rowsOf, hcons, List.map_cons, boardLoop_some hs]
      by_cases hrow : RowOverflows (d.width * d.height) j k (runs token) ∨
          (rowProgress (d.width * d.height - j) (runs token)).cells ≠ []
      · have hfault := rowLoop_null_faults (m := 0) (Nat.lt_succ_self _) hcells hj hk hrow
        refine ⟨fun _ => hfault.bind _, fun hover hnil => ?_⟩
        rcases hrow with hrow | hrow
        · exact absurd (.inl hrow) hover
        · exact absurd (boardProgress_nil hnil) hrow
      · obtain ⟨hover, hnone⟩ := not_or.mp hrow
        rw [not_not] at hnone
        obtain ⟨hloop, herr, hempty⟩ :=
          rowLoop_null (m := 0) (Nat.lt_succ_self _) hcells hj hk hover hnone
        cases hstop : (rowProgress (d.width * d.height - j) (runs token)).stop with
        | some st =>
          -- the row stops the decoder
          rw [hstop] at hloop
          rw [hloop, ok_bind, boardProgress, Progress.andThen_of_some hstop, hnone, hstop]
          refine ⟨?_, fun _ _ => if_pos (herr st hstop).ne_success⟩
          rintro (hover' | hcells')
          · rcases hover' with hfirst | ⟨hpaints, -⟩
            · exact absurd hfirst hover
            · rw [rowProgress_of_paints hpaints] at hstop
              cases hstop
          · exact absurd rfl hcells'
        | none =>
          -- the row is made of empty runs
          rw [hstop] at hloop
          have hskip : rowLoop (token.length + 1) token j 0 d = .ok (.success, j, 0, d) := hloop
          have hzero := hempty hstop
          obtain ⟨hpaints, hsnakes⟩ := rowPaints_of_empty hzero hj hk
          rw [hskip, ok_bind, if_neg (by simp), boardProgress, Progress.andThen_of_none hstop,
            hnone, List.nil_append, BoardOverflows, hzero, hsnakes]
          by_cases hwidth : 0 = d.width
          · obtain ⟨hfaults, hends⟩ := ih (s := rest) (r := r + 1) (by omega)
            rw [if_pos hwidth, if_neg (not_not_intro hwidth)]
            constructor
            · rintro (hfirst | hcells')
              · rcases hfirst with hfirst | ⟨-, -, hlater⟩
                · exact absurd hfirst hover
                · exact hfaults (.inl hlater)
              · exact hfaults (.inr hcells')
            · intro hlater hnil
              rw [List.length_cons, Nat.add_comm (List.length _) 1, ← Nat.add_assoc]
              exact hends (fun h => hlater (.inr ⟨hpaints, hwidth, h⟩)) hnil
          · rw [if_neg hwidth]
            refine ⟨?_, fun _ _ => if_pos hwidth⟩
            rintro (hfirst | hcells')
            · rcases hfirst with hfirst | ⟨-, hw, -⟩
              · exact absurd hfirst hover
              · exact absurd hw hwidth
            · exact absurd rfl hcells'

end Null

end SystemsProjects.Snake.Setup
