/-
SystemsProjects.Base.Numerals — numerals of a fixed width in any base, the
most significant digit first.

`value` and `digits` are inverse to each other between the lists of `g`
digits and the numbers below `b ^ g` (`value_digits`, `digits_value`), and
lists of one length compare as their values do (`value_lt_iff`). Digits
written with the letters of an ascending alphabet keep that order
(`map_lt_iff`).

Nothing here names the programs of this repository.
-/
import Mathlib.Algebra.Group.Nat.Defs
import Mathlib.Algebra.Order.Ring.Nat
import Mathlib.Data.List.Basic

namespace SystemsProjects.Base.Numerals

/-! ## Values -/

/-- The value of a list of digits. -/
def value (b : Nat) : List Nat → Nat
  | [] => 0
  | d :: ds => d * b ^ ds.length + value b ds

/-- The `g` digits of `n`; the first is what is left above them. -/
def digits (b : Nat) : Nat → Nat → List Nat
  | 0, _ => []
  | g + 1, n => n / b ^ g :: digits b g (n % b ^ g)

variable {b g n m : Nat} {ds es : List Nat}

@[simp] theorem length_digits (b g n : Nat) : (digits b g n).length = g := by
  induction g generalizing n with
  | zero => rfl
  | succ g ih => rw [digits, List.length_cons, ih]

/-- Digits below the base have a value below that of the next width. -/
theorem value_lt (h : ∀ d ∈ ds, d < b) : value b ds < b ^ ds.length := by
  induction ds with
  | nil => exact Nat.one_pos
  | cons d ds ih =>
    obtain ⟨hd, hds⟩ := List.forall_mem_cons.mp h
    have hrest := ih hds
    calc value b (d :: ds) = d * b ^ ds.length + value b ds := rfl
      _ < d * b ^ ds.length + b ^ ds.length := Nat.add_lt_add_left hrest _
      _ = (d + 1) * b ^ ds.length := (Nat.succ_mul _ _).symm
      _ ≤ b * b ^ ds.length := Nat.mul_le_mul_right _ hd
      _ = b ^ (ds.length + 1) := by rw [Nat.pow_succ, Nat.mul_comm]

theorem digits_lt (hb : 0 < b) (hn : n < b ^ g) : ∀ d ∈ digits b g n, d < b := by
  induction g generalizing n with
  | zero => exact fun d hd => absurd hd List.not_mem_nil
  | succ g ih =>
    have hpow : 0 < b ^ g := Nat.pow_pos hb
    refine List.forall_mem_cons.mpr ⟨?_, ih (Nat.mod_lt _ hpow)⟩
    rw [Nat.pow_succ, Nat.mul_comm] at hn
    exact Nat.div_lt_of_lt_mul (by rwa [Nat.mul_comm] at hn)

/-- The digits of a number have it as their value. -/
theorem value_digits (hn : n < b ^ g) : value b (digits b g n) = n := by
  induction g generalizing n with
  | zero =>
    rw [Nat.pow_zero] at hn
    exact (Nat.lt_one_iff.mp hn).symm
  | succ g ih =>
    have hb : 0 < b := by
      rcases Nat.eq_zero_or_pos b with rfl | hb
      · simp at hn
      · exact hb
    have hmod : n % b ^ g < b ^ g := Nat.mod_lt _ (Nat.pow_pos hb)
    rw [digits, value, length_digits, ih hmod, Nat.mul_comm]
    exact Nat.div_add_mod n (b ^ g)

/-- The digits of a value are the list it is of. -/
theorem digits_value (h : ∀ d ∈ ds, d < b) : digits b ds.length (value b ds) = ds := by
  induction ds with
  | nil => rfl
  | cons d ds ih =>
    obtain ⟨-, hds⟩ := List.forall_mem_cons.mp h
    have hlt := value_lt hds
    have hpos : 0 < b ^ ds.length := Nat.lt_of_le_of_lt (Nat.zero_le _) hlt
    rw [List.length_cons, digits, value, Nat.add_comm, Nat.add_mul_div_right _ _ hpos,
      Nat.div_eq_of_lt hlt, Nat.zero_add, Nat.add_mul_mod_self_right, Nat.mod_eq_of_lt hlt, ih hds]

/-- **Lists of one length compare as their values do.** -/
theorem value_lt_iff (hlen : ds.length = es.length) (hds : ∀ d ∈ ds, d < b)
    (hes : ∀ d ∈ es, d < b) :
    value b ds < value b es ↔ ds < es := by
  induction ds generalizing es with
  | nil =>
    obtain rfl := List.eq_nil_of_length_eq_zero hlen.symm
    exact iff_of_false (Nat.lt_irrefl _) (List.lt_irrefl _)
  | cons d ds ih =>
    obtain _ | ⟨e, es⟩ := es
    · cases hlen
    · have hlen : ds.length = es.length := Nat.succ.inj hlen
      obtain ⟨-, hds⟩ := List.forall_mem_cons.mp hds
      obtain ⟨-, hes⟩ := List.forall_mem_cons.mp hes
      have hlt := value_lt hds
      have hlt' := value_lt hes
      rw [List.cons_lt_cons_iff, value, value, ← ih hlen hds hes, ← hlen]
      rw [← hlen] at hlt'
      rcases Nat.lt_trichotomy d e with hde | rfl | hde
      · -- the first digit decides
        refine iff_of_true ?_ (.inl hde)
        calc d * b ^ ds.length + value b ds < d * b ^ ds.length + b ^ ds.length :=
              Nat.add_lt_add_left hlt _
          _ = (d + 1) * b ^ ds.length := (Nat.succ_mul _ _).symm
          _ ≤ e * b ^ ds.length := Nat.mul_le_mul_right _ hde
          _ ≤ e * b ^ ds.length + value b es := Nat.le_add_right _ _
      · omega
      · refine iff_of_false (Nat.not_lt.mpr (Nat.le_of_lt ?_)) (by omega)
        calc e * b ^ ds.length + value b es < e * b ^ ds.length + b ^ ds.length :=
              Nat.add_lt_add_left hlt' _
          _ = (e + 1) * b ^ ds.length := (Nat.succ_mul _ _).symm
          _ ≤ d * b ^ ds.length := Nat.mul_le_mul_right _ hde
          _ ≤ d * b ^ ds.length + value b ds := Nat.le_add_right _ _

/-! ## Alphabets -/

section

variable {α : Type} [LT α] {f : Nat → α}

/-- Lists written with letters that ascend with the digits keep their
order. -/
theorem map_lt_iff (hlt : ∀ d < b, ∀ e < b, f d < f e ↔ d < e)
    (heq : ∀ d < b, ∀ e < b, f d = f e → d = e) (hds : ∀ d ∈ ds, d < b) (hes : ∀ d ∈ es, d < b) :
    ds.map f < es.map f ↔ ds < es := by
  induction ds generalizing es with
  | nil =>
    cases es with
    | nil => exact iff_of_false (List.not_lt_nil _) (List.not_lt_nil _)
    | cons e es => exact iff_of_true (List.nil_lt_cons _ _) (List.nil_lt_cons _ _)
  | cons d ds ih =>
    cases es with
    | nil => exact iff_of_false (List.not_lt_nil _) (List.not_lt_nil _)
    | cons e es =>
      obtain ⟨hd, hds⟩ := List.forall_mem_cons.mp hds
      obtain ⟨he, hes⟩ := List.forall_mem_cons.mp hes
      have hfirst : f d = f e ↔ d = e := ⟨heq d hd e he, congrArg f⟩
      rw [List.map_cons, List.map_cons, List.cons_lt_cons_iff, List.cons_lt_cons_iff,
        hlt d hd e he, hfirst, ih hds hes]

end

end SystemsProjects.Base.Numerals
