/-
SystemsProjects.Base.Transfer — moving a buffer in pieces.

A loop that asks the operating system to move what is left of a buffer
until nothing is left, gives up when a call fails, and may give up when a
clock says so. `transferLoop_cases` is its invariant rule, one case per
way the loop ends; `transferLoop_returns` says that only a call can stop
the program.

The second half is the byte order of words: little-endian encoding, and
the byte swap of 32-bit words that network order needs on such a machine.

Nothing here names the programs of this repository.
-/
import Mathlib.Data.List.Basic
import Mathlib.Algebra.Group.Nat.Defs
import Mathlib.Algebra.Group.Int.Defs

namespace SystemsProjects.Base

/-! ## The loop -/

/-- The conversion to a 32-bit `int`. -/
def toInt32 (n : Nat) : Int :=
  if n % 2 ^ 32 < 2 ^ 31 then (n % 2 ^ 32 : Nat) else (n % 2 ^ 32 : Nat) - 2 ^ 32

theorem toInt32_of_lt {n : Nat} (h : n < 2 ^ 31) : toInt32 n = n := by
  unfold toInt32
  rw [Nat.mod_eq_of_lt (by omega), if_pos h]

theorem toInt32_toNat_le (n : Nat) : (toInt32 n).toNat ≤ n := by
  unfold toInt32
  split <;> omega

/-- Of a 32-bit number the conversion keeps the value or makes it
negative. -/
theorem toInt32_neg_or_eq {n : Nat} (h : n < 2 ^ 32) : toInt32 n < 0 ∨ toInt32 n = n := by
  unfold toInt32
  rw [Nat.mod_eq_of_lt h]
  split
  · exact .inr rfl
  · exact .inl (by omega)

theorem toInt32_ne_zero {n : Nat} (hpos : 0 < n) (h : n < 2 ^ 32) : toInt32 n ≠ 0 := by
  rcases toInt32_neg_or_eq h with hneg | heq
  · omega
  · omega

/-- A value that survives the conversion is below 2^31. -/
theorem lt_of_toInt32 {n m : Nat} (h : toInt32 n = m) : m < 2 ^ 31 := by
  unfold toInt32 at h
  split at h <;> omega

variable {ε σ : Type}

/-- `while (done < len) { if (late) return onTimeout; curr = call;
if (curr <= 0) return curr; done += curr; } return done;` with an `int`
result; a call can also stop the program. -/
def transferLoop (late : σ → Bool × σ) (onTimeout : Int) (call : Nat → σ → Except ε (Int × σ))
    (len : Nat) : Nat → Nat → σ → Except ε (Int × σ)
  | 0, done, s => .ok (toInt32 done, s)
  | fuel + 1, done, s =>
    if done < len then
      if (late s).1 then .ok (onTimeout, (late s).2)
      else
        match call done (late s).2 with
        | .error e => .error e
        | .ok (curr, s) =>
          if curr ≤ 0 then .ok (curr, s)
          else transferLoop late onTimeout call len fuel (done + curr.toNat) s
    else .ok (toInt32 done, s)

/-- Move `len` bytes: each round moves at least one. -/
def transferAll (late : σ → Bool × σ) (onTimeout : Int) (call : Nat → σ → Except ε (Int × σ))
    (len : Nat) (s : σ) : Except ε (Int × σ) :=
  transferLoop late onTimeout call len len 0 s

variable {late : σ → Bool × σ} {onTimeout : Int} {call : Nat → σ → Except ε (Int × σ)}
  {len : Nat} {I : Nat → σ → Prop}

/-- The loop ends with everything moved, late with part of it moved, or
with a call that fails where part of it is moved. -/
theorem transferLoop_cases
    (hlate : ∀ done s, done < len → I done s → I done (late s).2)
    (hcall : ∀ done s r s', done < len → I done s → call done s = .ok (r, s') → 0 < r →
      done + r.toNat ≤ len ∧ I (done + r.toNat) s')
    {fuel done : Nat} {s s' : σ} {r : Int} (hle : done ≤ len) (hfuel : len ≤ fuel + done)
    (hI : I done s) (h : transferLoop late onTimeout call len fuel done s = .ok (r, s')) :
    (r = toInt32 len ∧ I len s') ∨
    (∃ done s₀, done < len ∧ I done s₀ ∧ (late s₀).1 = true ∧ r = onTimeout ∧ s' = (late s₀).2) ∨
    (∃ done s₀, done < len ∧ I done s₀ ∧ call done s₀ = .ok (r, s') ∧ r ≤ 0) := by
  induction fuel generalizing done s with
  | zero =>
    simp only [transferLoop, Except.ok.injEq, Prod.mk.injEq] at h
    obtain ⟨rfl, rfl⟩ := h
    obtain rfl : done = len := by omega
    exact .inl ⟨rfl, hI⟩
  | succ fuel ih =>
    rw [transferLoop] at h
    split at h
    · rename_i hlt
      have hI' := hlate done s hlt hI
      split at h
      · rename_i ht
        simp only [Except.ok.injEq, Prod.mk.injEq] at h
        obtain ⟨rfl, rfl⟩ := h
        exact .inr (.inl ⟨done, s, hlt, hI, ht, rfl, rfl⟩)
      · split at h
        · cases h
        · rename_i curr s₁ hc
          split at h
          · rename_i hnonpos
            simp only [Except.ok.injEq, Prod.mk.injEq] at h
            obtain ⟨rfl, rfl⟩ := h
            exact .inr (.inr ⟨done, _, hlt, hI', hc, hnonpos⟩)
          · rename_i hpos
            rw [Int.not_le] at hpos
            obtain ⟨hle', hI''⟩ := hcall done _ curr s₁ hlt hI' hc hpos
            exact ih hle' (by omega) hI'' h
    · simp only [Except.ok.injEq, Prod.mk.injEq] at h
      obtain ⟨rfl, rfl⟩ := h
      obtain rfl : done = len := by omega
      exact .inl ⟨rfl, hI⟩

/-- Calls that do not stop the program let the loop return. -/
theorem transferLoop_returns (hcall : ∀ done s, ∃ r s', call done s = .ok (r, s'))
    (fuel done : Nat) (s : σ) :
    ∃ r s', transferLoop late onTimeout call len fuel done s = .ok (r, s') := by
  induction fuel generalizing done s with
  | zero => exact ⟨_, _, rfl⟩
  | succ fuel ih =>
    obtain ⟨curr, s₁, hc⟩ := hcall done (late s).2
    rw [transferLoop]
    split
    · split
      · exact ⟨_, _, rfl⟩
      · simp only [hc]
        split
        · exact ⟨_, _, rfl⟩
        · exact ih _ _
    · exact ⟨_, _, rfl⟩

/-- Whatever the calls do, a positive result is the number of bytes asked
for. -/
theorem transferAll_result (hlate : onTimeout ≤ 0)
    (hcall : ∀ done s r s', done < len → call done s = .ok (r, s') → 0 < r →
      done + r.toNat ≤ len)
    {s s' : σ} {r : Int} (h : transferAll late onTimeout call len s = .ok (r, s')) :
    r = toInt32 len ∨ r ≤ 0 := by
  have hcases := transferLoop_cases (I := fun _ _ => True) (fun _ _ _ _ => trivial)
    (fun done s r s' hlt _ hc hpos => ⟨hcall done s r s' hlt hc hpos, trivial⟩)
    (Nat.zero_le len) (Nat.le_refl len) trivial h
  rcases hcases with ⟨hr, -⟩ | ⟨_, _, -, -, -, hr, -⟩ | ⟨_, _, -, -, -, hr⟩
  · exact .inl hr
  · exact .inr (hr ▸ hlate)
  · exact .inr hr

/-! ## Byte order -/

/-- The `n` bytes of a word in little-endian order. -/
def encodeLE : Nat → Nat → List UInt8
  | 0, _ => []
  | n + 1, v => UInt8.ofNat v :: encodeLE n (v / 256)

/-- The word some bytes encode in little-endian order. -/
def decodeLE : List UInt8 → Nat
  | [] => 0
  | b :: bs => b.toNat + 256 * decodeLE bs

@[simp] theorem length_encodeLE (n v : Nat) : (encodeLE n v).length = n := by
  induction n generalizing v with
  | zero => rfl
  | succ n ih => rw [encodeLE, List.length_cons, ih]

theorem decodeLE_encodeLE (n v : Nat) : decodeLE (encodeLE n v) = v % 256 ^ n := by
  induction n generalizing v with
  | zero => rw [Nat.pow_zero, Nat.mod_one]; rfl
  | succ n ih =>
    rw [encodeLE, decodeLE, ih, UInt8.toNat_ofNat']
    change v % 256 + 256 * (v / 256 % 256 ^ n) = _
    rw [Nat.pow_succ', Nat.mod_mul]

theorem encodeLE_decodeLE (bs : List UInt8) : encodeLE bs.length (decodeLE bs) = bs := by
  induction bs with
  | nil => rfl
  | cons b bs ih =>
    have hb : b.toNat < 256 := b.toNat_lt
    have hlow : UInt8.ofNat (b.toNat + 256 * decodeLE bs) = b := by
      refine UInt8.toNat_inj.mp ?_
      rw [UInt8.toNat_ofNat']
      omega
    have hhigh : (b.toNat + 256 * decodeLE bs) / 256 = decodeLE bs := by omega
    rw [List.length_cons, decodeLE, encodeLE, hlow, hhigh, ih]

/-- `htonl` and `ntohl` on a little-endian machine: the argument is cut to
32 bits and its bytes are reversed. -/
def byteSwap32 (v : Nat) : Nat := decodeLE (encodeLE 4 v).reverse

theorem encodeLE_byteSwap32 (v : Nat) : encodeLE 4 (byteSwap32 v) = (encodeLE 4 v).reverse := by
  have h := encodeLE_decodeLE (encodeLE 4 v).reverse
  rwa [List.length_reverse, length_encodeLE] at h

theorem byteSwap32_twice (v : Nat) : byteSwap32 (byteSwap32 v) = v % 2 ^ 32 := by
  calc byteSwap32 (byteSwap32 v)
      = decodeLE (encodeLE 4 (byteSwap32 v)).reverse := rfl
    _ = decodeLE (encodeLE 4 v) := by rw [encodeLE_byteSwap32, List.reverse_reverse]
    _ = v % 2 ^ 32 := decodeLE_encodeLE 4 v

theorem byteSwap32_lt (v : Nat) : byteSwap32 v < 2 ^ 32 := by
  have h := decodeLE_encodeLE 4 (byteSwap32 v)
  rw [encodeLE_byteSwap32] at h
  have hv : byteSwap32 v = byteSwap32 v % 256 ^ 4 := h
  rw [hv]
  exact Nat.mod_lt _ (by decide)

end SystemsProjects.Base
