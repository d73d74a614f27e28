import Masala.Library.Exec
import Mathlib.Data.List.Induction
import Mathlib.Tactic.Ring
import Mathlib.Tactic.Linarith

/-!
# Decimal numerals as bytes

The printer of `%li`, the value of a run of digits and the saturating `atol`
of a 64-bit C library. Printing a natural number and reading it back is the
identity, and the length of a numeral is bounded by its magnitude.
-/
namespace Masala.Library

/-- The byte of a C character constant. -/
abbrev ch (c : Char) : UInt8 := UInt8.ofNat c.toNat

/-- The cases '0' to '9' of a C switch over a byte. -/
def isDigit (c : UInt8) : Bool := ch '0' ≤ c && c ≤ ch '9'

def Digits (ds : Bytes) : Prop := ∀ c ∈ ds, isDigit c = true

instance (ds : Bytes) : Decidable (Digits ds) := List.decidableBAll _ _

def digitStep (v : ℕ) (c : UInt8) : ℕ := 10 * v + (c.toNat - 48)

def numeral (ds : Bytes) : ℕ := ds.foldl digitStep 0

def digitByte (d : ℕ) : UInt8 := UInt8.ofNat (48 + d)

def decimalLoop : ℕ → ℕ → Bytes → Bytes
  | 0, _, acc => acc
  | fuel + 1, n, acc =>
    if n < 10 then digitByte n :: acc else decimalLoop fuel (n / 10) (digitByte (n % 10) :: acc)

/-- The decimal numeral that `%lu` prints. -/
def decimal (n : ℕ) : Bytes := decimalLoop (n + 1) n []

/-- The numeral that `%li` prints. -/
def signedDecimal (i : ℤ) : Bytes := if i < 0 then ch '-' :: decimal i.natAbs else decimal i.natAbs

def LONG_MAX : ℕ := 9223372036854775807

/-- `atol` on a buffer that holds a run of digits: the value, saturated at the largest long. -/
def atol (ds : Bytes) : ℤ := ((min (numeral ds) LONG_MAX : ℕ) : ℤ)

theorem digitByte_isDigit : ∀ d < 10, isDigit (digitByte d) = true := by decide

theorem digitByte_value : ∀ d < 10, (digitByte d).toNat - 48 = d := by decide

theorem decimalLoop_eq_append (fuel n : ℕ) (acc : Bytes) :
    decimalLoop fuel n acc = decimalLoop fuel n [] ++ acc := by
  induction fuel generalizing n acc with
  | zero => rfl
  | succ fuel ih =>
    simp only [decimalLoop]
    split
    · rfl
    · rw [ih, ih _ [_], List.append_assoc]
      rfl

theorem decimalLoop_fuel (fuel n : ℕ) (h : n < fuel) :
    decimalLoop fuel n [] = decimalLoop (n + 1) n [] := by
  induction fuel using Nat.strong_induction_on generalizing n with
  | _ fuel ih =>
    obtain ⟨f, rfl⟩ : ∃ f, fuel = f + 1 := ⟨fuel - 1, by omega⟩
    simp only [decimalLoop]
    split
    · rfl
    · rename_i hn
      rw [decimalLoop_eq_append, decimalLoop_eq_append n]
      rw [ih f (by omega) (n / 10) (by omega)]
      by_cases hf : n = f
      · subst hf
        rw [ih n (by omega) (n / 10) (by omega)]
      · rw [ih n (by omega) (n / 10) (by omega)]

theorem decimal_of_lt {n : ℕ} (h : n < 10) : decimal n = [digitByte n] := by
  simp [decimal, decimalLoop, h]

theorem decimal_of_le {n : ℕ} (h : 10 ≤ n) :
    decimal n = decimal (n / 10) ++ [digitByte (n % 10)] := by
  rw [decimal, decimalLoop, if_neg (by omega), decimalLoop_eq_append,
    decimalLoop_fuel n (n / 10) (by omega)]
  rfl

theorem decimal_ne_nil (n : ℕ) : decimal n ≠ [] := by
  rcases Nat.lt_or_ge n 10 with h | h
  · simp [decimal_of_lt h]
  · simp [decimal_of_le h]

theorem decimal_digits (n : ℕ) : Digits (decimal n) := by
  induction n using Nat.strong_induction_on with
  | _ n ih =>
    intro c hc
    rcases Nat.lt_or_ge n 10 with h | h
    · rw [decimal_of_lt h, List.mem_singleton] at hc
      exact hc ▸ digitByte_isDigit n h
    · rw [decimal_of_le h, List.mem_append, List.mem_singleton] at hc
      rcases hc with hc | rfl
      · exact ih (n / 10) (by omega) c hc
      · exact digitByte_isDigit _ (Nat.mod_lt _ (by omega))

/-- Reading a printed number gives the number back. -/
theorem numeral_decimal (n : ℕ) : numeral (decimal n) = n := by
  induction n using Nat.strong_induction_on with
  | _ n ih =>
    rcases Nat.lt_or_ge n 10 with h | h
    · simp [decimal_of_lt h, numeral, digitStep, digitByte_value n h]
    · have hd := digitByte_value (n % 10) (Nat.mod_lt _ (by omega))
      have hrest := ih (n / 10) (by omega)
      rw [decimal_of_le h, numeral, List.foldl_append]
      rw [numeral] at hrest
      simp only [hrest, List.foldl_cons, List.foldl_nil, digitStep, hd]
      omega

theorem decimal_length_le (k n : ℕ) (hk : 0 < k) (h : n < 10 ^ k) : (decimal n).length ≤ k := by
  induction k generalizing n with
  | zero => omega
  | succ k ih =>
    rcases Nat.lt_or_ge n 10 with hn | hn
    · simp [decimal_of_lt hn]
    · have hk' : 0 < k := by
        rcases Nat.eq_zero_or_pos k with rfl | hk'
        · simp at h; omega
        · exact hk'
      have := ih (n / 10) hk' (Nat.div_lt_of_lt_mul (by rw [pow_succ] at h; linarith))
      rw [decimal_of_le hn, List.length_append, List.length_singleton]
      omega

theorem atol_decimal {n : ℕ} (h : n ≤ LONG_MAX) : atol (decimal n) = n := by
  rw [atol, numeral_decimal, Nat.min_eq_left h]

theorem atol_nonneg (ds : Bytes) : 0 ≤ atol ds := Int.natCast_nonneg _

theorem atol_le (ds : Bytes) : atol ds ≤ LONG_MAX := by
  unfold atol
  exact_mod_cast Nat.min_le_right _ _

/-- A digit is none of the marks that delimit or open a token. -/
theorem digit_ne_marks {c : UInt8} (h : isDigit c = true) :
    c ≠ ch ':' ∧ c ≠ ch 'e' ∧ c ≠ ch '-' ∧ c ≠ ch 'd' ∧ c ≠ ch 'l' ∧ c ≠ ch 'i' := by
  refine ⟨?_, ?_, ?_, ?_, ?_, ?_⟩ <;> rintro rfl <;> exact absurd h (by decide)

theorem digits_singleton {c : UInt8} (h : isDigit c = true) : Digits [c] := by
  intro d hd
  rwa [List.mem_singleton.mp hd]

theorem Digits.snoc {ds : Bytes} {c : UInt8} (h : Digits ds) (hc : isDigit c = true) :
    Digits (ds ++ [c]) := by
  intro x hx
  rw [List.mem_append, List.mem_singleton] at hx
  rcases hx with hx | rfl
  · exact h x hx
  · exact hc

theorem isDigit_value {c : UInt8} (h : isDigit c = true) : c.toNat - 48 < 10 := by
  simp only [isDigit, Bool.and_eq_true, decide_eq_true_eq, UInt8.le_iff_toNat_le] at h
  have : (ch '9').toNat = 57 := rfl
  omega

theorem numeral_lt {ds : Bytes} (h : Digits ds) : numeral ds < 10 ^ ds.length := by
  induction ds using List.reverseRecOn with
  | nil => simp [numeral]
  | append_singleton ds c ih =>
    have hv := isDigit_value (h c (by simp))
    have ih := ih (fun x hx => h x (by simp [hx]))
    rw [numeral] at ih
    rw [numeral, List.foldl_append, List.length_append, List.length_singleton, pow_succ]
    simp only [List.foldl_cons, List.foldl_nil, digitStep]
    omega

end Masala.Library
