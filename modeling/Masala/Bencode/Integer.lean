import Masala.Bencode.DecodeValue
import Masala.Bencode.ValidateValue

/-!
# Integers at the limits of `long`

The validator bounds the number of digits of an integer and tests what `atol`
makes of them. This is never above the limit, so the numbers of 19 digits that
do not fit are accepted, and the decoder stores the limit in their place.
-/
namespace Masala.Bencode
open Library

/-- The token with a sign and digits. -/
def intToken (neg : Bool) (ds : Bytes) : Bytes :=
  if neg then ch 'i' :: ch '-' :: (ds ++ [ch 'e']) else ch 'i' :: (ds ++ [ch 'e'])

/-- The integer that a token denotes. -/
def denoted (neg : Bool) (ds : Bytes) : ℤ := if neg then -(numeral ds : ℤ) else numeral ds

/-- The integer that the decoder makes of a token. -/
def decoded (neg : Bool) (ds : Bytes) : ℤ := if neg then -1 * atol ds else 1 * atol ds

section Token
variable {neg : Bool} {ds code : Bytes} {size p fuel : ℕ}

theorem intToken_token (neg : Bool) (hd : Digits ds) (hpos : 0 < ds.length)
    (hshort : ds.length ≤ BEN_INT_MAXLEN) : IntToken (intToken neg ds) (decoded neg ds) := by
  cases neg with
  | true => exact .neg hd hpos hshort
  | false => exact .pos hd hpos hshort

theorem decoded_eq_iff (neg : Bool) (ds : Bytes) :
    decoded neg ds = denoted neg ds ↔ numeral ds ≤ LONG_MAX := by
  have hmin : atol ds = numeral ds ↔ numeral ds ≤ LONG_MAX := by
    rw [atol, Int.natCast_inj]
    omega
  rw [← hmin]
  cases neg with
  | true =>
    change -1 * atol ds = -(numeral ds : ℤ) ↔ _
    omega
  | false =>
    change 1 * atol ds = (numeral ds : ℤ) ↔ _
    omega

theorem benValidateILoop_refused (hd : Digits ds)
    (hbad : ds.length = 0 ∨ ds.length > BEN_INT_MAXLEN) (hat : At code p (ds ++ [ch 'e']))
    (hs : p + ds.length < size) (hf : ds.length < fuel) :
    benValidateILoop code size p fuel 0 p = .ok none := by
  obtain ⟨f, rfl⟩ : ∃ f, fuel = ds.length + (f + 1) := ⟨fuel - ds.length - 1, by omega⟩
  rw [benValidateILoop_digits p (f + 1) hd 0 p hat.left (by omega), benValidateILoop, if_pos hs,
    hat.right.deref, exec_ok_bind, if_neg (by decide), if_pos rfl, Nat.zero_add, if_pos hbad,
    exec_pure]

/-- The validator counts the digits of a token. -/
theorem benValidateI_accepts_iff (hd : Digits ds) (hat : At code p (intToken neg ds))
    (hs : p + (intToken neg ds).length ≤ size) (hf : (intToken neg ds).length ≤ fuel) :
    benValidateI fuel code size p = .ok (some (p + (intToken neg ds).length)) ↔
      0 < ds.length ∧ ds.length ≤ BEN_INT_MAXLEN := by
  refine ⟨fun hacc => ?_, fun h => benValidateI_token (intToken_token neg hd h.1 h.2) hat hs hf⟩
  by_contra hno
  have hbad : ds.length = 0 ∨ ds.length > BEN_INT_MAXLEN := by omega
  cases neg with
  | true =>
    have hat : At code p (ch 'i' :: ch '-' :: (ds ++ [ch 'e'])) := hat
    simp only [intToken, if_true, List.length_cons, List.length_append, List.length_nil] at hs hf
    rw [benValidateI, if_neg (by omega), hat.tail.deref, exec_ok_bind, if_pos rfl,
      if_neg (by omega),
      benValidateILoop_refused hd hbad hat.tail.tail (by omega) (by omega)] at hacc
    cases hacc
  | false =>
    have hat : At code p (ch 'i' :: (ds ++ [ch 'e'])) := hat
    simp only [intToken, Bool.false_eq_true, if_false, List.length_cons, List.length_append,
      List.length_nil] at hs hf
    obtain ⟨c, rest, hcons⟩ := List.exists_cons_of_ne_nil (show ds ++ [ch 'e'] ≠ [] by simp)
    have hc : c ≠ ch '-' := by
      cases ds with
      | nil =>
        obtain ⟨rfl, -⟩ := List.cons.inj hcons
        decide
      | cons d ds =>
        obtain ⟨rfl, -⟩ := List.cons.inj hcons
        exact (digit_ne_marks (hd d (by simp))).2.2.1
    have hfirst : deref code (p + 1) = .ok c := (hcons ▸ hat.tail).deref
    rw [benValidateI, if_neg (by omega), hfirst, exec_ok_bind, if_neg hc,
      benValidateILoop_refused hd hbad hat.tail (by omega) (by omega)] at hacc
    cases hacc

end Token

/-- An accepted integer is decoded to what it denotes exactly if its digits fit into a `long`. -/
theorem benDecI_denoted_iff (neg : Bool) (ds : Bytes) (hd : Digits ds) (code : Bytes)
    (size p fuel : ℕ) (hat : At code p (intToken neg ds))
    (hs : p + (intToken neg ds).length ≤ size) (hf : (intToken neg ds).length ≤ fuel)
    (hacc : benValidateI fuel code size p = .ok (some (p + (intToken neg ds).length))) :
    benDecI fuel code p = .ok (.int (denoted neg ds), p + (intToken neg ds).length) ↔
      numeral ds ≤ LONG_MAX := by
  obtain ⟨hpos, hshort⟩ := (benValidateI_accepts_iff hd hat hs hf).mp hacc
  rw [benDecI_token (intToken_token neg hd hpos hshort) hat hf, ← decoded_eq_iff neg]
  simp

def limitDigits (last : Char) : Bytes := "922337203685477580".toList.map ch ++ [ch last]

/-- The least number whose digits fit. -/
theorem benDecI_denoted_iff_limit :
    benDecI 22 (intToken true (limitDigits '7')) 0 = .ok (.int (-9223372036854775807), 22) :=
  (benDecI_denoted_iff true (limitDigits '7') (by decide) _ 22 0 22
    (At.zero_iff.mpr List.prefix_rfl) (by decide) (by decide) (by decide)).mpr (by decide)

/-- The first number behind the limit is stored as the limit. -/
theorem benDecI_saturates : ¬ ∀ (neg : Bool) (ds : Bytes), Digits ds → ∀ code size p fuel,
    At code p (intToken neg ds) → p + (intToken neg ds).length ≤ size →
    (intToken neg ds).length ≤ fuel →
    benValidateI fuel code size p = .ok (some (p + (intToken neg ds).length)) →
    benDecI fuel code p = .ok (.int (denoted neg ds), p + (intToken neg ds).length) := by
  intro hall
  have hdec := hall false (limitDigits '8') (by decide) (intToken false (limitDigits '8')) 21 0 21
    (At.zero_iff.mpr List.prefix_rfl) (by decide) (by decide) (by decide)
  have hlimit : benDecI 21 (intToken false (limitDigits '8')) 0 =
      .ok (.int 9223372036854775807, 21) := by rfl
  rw [hlimit] at hdec
  injection hdec with hpair
  injection hpair with hnode
  injection hnode with hint
  exact absurd hint (by decide)

end Masala.Bencode
