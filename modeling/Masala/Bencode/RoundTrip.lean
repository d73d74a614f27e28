import Masala.Bencode.Encode
import Masala.Bencode.DecodeValue
import Masala.Bencode.ValidateValue

/-!
# Encoding followed by decoding

The encoding of a tree is a complete value of the grammar whose derivation
carries that very tree, as long as strings and integers respect the limits of
`ben.h`. The round trip and the acceptance follow from the facts on values.
-/
namespace Masala.Bencode
open Library

/-- A string that `ben_str` accepts and the validator does not find too long. -/
def StrInRange (s : Bytes) : Prop := 0 < s.length ∧ s.length ≤ BEN_STR_MAXSIZE

mutual
/-- The trees whose strings and integers respect the limits of `ben.h`. -/
def InRange : ObjBen → Prop
  | .str s => StrInRange s
  | .int i => i.natAbs ≤ BEN_INT_MAXSIZE
  | .list l => InRangeL l
  | .dict d => InRangeD d

def InRangeL : List ObjBen → Prop
  | [] => True
  | t :: l => InRange t ∧ InRangeL l

def InRangeD : List (Bytes × ObjBen) → Prop
  | [] => True
  | (k, t) :: d => StrInRange k ∧ InRange t ∧ InRangeD d
end

theorem encodeStr_token {s : Bytes} (h : StrInRange s) : StrToken (encodeStr s) s := by
  refine .mk (decimal_digits _) (List.length_pos_iff.mpr (decimal_ne_nil _)) ?_
    (numeral_decimal _) h.1 h.2
  refine decimal_length_le _ _ (by decide) (lt_of_le_of_lt h.2 ?_)
  decide

theorem signedDecimal_token {i : ℤ} (h : i.natAbs ≤ BEN_INT_MAXSIZE) :
    IntToken (ch 'i' :: (signedDecimal i ++ [ch 'e'])) i := by
  have hpos := List.length_pos_iff.mpr (decimal_ne_nil i.natAbs)
  have hlen : (decimal i.natAbs).length ≤ BEN_INT_MAXLEN :=
    decimal_length_le _ _ (by decide) (lt_of_le_of_lt h (by decide))
  have hval : atol (decimal i.natAbs) = i.natAbs := atol_decimal h
  rw [signedDecimal]
  split
  · have := IntToken.neg (decimal_digits i.natAbs) hpos hlen
    rwa [hval, show (-1 : ℤ) * (i.natAbs : ℤ) = i by omega] at this
  · have := IntToken.pos (decimal_digits i.natAbs) hpos hlen
    rwa [hval, show (1 : ℤ) * (i.natAbs : ℤ) = i by omega] at this

mutual
/-- An encoding is a complete value and carries its own tree. -/
theorem encode_value : (t : ObjBen) → InRange t → Value (encode t) t
  | .str s, h => .str (encodeStr_token (by simpa only [InRange] using h))
  | .int i, h => .int (signedDecimal_token (by simpa only [InRange] using h))
  | .list l, h => .list (encodeL_items l (by simpa only [InRange] using h))
  | .dict d, h => .dict (encodeD_entries d (by simpa only [InRange] using h))

theorem encodeL_items : (l : List ObjBen) → InRangeL l → Items (encodeL l) l
  | [], _ => .nil
  | t :: l, h => by
    rw [InRangeL] at h
    exact .cons (encode_value t h.1) (encodeL_items l h.2)

theorem encodeD_entries : (d : List (Bytes × ObjBen)) → InRangeD d → Entries (encodeD d) d
  | [], _ => .nil
  | (k, t) :: d, h => by
    rw [InRangeD] at h
    exact .cons (encodeStr_token h.1) (encode_value t h.2.1) (encodeD_entries d h.2.2)
end

/-- The encoder fills its buffer exactly, the validator accepts it up to its last byte and the
decoder gives the tree back. -/
theorem benEnc_roundTrip (t : ObjBen) (h : InRange t) :
    ∃ raw, benEnc t = .ok (some raw) ∧ raw.size = benEncSize t ∧ raw.code.length = raw.size ∧
      benValidate raw.code raw.size = .ok (some raw.size) ∧
      ∀ fuel, raw.size < fuel → benDec fuel raw.code = .ok (some t, raw.size) := by
  have hsize := benEncSize_eq t
  have value := encode_value t h
  refine ⟨_, benEnc_eq t, rfl, hsize.symm, ?_, ?_⟩
  · dsimp only
    rw [hsize]
    exact benValidate_value value List.prefix_rfl le_rfl
  · intro fuel hf
    dsimp only at hf ⊢
    rw [hsize] at hf ⊢
    exact benDec_value value List.prefix_rfl hf

/-- A dictionary with a repeated key, a binary string of marks and the smallest integer. -/
theorem benEnc_roundTrip_dict :
    ∃ raw, benEnc (.dict [([ch 'k'], .str [ch ':', ch 'e', 0]),
        ([ch 'k'], .list [.int (-9223372036854775807)])]) = .ok (some raw) ∧
      ∀ fuel, raw.size < fuel → benDec fuel raw.code =
        .ok (some (.dict [([ch 'k'], .str [ch ':', ch 'e', 0]),
          ([ch 'k'], .list [.int (-9223372036854775807)])]), raw.size) := by
  obtain ⟨raw, henc, -, -, -, hdec⟩ := benEnc_roundTrip
    (.dict [([ch 'k'], .str [ch ':', ch 'e', 0]),
      ([ch 'k'], .list [.int (-9223372036854775807)])])
    (by simp [InRange, InRangeD, InRangeL, StrInRange, BEN_STR_MAXSIZE, BEN_INT_MAXSIZE])
  exact ⟨raw, henc, hdec⟩

end Masala.Bencode
