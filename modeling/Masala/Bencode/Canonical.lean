import Masala.Bencode.RoundTrip
import Masala.Bencode.Language

/-!
# The shortest text of a tree

A peer may write a number with leading zeros or, far out of range, in several
ways. Of all the texts of a tree the encoder writes one of the shortest, so a
packet that is decoded and encoded again never grows.
-/
namespace Masala.Bencode
open Library

/-- A number takes no more digits than any way to write it. -/
theorem decimal_numeral_length {ds : Bytes} {n : ℕ} (digits : Digits ds) (pos : 0 < ds.length)
    (h : n ≤ numeral ds) : (decimal n).length ≤ ds.length :=
  decimal_length_le _ _ pos (lt_of_le_of_lt h (numeral_lt digits))

section Tokens
variable {bs s : Bytes} {i : ℤ}

theorem StrToken.inRange (h : StrToken bs s) : StrInRange s := by
  obtain ⟨-, -, -, -, nonempty, fits⟩ := h
  exact ⟨nonempty, fits⟩

theorem StrToken.shortest (h : StrToken bs s) : (encodeStr s).length ≤ bs.length := by
  obtain ⟨digits, pos, -, value, -, -⟩ := h
  have hlen := decimal_numeral_length digits pos value.ge
  rw [encodeStr, List.length_append, List.length_append]
  exact Nat.add_le_add_right hlen _

/-- The saturated value of a run of digits. -/
theorem atol_natAbs (ds : Bytes) : (atol ds).natAbs = min (numeral ds) LONG_MAX :=
  Int.natAbs_natCast _

theorem IntToken.inRange (h : IntToken bs i) : i.natAbs ≤ BEN_INT_MAXSIZE := by
  have hle (ds : Bytes) : (atol ds).natAbs ≤ BEN_INT_MAXSIZE := by
    rw [atol_natAbs]
    exact Nat.min_le_right _ _
  cases h with
  | pos => rw [one_mul]; exact hle _
  | neg => rw [neg_one_mul, Int.natAbs_neg]; exact hle _

theorem signedDecimal_length_le (i : ℤ) :
    (signedDecimal i).length ≤ (decimal i.natAbs).length + 1 := by
  rw [signedDecimal]
  split
  · exact Nat.le_refl _
  · exact Nat.le_succ _

theorem IntToken.shortest (h : IntToken bs i) :
    (ch 'i' :: (signedDecimal i ++ [ch 'e'])).length ≤ bs.length := by
  have hlen (ds : Bytes) (digits : Digits ds) (pos : 0 < ds.length) :
      (decimal (atol ds).natAbs).length ≤ ds.length := by
    rw [atol_natAbs]
    exact decimal_numeral_length digits pos (Nat.min_le_left _ _)
  cases h with
  | @pos ds digits pos short =>
    have hsign : ¬ atol ds < 0 := Int.not_lt.mpr (atol_nonneg ds)
    have hdigits := hlen ds digits pos
    rw [one_mul, signedDecimal, if_neg hsign]
    simpa using hdigits
  | @neg ds digits pos short =>
    have hsigned := signedDecimal_length_le (-1 * atol ds)
    have hdigits := hlen ds digits pos
    rw [neg_one_mul, Int.natAbs_neg] at hsigned
    rw [neg_one_mul]
    simp only [List.length_cons, List.length_append]
    omega

end Tokens

mutual
/-- The tree of a value keeps the limits of the encoder, whose text for it is not longer. -/
theorem value_shortest : {bs : Bytes} → {t : ObjBen} → Value bs t →
    InRange t ∧ (encode t).length ≤ bs.length
  | _, _, .str token => ⟨by rw [InRange]; exact token.inRange, token.shortest⟩
  | _, _, .int token => ⟨by rw [InRange]; exact token.inRange, token.shortest⟩
  | _, _, .list items => by
    obtain ⟨hrange, hlen⟩ := items_shortest items
    exact ⟨by rwa [InRange], by simpa [encode] using hlen⟩
  | _, _, .dict entries => by
    obtain ⟨hrange, hlen⟩ := entries_shortest entries
    exact ⟨by rwa [InRange], by simpa [encode] using hlen⟩

theorem items_shortest : {bs : Bytes} → {l : List ObjBen} → Items bs l →
    InRangeL l ∧ (encodeL l).length ≤ bs.length
  | _, _, .nil => ⟨trivial, Nat.le_refl _⟩
  | _, _, .cons value rest => by
    obtain ⟨hvalue, hlen⟩ := value_shortest value
    obtain ⟨hrest, hlen'⟩ := items_shortest rest
    refine ⟨⟨hvalue, hrest⟩, ?_⟩
    rw [encodeL, List.length_append, List.length_append]
    exact Nat.add_le_add hlen hlen'

theorem entries_shortest : {bs : Bytes} → {d : List (Bytes × ObjBen)} → Entries bs d →
    InRangeD d ∧ (encodeD d).length ≤ bs.length
  | _, _, .nil => ⟨trivial, Nat.le_refl _⟩
  | _, _, .cons key value rest => by
    obtain ⟨hvalue, hlen⟩ := value_shortest value
    obtain ⟨hrest, hlen'⟩ := entries_shortest rest
    refine ⟨⟨key.inRange, hvalue, hrest⟩, ?_⟩
    rw [encodeD, List.length_append, List.length_append, List.length_append, List.length_append]
    exact Nat.add_le_add key.shortest (Nat.add_le_add hlen hlen')
end

/-- What the first entry with a key adds to the text of a dictionary. -/
def entryCost (d : List (Bytes × ObjBen)) (k : Bytes) : ℕ :=
  match searchTuple k d with
  | some t => (encodeStr k).length + (encode t).length
  | none => 0

theorem entryCost_sum_cons (k₀ : Bytes) (t : ObjBen) (d : List (Bytes × ObjBen)) {ks : List Bytes}
    (h : ks.Nodup) : (ks.map (entryCost ((k₀, t) :: d))).sum ≤
      (encodeStr k₀).length + (encode t).length + (ks.map (entryCost d)).sum := by
  induction ks with
  | nil => exact Nat.zero_le _
  | cons k ks ih =>
    obtain ⟨hk, hnodup⟩ := List.nodup_cons.mp h
    have hrest := ih hnodup
    rw [List.map_cons, List.sum_cons, List.map_cons, List.sum_cons]
    by_cases he : k₀ = k
    · -- the other keys find their entries further back
      have hothers : ks.map (entryCost ((k₀, t) :: d)) = ks.map (entryCost d) := by
        apply List.map_congr_left
        intro k' hk'
        have hne : k₀ ≠ k' := fun h' => hk (he ▸ h' ▸ hk')
        rw [entryCost, entryCost, searchTuple, if_neg hne]
      have hfirst : entryCost ((k₀, t) :: d) k = (encodeStr k₀).length + (encode t).length := by
        rw [entryCost, searchTuple, if_pos he, he]
      rw [hothers, hfirst]
      omega
    · have hlater : entryCost ((k₀, t) :: d) k = entryCost d k := by
        rw [entryCost, entryCost, searchTuple, if_neg he]
      rw [hlater]
      omega

/-- The entries that different keys find take their room side by side. -/
theorem entryCost_sum_le (d : List (Bytes × ObjBen)) {ks : List Bytes} (h : ks.Nodup) :
    (ks.map (entryCost d)).sum ≤ (encodeD d).length := by
  induction d with
  | nil =>
    have hzero : entryCost [] = fun _ => 0 := rfl
    rw [hzero]
    simp
  | cons e d ih =>
    obtain ⟨k, t⟩ := e
    have hcons := entryCost_sum_cons k t d h
    rw [encodeD, List.length_append, List.length_append]
    omega

/-- A packet that the validator accepts, decoded and encoded again, is accepted again, has the same
tree and is not longer than what the validator has read. -/
theorem benEnc_shortest {payload : Bytes} {q : ℕ}
    (hvalid : benValidate payload payload.length = .ok (some q)) (hwhole : ¬ Truncated payload) :
    ∃ t raw, benDec (payload.length + 1) payload = .ok (some t, q) ∧
      benEnc t = .ok (some raw) ∧ raw.size ≤ q ∧
      benValidate raw.code raw.size = .ok (some raw.size) ∧
      benDec (raw.size + 1) raw.code = .ok (some t, raw.size) := by
  rcases benValidate_sound le_rfl hvalid with ⟨bs, t, value, hat, hq, hle⟩ | htrunc
  · obtain ⟨hrange, hlen⟩ := value_shortest value
    obtain ⟨raw, henc, hsize, -, haccept, hdec⟩ := benEnc_roundTrip t hrange
    rw [Nat.zero_add] at hq
    subst hq
    refine ⟨t, raw, benDec_value value (At.zero_iff.mp hat) (by omega), henc, ?_, haccept,
      hdec _ (Nat.lt_succ_self _)⟩
    rw [hsize, benEncSize_eq]
    exact hlen
  · exact absurd htrunc.whole hwhole

/-- `li007ee` shrinks to `li7ee`. -/
theorem benEnc_shortest_zeros : ∃ t raw,
    benDec 8 [ch 'l', ch 'i', ch '0', ch '0', ch '7', ch 'e', ch 'e'] = .ok (some t, 7) ∧
      benEnc t = .ok (some raw) ∧ raw.size ≤ 7 ∧
      benValidate raw.code raw.size = .ok (some raw.size) ∧
      benDec (raw.size + 1) raw.code = .ok (some t, raw.size) :=
  benEnc_shortest (by decide +kernel) (not_truncated_of_container (.inr rfl))

end Masala.Bencode
