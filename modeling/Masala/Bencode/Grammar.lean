import Masala.Bencode.Tree

/-!
# The language of values

The grammar that the validator is meant to recognise, with the tree of each
derivation: strings verbatim, integers through the saturating `atol`, entries
in their order. A truncated token is a run of digits with its opening marks
and without its delimiter.
-/
namespace Masala.Bencode
open Library

/-- A string token: 1 to 10 digits, a colon and as many bytes as the digits say. -/
inductive StrToken : Bytes → Bytes → Prop
  | mk {ds s : Bytes} (digits : Digits ds) (pos : 0 < ds.length)
      (short : ds.length ≤ BEN_STR_MAXLEN) (value : numeral ds = s.length)
      (nonempty : 0 < s.length) (fits : s.length ≤ BEN_STR_MAXSIZE) :
      StrToken (ds ++ ch ':' :: s) s

/-- An integer token: an optional sign and 1 to 19 digits between `i` and `e`. -/
inductive IntToken : Bytes → ℤ → Prop
  | pos {ds : Bytes} (digits : Digits ds) (pos : 0 < ds.length)
      (short : ds.length ≤ BEN_INT_MAXLEN) :
      IntToken (ch 'i' :: (ds ++ [ch 'e'])) (1 * atol ds)
  | neg {ds : Bytes} (digits : Digits ds) (pos : 0 < ds.length)
      (short : ds.length ≤ BEN_INT_MAXLEN) :
      IntToken (ch 'i' :: ch '-' :: (ds ++ [ch 'e'])) (-1 * atol ds)

mutual
inductive Value : Bytes → ObjBen → Prop
  | str {bs s : Bytes} (token : StrToken bs s) : Value bs (.str s)
  | int {bs : Bytes} {i : ℤ} (token : IntToken bs i) : Value bs (.int i)
  | list {bs : Bytes} {l : List ObjBen} (items : Items bs l) :
      Value (ch 'l' :: (bs ++ [ch 'e'])) (.list l)
  | dict {bs : Bytes} {d : List (Bytes × ObjBen)} (entries : Entries bs d) :
      Value (ch 'd' :: (bs ++ [ch 'e'])) (.dict d)

inductive Items : Bytes → List ObjBen → Prop
  | nil : Items [] []
  | cons {b bs : Bytes} {t : ObjBen} {l : List ObjBen} (value : Value b t) (rest : Items bs l) :
      Items (b ++ bs) (t :: l)

inductive Entries : Bytes → List (Bytes × ObjBen) → Prop
  | nil : Entries [] []
  | cons {k b bs s : Bytes} {t : ObjBen} {d : List (Bytes × ObjBen)} (key : StrToken k s)
      (value : Value b t) (rest : Entries bs d) : Entries (k ++ (b ++ bs)) ((s, t) :: d)
end

/-- A string or integer token that breaks off after at least one digit. -/
def Truncated (bs : Bytes) : Prop :=
  ∃ ds : Bytes, ds ≠ [] ∧ Digits ds ∧ (bs = ds ∨ bs = ch 'i' :: ds ∨ bs = ch 'i' :: ch '-' :: ds)

/-- A token is opened by a digit, so it is never taken for the end of its container. -/
theorem StrToken.head {bs s : Bytes} (h : StrToken bs s) :
    ∃ c rest, bs = c :: rest ∧ isDigit c = true := by
  obtain ⟨digits, pos, -, -, -, -⟩ := h
  rename_i ds
  cases ds with
  | nil => simp at pos
  | cons c ds => exact ⟨c, _, rfl, digits c (by simp)⟩

theorem Value.head {bs : Bytes} {t : ObjBen} (h : Value bs t) :
    ∃ c rest, bs = c :: rest ∧ c ≠ ch 'e' := by
  cases h with
  | str token =>
    obtain ⟨c, rest, rfl, hc⟩ := token.head
    exact ⟨c, rest, rfl, (digit_ne_marks hc).2.1⟩
  | int token =>
    cases token with
    | pos digits pos short => exact ⟨_, _, rfl, by decide⟩
    | neg digits pos short => exact ⟨_, _, rfl, by decide⟩
  | list items => exact ⟨_, _, rfl, by decide⟩
  | dict entries => exact ⟨_, _, rfl, by decide⟩

theorem Value.length_pos {bs : Bytes} {t : ObjBen} (h : Value bs t) : 0 < bs.length := by
  obtain ⟨c, rest, rfl, -⟩ := h.head
  simp

theorem StrToken.length_pos {bs s : Bytes} (h : StrToken bs s) : 0 < bs.length := by
  obtain ⟨c, rest, rfl, -⟩ := h.head
  simp

theorem Truncated.length_pos {bs : Bytes} (h : Truncated bs) : 0 < bs.length := by
  obtain ⟨ds, hne, -, rfl | rfl | rfl⟩ := h
  · exact List.length_pos_iff.mpr hne
  · simp
  · simp

end Masala.Bencode
