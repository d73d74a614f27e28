import Masala.Bencode.Decode
import Masala.Bencode.Grammar

/-!
# The decoder on complete values

Where a complete value of the grammar stands in memory, the decoder inspects
that value only, builds its tree and leaves the cursor right behind it. The
fuel bound is the length of the value, so the loops end on every value.
-/
namespace Masala.Bencode
open Library

theorem benDecSLoop_digits (code : Bytes) (start fuel : ℕ) {ds : Bytes} (hd : Digits ds) :
    ∀ i p, At code p ds →
      benDecSLoop code start (ds.length + fuel) i p =
        benDecSLoop code start fuel (i + ds.length) (p + ds.length) := by
  induction ds with
  | nil => intro i p _; simp
  | cons c ds ih =>
    intro i p h
    have hc : isDigit c = true := hd c (by simp)
    rw [List.length_cons, show ds.length + 1 + fuel = (ds.length + fuel) + 1 by omega,
      benDecSLoop, h.deref, exec_ok_bind, if_pos hc,
      ih (fun x hx => hd x (by simp [hx])) _ _ h.tail]
    congr 1 <;> omega

theorem benDecILoop_digits (code : Bytes) (start : ℕ) (sign : ℤ) (fuel : ℕ) {ds : Bytes}
    (hd : Digits ds) : ∀ i p, At code p ds →
      benDecILoop code start sign (ds.length + fuel) i p =
        benDecILoop code start sign fuel (i + ds.length) (p + ds.length) := by
  induction ds with
  | nil => intro i p _; simp
  | cons c ds ih =>
    intro i p h
    have hc : isDigit c = true := hd c (by simp)
    rw [List.length_cons, show ds.length + 1 + fuel = (ds.length + fuel) + 1 by omega,
      benDecILoop, h.deref, exec_ok_bind, if_pos hc,
      ih (fun x hx => hd x (by simp [hx])) _ _ h.tail]
    congr 1 <;> omega

theorem benStr_at {code s : Bytes} {p : ℕ} (h : At code p s) (hs : 0 < s.length) :
    benStr code p s.length = .ok (.str s) := by
  rw [benStr, if_neg (by omega), Int.toNat_natCast,
    h.copyFrom (List.ne_nil_of_length_pos hs), exec_ok_bind, exec_pure]

/-- A string token is read completely and nothing behind it is inspected. -/
theorem benDecS_token {bs s code : Bytes} {p fuel : ℕ} (token : StrToken bs s) (h : At code p bs)
    (hf : bs.length ≤ fuel) : benDecS fuel code p = .ok (.str s, p + bs.length) := by
  obtain ⟨digits, pos, short, value, nonempty, fits⟩ := token
  rename_i ds
  simp only [List.length_append, List.length_cons] at hf
  obtain ⟨f, rfl⟩ : ∃ f, fuel = ds.length + (f + 1) := ⟨fuel - ds.length - 1, by omega⟩
  have hcolon := h.right
  have hl : atol ds = s.length := by
    unfold atol
    rw [value, Nat.min_eq_left]
    exact fits.trans (by decide)
  rw [benDecS, benDecSLoop_digits code p (f + 1) digits 0 p h.left, benDecSLoop, hcolon.deref,
    exec_ok_bind, if_neg (by decide), if_pos rfl, Nat.zero_add,
    h.left.copyFrom (List.ne_nil_of_length_pos pos), exec_ok_bind]
  simp only [hl]
  rw [benStr_at hcolon.tail nonempty, exec_ok_bind, exec_pure, Int.toNat_natCast]
  simp only [List.length_append, List.length_cons]
  congr 2
  omega

theorem benDecILoop_token {ds code : Bytes} {sign : ℤ} {p fuel : ℕ} (digits : Digits ds)
    (pos : 0 < ds.length) (h : At code p (ds ++ [ch 'e'])) (hf : ds.length < fuel) :
    benDecILoop code p sign fuel 0 p = .ok (.int (sign * atol ds), p + ds.length + 1) := by
  obtain ⟨f, rfl⟩ : ∃ f, fuel = ds.length + (f + 1) := ⟨fuel - ds.length - 1, by omega⟩
  rw [benDecILoop_digits code p sign (f + 1) digits 0 p h.left, benDecILoop, h.right.deref,
    exec_ok_bind, if_neg (by decide), if_pos rfl, Nat.zero_add,
    h.left.copyFrom (List.ne_nil_of_length_pos pos), exec_ok_bind, exec_pure]

theorem benDecI_token {bs code : Bytes} {i : ℤ} {p fuel : ℕ} (token : IntToken bs i)
    (h : At code p bs) (hf : bs.length ≤ fuel) :
    benDecI fuel code p = .ok (.int i, p + bs.length) := by
  cases token with
  | @pos ds digits pos short =>
    simp only [List.length_cons, List.length_append, List.length_nil] at hf ⊢
    obtain ⟨c, ds', rfl⟩ := List.exists_cons_of_length_pos pos
    have hc := (digit_ne_marks (digits c (by simp))).2.2.1
    rw [benDecI, h.tail.deref, exec_ok_bind, if_neg hc,
      benDecILoop_token digits pos h.tail (by omega)]
    congr 2
    omega
  | @neg ds digits pos short =>
    simp only [List.length_cons, List.length_append, List.length_nil] at hf ⊢
    rw [benDecI, h.tail.deref, exec_ok_bind, if_pos rfl,
      benDecILoop_token digits pos h.tail.tail (by omega)]
    congr 2
    omega

mutual
/-- The decoder reads any complete value and stops right behind it. -/
theorem benDecR_value : {bs : Bytes} → {t : ObjBen} → Value bs t → ∀ {code : Bytes} {p fuel : ℕ},
    At code p bs → bs.length < fuel → benDecR fuel code p = .ok (some t, p + bs.length)
  | bs, _, .str token, code, p, fuel, h, hf => by
    obtain ⟨f, rfl⟩ : ∃ f, fuel = f + 1 := ⟨fuel - 1, by omega⟩
    obtain ⟨c, rest, rfl, hc⟩ := token.head
    obtain ⟨-, -, -, hd, hl, hi⟩ := digit_ne_marks hc
    rw [benDecR, h.deref, exec_ok_bind, if_neg hd, if_neg hl, if_neg hi, if_pos hc,
      benDecS_token token h (by omega)]
    rfl
  | bs, _, .int token, code, p, fuel, h, hf => by
    obtain ⟨f, rfl⟩ : ∃ f, fuel = f + 1 := ⟨fuel - 1, by omega⟩
    obtain ⟨rest, rfl⟩ : ∃ rest, bs = ch 'i' :: rest := by cases token <;> exact ⟨_, rfl⟩
    rw [benDecR, h.deref, exec_ok_bind, if_neg (by decide), if_neg (by decide), if_pos rfl,
      benDecI_token token h (by omega)]
    rfl
  | _, _, @Value.list bs _ items, code, p, fuel, h, hf => by
    simp only [List.length_cons, List.length_append, List.length_nil] at hf
    obtain ⟨f, rfl⟩ : ∃ f, fuel = f + 1 := ⟨fuel - 1, by omega⟩
    rw [benDecR, h.deref, exec_ok_bind, if_neg (by decide), if_pos rfl,
      benDecLLoop_items items [] h.tail (by omega)]
    simp only [List.length_cons, List.length_append, List.length_nil, List.nil_append, exec_ok_bind,
      exec_pure]
    congr 2
    omega
  | _, _, @Value.dict bs _ entries, code, p, fuel, h, hf => by
    simp only [List.length_cons, List.length_append, List.length_nil] at hf
    obtain ⟨f, rfl⟩ : ∃ f, fuel = f + 1 := ⟨fuel - 1, by omega⟩
    rw [benDecR, h.deref, exec_ok_bind, if_pos rfl,
      benDecDLoop_entries entries [] h.tail (by omega)]
    simp only [List.length_cons, List.length_append, List.length_nil, List.nil_append, exec_ok_bind,
      exec_pure]
    congr 2
    omega

theorem benDecLLoop_items : {bs : Bytes} → {l : List ObjBen} → Items bs l →
    (acc : List ObjBen) → ∀ {code : Bytes} {p fuel : ℕ}, At code p (bs ++ [ch 'e']) →
    bs.length + 1 < fuel →
    benDecLLoop fuel code (.list acc) p = .ok (.list (acc ++ l), p + bs.length + 1)
  | _, _, .nil, acc, code, p, fuel, h, hf => by
    obtain ⟨f, rfl⟩ : ∃ f, fuel = f + 1 := ⟨fuel - 1, by omega⟩
    rw [benDecLLoop, At.deref h, exec_ok_bind, if_pos rfl]
    simp
  | _, _, @Items.cons b bs t l value rest, acc, code, p, fuel, h, hf => by
    rw [List.length_append] at hf
    obtain ⟨f, rfl⟩ : ∃ f, fuel = f + 1 := ⟨fuel - 1, by omega⟩
    have hpos := value.length_pos
    rw [List.append_assoc] at h
    have hval : benDecR f code p = _ := benDecR_value value h.left (by omega)
    obtain ⟨c, b', rfl, hc⟩ := value.head
    rw [benDecLLoop, h.left.deref, exec_ok_bind, if_neg hc, hval]
    simp only [exec_ok_bind, benList_list]
    rw [benDecLLoop_items rest (acc ++ [t]) h.right (by omega)]
    simp only [List.append_assoc, List.singleton_append, List.length_append]
    congr 2
    omega

theorem benDecDLoop_entries : {bs : Bytes} → {d : List (Bytes × ObjBen)} → Entries bs d →
    (acc : List (Bytes × ObjBen)) → ∀ {code : Bytes} {p fuel : ℕ}, At code p (bs ++ [ch 'e']) →
    bs.length + 1 < fuel →
    benDecDLoop fuel code (.dict acc) p = .ok (.dict (acc ++ d), p + bs.length + 1)
  | _, _, .nil, acc, code, p, fuel, h, hf => by
    obtain ⟨f, rfl⟩ : ∃ f, fuel = f + 1 := ⟨fuel - 1, by omega⟩
    rw [benDecDLoop, At.deref h, exec_ok_bind, if_pos rfl]
    simp
  | _, _, @Entries.cons k b bs s t _ key value rest, acc, code, p, fuel,
      h, hf => by
    simp only [List.length_append] at hf
    obtain ⟨f, rfl⟩ : ∃ f, fuel = f + 1 := ⟨fuel - 1, by omega⟩
    have hkpos := key.length_pos
    have hvpos := value.length_pos
    rw [List.append_assoc, List.append_assoc] at h
    have hkey : benDecS f code p = _ := benDecS_token key h.left (by omega)
    have hval : benDecR f code (p + k.length) = _ :=
      benDecR_value value h.right.left (by omega)
    obtain ⟨c, k', rfl, hc⟩ := key.head
    rw [benDecDLoop, h.left.deref, exec_ok_bind, if_neg (digit_ne_marks hc).2.1, hkey]
    simp only [exec_ok_bind]
    rw [hval]
    simp only [exec_ok_bind, benDict_dict]
    rw [benDecDLoop_entries rest (acc ++ [(s, t)]) h.right.right (by omega)]
    simp only [List.append_assoc, List.singleton_append, List.length_append]
    congr 2
    omega
end

theorem benDec_value {bs code : Bytes} {t : ObjBen} {fuel : ℕ} (value : Value bs t)
    (h : bs <+: code) (hf : bs.length < fuel) :
    benDec fuel code = .ok (some t, bs.length) := by
  rw [benDec, benDecR_value value (At.zero_iff.mpr h) hf, Nat.zero_add]

/-- The grammar is prefix-free and unambiguous: a byte string has at most one value in front. -/
theorem value_unique {code bs bs' : Bytes} {t t' : ObjBen} (h : bs <+: code) (h' : bs' <+: code)
    (value : Value bs t) (value' : Value bs' t') : bs = bs' ∧ t = t' := by
  have hd : benDec (bs.length + bs'.length + 1) code = _ := benDec_value value h (by omega)
  rw [benDec_value value' h' (by omega)] at hd
  simp only [Except.ok.injEq, Prod.mk.injEq, Option.some.injEq] at hd
  refine ⟨?_, hd.1.symm⟩
  rw [List.prefix_iff_eq_take.mp h, List.prefix_iff_eq_take.mp h', hd.2]

end Masala.Bencode
