import Masala.Bencode.Validate
import Masala.Bencode.Grammar

/-!
# The validator against the grammar

Three facts about `ben_validate_r` at any cursor: it returns on every memory
that holds the packet, it accepts every complete value, and whatever it accepts
is a complete value or a token cut off by the end of the packet. Inside of a
container the second alternative is refused by the check behind each entry.
-/
namespace Masala.Bencode
open Library

theorem checkEnd_eq_some {size p q : ℕ} : checkEnd size p = some q ↔ q = p ∧ p ≤ size := by
  unfold checkEnd
  split
  · simp; omega
  · simp only [Option.some.injEq]; omega

/-- A numeral of at most ten digits is far below the saturation of `atol`. -/
theorem atol_short {ds : Bytes} (h : Digits ds) (hl : ds.length ≤ BEN_STR_MAXLEN) :
    atol ds = numeral ds := by
  have hlt : numeral ds < 10 ^ BEN_STR_MAXLEN :=
    (numeral_lt h).trans_le (Nat.pow_le_pow_right (by omega) hl)
  have : (10 : ℕ) ^ BEN_STR_MAXLEN ≤ LONG_MAX := by decide
  rw [atol, Nat.min_eq_left (by omega)]

/-! ## Acceptance of complete values -/

section Accepts
variable {code : Bytes} {size : ℕ}

theorem benValidateSLoop_digits (start fuel : ℕ) {ds : Bytes} (hd : Digits ds) :
    ∀ i p, At code p ds → p + ds.length ≤ size →
      benValidateSLoop code size start (ds.length + fuel) i p =
        benValidateSLoop code size start fuel (i + ds.length) (p + ds.length) := by
  induction ds with
  | nil => intro i p _ _; simp
  | cons c ds ih =>
    intro i p h hs
    have hc : isDigit c = true := hd c (by simp)
    rw [List.length_cons] at hs
    rw [List.length_cons, show ds.length + 1 + fuel = (ds.length + fuel) + 1 by omega,
      benValidateSLoop, if_pos (by omega), h.deref, exec_ok_bind, if_pos hc,
      ih (fun x hx => hd x (by simp [hx])) _ _ h.tail (by omega)]
    congr 1 <;> omega

theorem benValidateILoop_digits (start fuel : ℕ) {ds : Bytes} (hd : Digits ds) :
    ∀ i p, At code p ds → p + ds.length ≤ size →
      benValidateILoop code size start (ds.length + fuel) i p =
        benValidateILoop code size start fuel (i + ds.length) (p + ds.length) := by
  induction ds with
  | nil => intro i p _ _; simp
  | cons c ds ih =>
    intro i p h hs
    have hc : isDigit c = true := hd c (by simp)
    rw [List.length_cons] at hs
    rw [List.length_cons, show ds.length + 1 + fuel = (ds.length + fuel) + 1 by omega,
      benValidateILoop, if_pos (by omega), h.deref, exec_ok_bind, if_pos hc,
      ih (fun x hx => hd x (by simp [hx])) _ _ h.tail (by omega)]
    congr 1 <;> omega

theorem benValidateS_token {bs s : Bytes} {p fuel : ℕ} (token : StrToken bs s) (h : At code p bs)
    (hs : p + bs.length ≤ size) (hf : bs.length ≤ fuel) :
    benValidateS fuel code size p = .ok (some (p + bs.length)) := by
  obtain ⟨digits, pos, short, value, nonempty, fits⟩ := token
  rename_i ds
  simp only [List.length_append, List.length_cons] at hf hs
  obtain ⟨f, rfl⟩ : ∃ f, fuel = ds.length + (f + 1) := ⟨fuel - ds.length - 1, by omega⟩
  have hl : atol ds = s.length := by rw [atol_short digits short, value]
  rw [benValidateS, if_neg (by omega),
    benValidateSLoop_digits p (f + 1) digits 0 p h.left (by omega), benValidateSLoop,
    if_pos (by omega), h.right.deref, exec_ok_bind, if_neg (by decide), if_pos rfl, Nat.zero_add,
    if_neg (by omega), h.left.copyFrom (List.ne_nil_of_length_pos pos), exec_ok_bind]
  simp only [hl]
  rw [if_neg (by omega), exec_pure, Int.toNat_natCast]
  congr 1
  rw [checkEnd_eq_some]
  simp only [List.length_append, List.length_cons]
  omega

theorem benValidateILoop_token {ds : Bytes} {p fuel : ℕ} (digits : Digits ds)
    (pos : 0 < ds.length) (short : ds.length ≤ BEN_INT_MAXLEN) (h : At code p (ds ++ [ch 'e']))
    (hs : p + ds.length + 1 ≤ size) (hf : ds.length < fuel) :
    benValidateILoop code size p fuel 0 p = .ok (some (p + ds.length + 1)) := by
  obtain ⟨f, rfl⟩ : ∃ f, fuel = ds.length + (f + 1) := ⟨fuel - ds.length - 1, by omega⟩
  have h0 := atol_nonneg ds
  have hmax : atol ds ≤ BEN_INT_MAXSIZE := atol_le ds
  rw [benValidateILoop_digits p (f + 1) digits 0 p h.left (by omega), benValidateILoop,
    if_pos (by omega), h.right.deref, exec_ok_bind, if_neg (by decide), if_pos rfl, Nat.zero_add,
    if_neg (by omega), h.left.copyFrom (List.ne_nil_of_length_pos pos), exec_ok_bind,
    if_neg (by omega), exec_pure]
  congr 1
  rw [checkEnd_eq_some]
  omega

theorem benValidateI_token {bs : Bytes} {i : ℤ} {p fuel : ℕ} (token : IntToken bs i)
    (h : At code p bs) (hs : p + bs.length ≤ size) (hf : bs.length ≤ fuel) :
    benValidateI fuel code size p = .ok (some (p + bs.length)) := by
  cases token with
  | @pos ds digits pos short =>
    simp only [List.length_cons, List.length_append, List.length_nil] at hf hs ⊢
    obtain ⟨c, ds', rfl⟩ := List.exists_cons_of_length_pos pos
    have hc := (digit_ne_marks (digits c (by simp))).2.2.1
    rw [benValidateI, if_neg (by omega), h.tail.deref, exec_ok_bind, if_neg hc,
      benValidateILoop_token digits pos short h.tail (by omega) (by omega)]
    congr 2
    omega
  | @neg ds digits pos short =>
    simp only [List.length_cons, List.length_append, List.length_nil] at hf hs ⊢
    rw [benValidateI, if_neg (by omega), h.tail.deref, exec_ok_bind, if_pos rfl, if_neg (by omega),
      benValidateILoop_token digits pos short h.tail.tail (by omega) (by omega)]
    congr 2
    omega

mutual
/-- Every complete value inside of the packet is accepted. -/
theorem benValidateR_value : {bs : Bytes} → {t : ObjBen} → Value bs t → ∀ {p fuel : ℕ},
    At code p bs → p + bs.length ≤ size → bs.length < fuel →
    benValidateR fuel code size p = .ok (some (p + bs.length))
  | bs, _, .str token, p, fuel, h, hs, hf => by
    obtain ⟨f, rfl⟩ : ∃ f, fuel = f + 1 := ⟨fuel - 1, by omega⟩
    have hpos := token.length_pos
    have hval : benValidateS f code size p = _ := benValidateS_token token h hs (by omega)
    obtain ⟨c, rest, rfl, hc⟩ := token.head
    obtain ⟨-, -, -, hd, hl, hi⟩ := digit_ne_marks hc
    rw [benValidateR, if_neg (by omega), h.deref, exec_ok_bind, if_neg hd, if_neg hl, if_neg hi,
      if_pos hc, hval]
  | bs, _, .int token, p, fuel, h, hs, hf => by
    obtain ⟨f, rfl⟩ : ∃ f, fuel = f + 1 := ⟨fuel - 1, by omega⟩
    have hval : benValidateI f code size p = _ := benValidateI_token token h hs (by omega)
    obtain ⟨rest, rfl⟩ : ∃ rest, bs = ch 'i' :: rest := by cases token <;> exact ⟨_, rfl⟩
    rw [List.length_cons] at hs
    rw [benValidateR, if_neg (by omega), h.deref, exec_ok_bind, if_neg (by decide),
      if_neg (by decide), if_pos rfl, hval]
  | _, _, @Value.list bs _ items, p, fuel, h, hs, hf => by
    simp only [List.length_cons, List.length_append, List.length_nil] at hf hs ⊢
    obtain ⟨f, rfl⟩ : ∃ f, fuel = f + 1 := ⟨fuel - 1, by omega⟩
    rw [benValidateR, if_neg (by omega), h.deref, exec_ok_bind, if_neg (by decide), if_pos rfl,
      if_neg (by omega), benValidateLLoop_items items h.tail (by omega) (by omega)]
    congr 2
    omega
  | _, _, @Value.dict bs _ entries, p, fuel, h, hs, hf => by
    simp only [List.length_cons, List.length_append, List.length_nil] at hf hs ⊢
    obtain ⟨f, rfl⟩ : ∃ f, fuel = f + 1 := ⟨fuel - 1, by omega⟩
    rw [benValidateR, if_neg (by omega), h.deref, exec_ok_bind, if_pos rfl,
      if_neg (by omega), benValidateDLoop_entries entries h.tail (by omega) (by omega)]
    congr 2
    omega

theorem benValidateLLoop_items : {bs : Bytes} → {l : List ObjBen} → Items bs l → ∀ {p fuel : ℕ},
    At code p (bs ++ [ch 'e']) → p + bs.length + 1 ≤ size → bs.length + 1 < fuel →
    benValidateLLoop fuel code size p = .ok (some (p + bs.length + 1))
  | _, _, .nil, p, fuel, h, hs, hf => by
    obtain ⟨f, rfl⟩ : ∃ f, fuel = f + 1 := ⟨fuel - 1, by omega⟩
    rw [benValidateLLoop, At.deref h, exec_ok_bind, if_pos rfl, exec_pure]
    congr 1
    rw [checkEnd_eq_some]
    simpa using hs
  | _, _, @Items.cons b bs _ _ value rest, p, fuel, h, hs, hf => by
    rw [List.length_append] at hf hs
    obtain ⟨f, rfl⟩ : ∃ f, fuel = f + 1 := ⟨fuel - 1, by omega⟩
    have hpos := value.length_pos
    rw [List.append_assoc] at h
    have hval : benValidateR f code size p = _ :=
      benValidateR_value value h.left (by omega) (by omega)
    obtain ⟨c, b', rfl, hc⟩ := value.head
    rw [benValidateLLoop, h.left.deref, exec_ok_bind, if_neg hc, hval]
    simp only [exec_ok_bind]
    rw [if_neg (by omega), benValidateLLoop_items rest h.right (by omega) (by omega)]
    simp only [List.length_append]
    congr 2
    omega

theorem benValidateDLoop_entries : {bs : Bytes} → {d : List (Bytes × ObjBen)} → Entries bs d →
    ∀ {p fuel : ℕ}, At code p (bs ++ [ch 'e']) → p + bs.length + 1 ≤ size →
    bs.length + 1 < fuel → benValidateDLoop fuel code size p = .ok (some (p + bs.length + 1))
  | _, _, .nil, p, fuel, h, hs, hf => by
    obtain ⟨f, rfl⟩ : ∃ f, fuel = f + 1 := ⟨fuel - 1, by omega⟩
    rw [benValidateDLoop, At.deref h, exec_ok_bind, if_pos rfl, exec_pure]
    congr 1
    rw [checkEnd_eq_some]
    simpa using hs
  | _, _, @Entries.cons k b bs _ _ _ key value rest, p, fuel, h, hs, hf => by
    simp only [List.length_append] at hf hs
    obtain ⟨f, rfl⟩ : ∃ f, fuel = f + 1 := ⟨fuel - 1, by omega⟩
    have hkpos := key.length_pos
    have hvpos := value.length_pos
    rw [List.append_assoc, List.append_assoc] at h
    have hkey : benValidateS f code size p = _ :=
      benValidateS_token key h.left (by omega) (by omega)
    have hval : benValidateR f code size (p + k.length) = _ :=
      benValidateR_value value h.right.left (by omega) (by omega)
    obtain ⟨c, k', rfl, hc⟩ := key.head
    rw [benValidateDLoop, h.left.deref, exec_ok_bind, if_neg (digit_ne_marks hc).2.1, hkey]
    simp only [exec_ok_bind]
    rw [hval]
    simp only [exec_ok_bind]
    rw [if_neg (by omega), benValidateDLoop_entries rest h.right.right (by omega) (by omega)]
    simp only [List.length_append]
    congr 2
    omega
end

end Accepts

/-! ## What an acceptance means -/

/-- A complete value stands at `p`, inside of the packet, and ends at `q`. -/
def ValueAt (code : Bytes) (size p q : ℕ) : Prop :=
  ∃ bs t, Value bs t ∧ At code p bs ∧ q = p + bs.length ∧ q ≤ size

/-- The entries of a dictionary stand at `p`, with the end mark in front of `q`. -/
def EntriesAt (code : Bytes) (size p q : ℕ) : Prop :=
  ∃ bs d, Entries bs d ∧ At code p (bs ++ [ch 'e']) ∧ q = p + bs.length + 1 ∧ q ≤ size

/-- The items of a list stand at `p`, with the end mark in front of `q`. -/
def ItemsAt (code : Bytes) (size p q : ℕ) : Prop :=
  ∃ bs l, Items bs l ∧ At code p (bs ++ [ch 'e']) ∧ q = p + bs.length + 1 ∧ q ≤ size

/-- A truncated token fills the rest of the packet from `p` on. -/
def TruncatedAt (code : Bytes) (size p q : ℕ) : Prop :=
  q = size ∧ ∃ bs, Truncated bs ∧ At code p bs ∧ p + bs.length = size

section Sound
variable {code : Bytes} {size : ℕ} (hsize : size ≤ code.length)
include hsize

/-- Behind the digits and the colon stand as many bytes as the digits announce. -/
theorem strToken_announced {ds : Bytes} {start : ℕ} (digits : Digits ds) (pos : 0 < ds.length)
    (short : ds.length ≤ BEN_STR_MAXLEN) (nonempty : 0 < numeral ds)
    (fits : numeral ds ≤ BEN_STR_MAXSIZE) (hat : At code start (ds ++ [ch ':']))
    (hend : start + ds.length + 1 + numeral ds ≤ size) :
    ∃ bs s, StrToken bs s ∧ At code start bs ∧ bs.length = ds.length + 1 + numeral ds := by
  have hs : At code (start + (ds ++ [ch ':']).length)
      ((code.drop (start + (ds ++ [ch ':']).length)).take (numeral ds)) := List.take_prefix _ _
  have hlen : ((code.drop (start + (ds ++ [ch ':']).length)).take (numeral ds)).length =
      numeral ds := by
    rw [List.length_take, List.length_drop, List.length_append, List.length_singleton]
    omega
  refine ⟨_, _, .mk digits pos short hlen.symm (by rwa [hlen]) (by rwa [hlen]), ?_, ?_⟩
  · rw [List.append_cons]
    exact At.split.mpr ⟨hat, hs⟩
  · rw [List.length_append, List.length_cons, hlen]
    omega

theorem benValidateSLoop_sound (start fuel : ℕ) : ∀ (ds : Bytes) (q : ℕ), Digits ds →
    At code start ds → start + ds.length ≤ size →
    benValidateSLoop code size start fuel ds.length (start + ds.length) = .ok (some q) →
    (∃ bs s, StrToken bs s ∧ At code start bs ∧ q = start + bs.length ∧ q ≤ size) ∨
      (q = size ∧ ∃ ds, Digits ds ∧ At code start ds ∧ start + ds.length = size) := by
  induction fuel with
  | zero => intro ds q _ _ _ h; simp [benValidateSLoop] at h
  | succ fuel ih =>
    intro ds q hd hat hs h
    rw [benValidateSLoop] at h
    split at h
    · obtain ⟨c, hc, h⟩ := exec_bind_eq_ok.mp h
      have hsnoc := hat.snoc hc
      split at h
      · rename_i hdig
        refine ih (ds ++ [c]) q (hd.snoc hdig) hsnoc ?_ ?_
        · rw [List.length_append, List.length_singleton]; omega
        · rw [List.length_append, List.length_singleton]; exact h
      · split at h
        · rename_i hcolon
          split at h
          · simp at h
          · rename_i hlen
            obtain ⟨buf, hbuf, h⟩ := exec_bind_eq_ok.mp h
            have hne : ds ≠ [] := by rintro rfl; simp at hlen
            rw [hat.copyFrom hne, Except.ok.injEq] at hbuf
            subst hbuf
            have hval := atol_short hd (by omega)
            dsimp only at h
            split at h
            · simp at h
            · rename_i hl
              simp only [exec_pure, Except.ok.injEq] at h
              obtain ⟨rfl, hq⟩ := checkEnd_eq_some.mp h
              rw [hval] at hl hq ⊢
              rw [Int.toNat_natCast] at hq ⊢
              obtain ⟨bs, s, token, hbs, hbslen⟩ := strToken_announced hsize hd (by omega)
                (by omega) (by omega) (by omega) (hcolon ▸ hsnoc) (by omega)
              exact .inl ⟨bs, s, token, hbs, by omega, hq⟩
        · simp at h
    · simp only [exec_pure, Except.ok.injEq] at h
      obtain ⟨rfl, hq⟩ := checkEnd_eq_some.mp h
      exact .inr ⟨by omega, ds, hd, hat, by omega⟩

theorem benValidateS_sound {fuel p q : ℕ} (h : benValidateS fuel code size p = .ok (some q)) :
    (∃ bs s, StrToken bs s ∧ At code p bs ∧ q = p + bs.length ∧ q ≤ size) ∨
      TruncatedAt code size p q := by
  rw [benValidateS] at h
  split at h
  · simp at h
  · rename_i hp
    rcases benValidateSLoop_sound hsize p fuel [] q (by simp [Digits]) (by simp [At])
      (by simp; omega) (by simpa using h) with h | ⟨rfl, ds, hd, hat, hlen⟩
    · exact .inl h
    · refine .inr ⟨rfl, ds, ⟨ds, ?_, hd, .inl rfl⟩, hat, hlen⟩
      rintro rfl
      simp at hlen; omega

omit hsize in
theorem benValidateILoop_sound (size start fuel : ℕ) : ∀ (ds : Bytes) (q : ℕ), Digits ds →
    At code start ds → start + ds.length ≤ size →
    benValidateILoop code size start fuel ds.length (start + ds.length) = .ok (some q) →
    (∃ ds, Digits ds ∧ 0 < ds.length ∧ ds.length ≤ BEN_INT_MAXLEN ∧
        At code start (ds ++ [ch 'e']) ∧ q = start + ds.length + 1 ∧ q ≤ size) ∨
      (q = size ∧ ∃ ds, Digits ds ∧ At code start ds ∧ start + ds.length = size) := by
  induction fuel with
  | zero => intro ds q _ _ _ h; simp [benValidateILoop] at h
  | succ fuel ih =>
    intro ds q hd hat hs h
    rw [benValidateILoop] at h
    split at h
    · obtain ⟨c, hc, h⟩ := exec_bind_eq_ok.mp h
      have hsnoc := hat.snoc hc
      split at h
      · rename_i hdig
        refine ih (ds ++ [c]) q (hd.snoc hdig) hsnoc ?_ ?_
        · rw [List.length_append, List.length_singleton]; omega
        · rw [List.length_append, List.length_singleton]; exact h
      · split at h
        · rename_i he
          split at h
          · simp at h
          · obtain ⟨buf, hbuf, h⟩ := exec_bind_eq_ok.mp h
            dsimp only at h
            split at h
            · simp at h
            · simp only [exec_pure, Except.ok.injEq] at h
              obtain ⟨rfl, hq⟩ := checkEnd_eq_some.mp h
              exact .inl ⟨ds, hd, by omega, by omega, he ▸ hsnoc, rfl, hq⟩
        · simp at h
    · simp only [exec_pure, Except.ok.injEq] at h
      obtain ⟨rfl, hq⟩ := checkEnd_eq_some.mp h
      exact .inr ⟨by omega, ds, hd, hat, by omega⟩

theorem benValidateI_sound {fuel p q : ℕ} (hi : deref code p = .ok (ch 'i'))
    (h : benValidateI fuel code size p = .ok (some q)) :
    ValueAt code size p q ∨ TruncatedAt code size p q := by
  have hopen := At.single hi
  rw [benValidateI] at h
  split at h
  · simp at h
  · rename_i hp
    obtain ⟨c, hc, h⟩ := exec_bind_eq_ok.mp h
    split at h
    · rename_i hsign
      rw [hsign] at hc
      have hopen2 : At code p [ch 'i', ch '-'] := hopen.snoc hc
      split at h
      · simp at h
      · rename_i hp2
        rcases benValidateILoop_sound size (p + 2) fuel [] q (by simp [Digits]) (by simp [At])
          (by simp; omega) (by simpa using h) with
          ⟨ds, hd, hpos, hshort, hat, rfl, hq⟩ | ⟨rfl, ds, hd, hat, hlen⟩
        · refine .inl ⟨_, _, .int (.neg hd hpos hshort), At.split.mpr ⟨hopen2, hat⟩, ?_, hq⟩
          simp only [List.length_cons, List.length_append, List.length_nil]
          omega
        · refine .inr ⟨rfl, _, ⟨ds, ?_, hd, .inr (.inr rfl)⟩, At.split.mpr ⟨hopen2, hat⟩, ?_⟩
          · rintro rfl
            simp at hlen; omega
          · simp only [List.length_cons]; omega
    · rcases benValidateILoop_sound size (p + 1) fuel [] q (by simp [Digits]) (by simp [At])
        (by simp; omega) (by simpa using h) with
        ⟨ds, hd, hpos, hshort, hat, rfl, hq⟩ | ⟨rfl, ds, hd, hat, hlen⟩
      · refine .inl ⟨_, _, .int (.pos hd hpos hshort), At.split.mpr ⟨hopen, hat⟩, ?_, hq⟩
        simp only [List.length_cons, List.length_append, List.length_nil]
        omega
      · refine .inr ⟨rfl, _, ⟨ds, ?_, hd, .inr (.inl rfl)⟩, At.split.mpr ⟨hopen, hat⟩, ?_⟩
        · rintro rfl
          simp at hlen; omega
        · simp only [List.length_cons]; omega

/-- What `ben_validate_r` accepts, if the container loops are sound. -/
theorem benValidateR_step {fuel p q : ℕ}
    (ihD : ∀ p q, benValidateDLoop fuel code size p = .ok (some q) → EntriesAt code size p q)
    (ihL : ∀ p q, benValidateLLoop fuel code size p = .ok (some q) → ItemsAt code size p q)
    (h : benValidateR (fuel + 1) code size p = .ok (some q)) :
    ValueAt code size p q ∨ TruncatedAt code size p q := by
  rw [benValidateR] at h
  split at h
  · simp at h
  · obtain ⟨c, hc, h⟩ := exec_bind_eq_ok.mp h
    have hopen := At.single hc
    split at h
    · rename_i hd
      split at h
      · simp at h
      · obtain ⟨bs, d, entries, hat, rfl, hq⟩ := ihD _ _ h
        refine .inl ⟨_, _, .dict entries, hd ▸ At.split.mpr ⟨hopen, hat⟩, ?_, hq⟩
        simp only [List.length_cons, List.length_append, List.length_nil]
        omega
    · split at h
      · rename_i hl
        split at h
        · simp at h
        · obtain ⟨bs, l, items, hat, rfl, hq⟩ := ihL _ _ h
          refine .inl ⟨_, _, .list items, hl ▸ At.split.mpr ⟨hopen, hat⟩, ?_, hq⟩
          simp only [List.length_cons, List.length_append, List.length_nil]
          omega
      · split at h
        · rename_i hi
          exact benValidateI_sound hsize (hi ▸ hc) h
        · split at h
          · rcases benValidateS_sound hsize h with ⟨bs, s, token, hat, hq, hle⟩ | htrunc
            · exact .inl ⟨bs, _, .str token, hat, hq, hle⟩
            · exact .inr htrunc
          · simp at h

/-- One round of the dictionary loop. -/
theorem benValidateDLoop_step {fuel p q : ℕ}
    (ihR : ∀ p q, benValidateR fuel code size p = .ok (some q) →
      ValueAt code size p q ∨ TruncatedAt code size p q)
    (ihD : ∀ p q, benValidateDLoop fuel code size p = .ok (some q) → EntriesAt code size p q)
    (h : benValidateDLoop (fuel + 1) code size p = .ok (some q)) : EntriesAt code size p q := by
  rw [benValidateDLoop] at h
  obtain ⟨c, hc, h⟩ := exec_bind_eq_ok.mp h
  split at h
  · rename_i he
    simp only [exec_pure, Except.ok.injEq] at h
    obtain ⟨rfl, hq⟩ := checkEnd_eq_some.mp h
    exact ⟨[], [], .nil, he ▸ At.single hc, by simp, hq⟩
  · obtain ⟨r, hr, h⟩ := exec_bind_eq_ok.mp h
    cases r with
    | none => simp at h
    | some p₁ =>
      obtain ⟨r, hr', h⟩ := exec_bind_eq_ok.mp h
      cases r with
      | none => simp at h
      | some p₂ =>
        simp only at h
        split at h
        · simp at h
        · -- a truncated key or value ends at `size`, which the checks refuse
          have hkey := benValidateS_sound hsize hr
          rcases ihR _ _ hr' with ⟨b, t, value, hatv, rfl, hle⟩ | ⟨rfl, -⟩
          · rcases hkey with ⟨k, s, key, hatk, rfl, hlek⟩ | ⟨rfl, -⟩
            · obtain ⟨bs, d, entries, hat, rfl, hq⟩ := ihD _ _ h
              refine ⟨_, _, .cons key value entries, ?_, ?_, hq⟩
              · rw [List.append_assoc, List.append_assoc]
                exact At.split.mpr ⟨hatk, At.split.mpr ⟨hatv, hat⟩⟩
              · simp only [List.length_append]; omega
            · have := value.length_pos
              omega
          · omega

omit hsize in
/-- One round of the list loop. -/
theorem benValidateLLoop_step {fuel p q : ℕ}
    (ihR : ∀ p q, benValidateR fuel code size p = .ok (some q) →
      ValueAt code size p q ∨ TruncatedAt code size p q)
    (ihL : ∀ p q, benValidateLLoop fuel code size p = .ok (some q) → ItemsAt code size p q)
    (h : benValidateLLoop (fuel + 1) code size p = .ok (some q)) : ItemsAt code size p q := by
  rw [benValidateLLoop] at h
  obtain ⟨c, hc, h⟩ := exec_bind_eq_ok.mp h
  split at h
  · rename_i he
    simp only [exec_pure, Except.ok.injEq] at h
    obtain ⟨rfl, hq⟩ := checkEnd_eq_some.mp h
    exact ⟨[], [], .nil, he ▸ At.single hc, by simp, hq⟩
  · obtain ⟨r, hr, h⟩ := exec_bind_eq_ok.mp h
    cases r with
    | none => simp at h
    | some p₁ =>
      simp only at h
      split at h
      · simp at h
      · rcases ihR _ _ hr with ⟨b, t, value, hatv, rfl, hle⟩ | ⟨rfl, -⟩
        · obtain ⟨bs, l, items, hat, rfl, hq⟩ := ihL _ _ h
          refine ⟨_, _, .cons value items, ?_, ?_, hq⟩
          · rw [List.append_assoc]
            exact At.split.mpr ⟨hatv, hat⟩
          · simp only [List.length_append]; omega
        · omega

/-- The joint induction over the fuel. -/
theorem benValidate_sound_joint (fuel : ℕ) :
    (∀ p q, benValidateR fuel code size p = .ok (some q) →
      ValueAt code size p q ∨ TruncatedAt code size p q) ∧
    (∀ p q, benValidateDLoop fuel code size p = .ok (some q) → EntriesAt code size p q) ∧
    ∀ p q, benValidateLLoop fuel code size p = .ok (some q) → ItemsAt code size p q := by
  induction fuel with
  | zero => simp [benValidateR, benValidateDLoop, benValidateLLoop]
  | succ fuel ih =>
    obtain ⟨ihR, ihD, ihL⟩ := ih
    exact ⟨fun p q => benValidateR_step hsize ihD ihL,
      fun p q => benValidateDLoop_step hsize ihR ihD, fun p q => benValidateLLoop_step ihR ihL⟩

/-- What the validator accepts is a complete value or a token cut off at the packet's end. -/
theorem benValidateR_sound {fuel p q : ℕ} (h : benValidateR fuel code size p = .ok (some q)) :
    ValueAt code size p q ∨ TruncatedAt code size p q :=
  (benValidate_sound_joint hsize fuel).1 p q h

/-! ## Termination -/

theorem benValidateR_progress {fuel p q : ℕ}
    (h : benValidateR fuel code size p = .ok (some q)) : p < q := by
  rcases benValidateR_sound hsize h with ⟨bs, t, value, -, rfl, -⟩ | ⟨rfl, bs, hbs, -, hlen⟩
  · have := value.length_pos
    omega
  · have := hbs.length_pos
    omega

theorem benValidateS_progress {fuel p q : ℕ}
    (h : benValidateS fuel code size p = .ok (some q)) : p < q := by
  rcases benValidateS_sound hsize h with ⟨bs, s, token, -, rfl, -⟩ | ⟨rfl, bs, hbs, -, hlen⟩
  · have := token.length_pos
    omega
  · have := hbs.length_pos
    omega

theorem benValidateSLoop_total (start fuel : ℕ) : ∀ i, size - (start + i) < fuel →
    ∃ r, benValidateSLoop code size start fuel i (start + i) = .ok r := by
  induction fuel with
  | zero => intro i hi; omega
  | succ fuel ih =>
    intro i hi
    rw [benValidateSLoop]
    split
    · rename_i hlt
      have hcopy : copyFrom code start i = .ok _ := if_pos (by omega)
      rw [deref_of_lt (by omega), exec_ok_bind, hcopy, exec_ok_bind]
      dsimp only
      split_ifs
      · exact ih (i + 1) (by omega)
      all_goals exact ⟨_, rfl⟩
    · exact ⟨_, rfl⟩

theorem benValidateS_total {fuel p : ℕ} (hf : size - p < fuel) :
    ∃ r, benValidateS fuel code size p = .ok r := by
  rw [benValidateS]
  split
  · exact ⟨_, rfl⟩
  · exact benValidateSLoop_total hsize p fuel 0 hf

theorem benValidateILoop_total (start fuel : ℕ) : ∀ i, size - (start + i) < fuel →
    ∃ r, benValidateILoop code size start fuel i (start + i) = .ok r := by
  induction fuel with
  | zero => intro i hi; omega
  | succ fuel ih =>
    intro i hi
    rw [benValidateILoop]
    split
    · rename_i hlt
      have hcopy : copyFrom code start i = .ok _ := if_pos (by omega)
      rw [deref_of_lt (by omega), exec_ok_bind, hcopy, exec_ok_bind]
      dsimp only
      split_ifs
      · exact ih (i + 1) (by omega)
      all_goals exact ⟨_, rfl⟩
    · exact ⟨_, rfl⟩

theorem benValidateI_total {fuel p : ℕ} (hf : size - p < fuel) :
    ∃ r, benValidateI fuel code size p = .ok r := by
  rw [benValidateI]
  split
  · exact ⟨_, rfl⟩
  · rw [deref_of_lt (by omega), exec_ok_bind]
    split_ifs
    · exact ⟨_, rfl⟩
    · exact benValidateILoop_total hsize (p + 2) fuel 0 (by omega)
    · exact benValidateILoop_total hsize (p + 1) fuel 0 (by omega)

/-- `ben_validate_r` returns, if the container loops do behind the opening byte. -/
theorem benValidateR_returns {fuel p : ℕ} (hf : size - p < fuel)
    (ihD : p + 1 < size → ∃ r, benValidateDLoop fuel code size (p + 1) = .ok r)
    (ihL : p + 1 < size → ∃ r, benValidateLLoop fuel code size (p + 1) = .ok r) :
    ∃ r, benValidateR (fuel + 1) code size p = .ok r := by
  rw [benValidateR]
  split
  · exact ⟨_, rfl⟩
  · rw [deref_of_lt (by omega), exec_ok_bind]
    split_ifs
    · exact ⟨_, rfl⟩
    · exact ihD (by omega)
    · exact ⟨_, rfl⟩
    · exact ihL (by omega)
    · exact benValidateI_total hsize hf
    · exact benValidateS_total hsize hf
    · exact ⟨_, rfl⟩

/-- A round of the dictionary loop returns, if the value behind the key and the next round do. -/
theorem benValidateDLoop_returns {fuel p : ℕ} (hp : p < size) (hf : size - p < fuel)
    (ihR : ∀ q, p < q → ∃ r, benValidateR fuel code size q = .ok r)
    (ihD : ∀ q, p < q → q < size → ∃ r, benValidateDLoop fuel code size q = .ok r) :
    ∃ r, benValidateDLoop (fuel + 1) code size p = .ok r := by
  rw [benValidateDLoop, deref_of_lt (by omega), exec_ok_bind]
  split
  · exact ⟨_, rfl⟩
  · obtain ⟨key, hkey⟩ : ∃ r, benValidateS fuel code size p = .ok r := benValidateS_total hsize hf
    rw [hkey, exec_ok_bind]
    cases key with
    | none => exact ⟨_, rfl⟩
    | some p₁ =>
      have hp₁ := benValidateS_progress hsize hkey
      obtain ⟨value, hvalue⟩ := ihR p₁ hp₁
      dsimp only
      rw [hvalue, exec_ok_bind]
      cases value with
      | none => exact ⟨_, rfl⟩
      | some p₂ =>
        have hp₂ := benValidateR_progress hsize hvalue
        dsimp only
        split
        · exact ⟨_, rfl⟩
        · exact ihD p₂ (hp₁.trans hp₂) (by omega)

/-- A round of the list loop returns, if the item and the next round do. -/
theorem benValidateLLoop_returns {fuel p : ℕ} (hp : p < size)
    (ihR : ∃ r, benValidateR fuel code size p = .ok r)
    (ihL : ∀ q, p < q → q < size → ∃ r, benValidateLLoop fuel code size q = .ok r) :
    ∃ r, benValidateLLoop (fuel + 1) code size p = .ok r := by
  rw [benValidateLLoop, deref_of_lt (by omega), exec_ok_bind]
  split
  · exact ⟨_, rfl⟩
  · obtain ⟨item, hitem⟩ := ihR
    rw [hitem, exec_ok_bind]
    cases item with
    | none => exact ⟨_, rfl⟩
    | some p₁ =>
      have hp₁ := benValidateR_progress hsize hitem
      dsimp only
      split
      · exact ⟨_, rfl⟩
      · exact ihL p₁ hp₁ (by omega)

/-- A container costs two units of fuel for every byte, one for its nesting and one for its loop. -/
theorem benValidate_total_joint (fuel : ℕ) :
    (∀ p, 2 * (size - p) + 2 ≤ fuel → ∃ r, benValidateR fuel code size p = .ok r) ∧
    (∀ p, p < size → 2 * (size - p) + 3 ≤ fuel → ∃ r, benValidateDLoop fuel code size p = .ok r) ∧
    (∀ p, p < size → 2 * (size - p) + 3 ≤ fuel →
      ∃ r, benValidateLLoop fuel code size p = .ok r) := by
  induction fuel with
  | zero => exact ⟨fun p h => by omega, fun p _ h => by omega, fun p _ h => by omega⟩
  | succ fuel ih =>
    obtain ⟨ihR, ihD, ihL⟩ := ih
    refine ⟨fun p hf => ?_, fun p hp hf => ?_, fun p hp hf => ?_⟩
    · exact benValidateR_returns hsize (by omega) (fun hp => ihD (p + 1) hp (by omega))
        fun hp => ihL (p + 1) hp (by omega)
    · exact benValidateDLoop_returns hsize hp (by omega) (fun q hq => ihR q (by omega))
        fun q hq hlt => ihD q hlt (by omega)
    · exact benValidateLLoop_returns hsize hp (ihR p (by omega))
        fun q hq hlt => ihL q hlt (by omega)

end Sound

/-- `ben_validate` returns on every packet, whatever the memory behind the packet holds. -/
theorem benValidate_total {code : Bytes} {size : ℕ} (hsize : size ≤ code.length) :
    ∃ r, benValidate code size = .ok r :=
  (benValidate_total_joint hsize _).1 0 (by omega)

theorem benValidate_sound {code : Bytes} {size q : ℕ} (hsize : size ≤ code.length)
    (h : benValidate code size = .ok (some q)) :
    ValueAt code size 0 q ∨ TruncatedAt code size 0 q := benValidateR_sound hsize h

theorem benValidate_value {bs code : Bytes} {t : ObjBen} {size : ℕ} (value : Value bs t)
    (h : bs <+: code) (hs : bs.length ≤ size) :
    benValidate code size = .ok (some bs.length) := by
  rw [benValidate, benValidateR_value value (At.zero_iff.mpr h) (by omega) (by omega), Nat.zero_add]

end Masala.Bencode
