import Masala.Bencode.Language

/-!
# Packets between validation and decoding

`udp_input` clears its buffer, receives at most `UDP_BUF` bytes and hands them
to `p2p_parse`, which decodes whatever the validator accepts. The two parsers
agree on every packet except a bare token that lacks its delimiter: that one is
accepted, and the decoder then waits forever on the zero byte behind it.
-/
namespace Masala.Bencode
open Library

def UDP_BUF : ℕ := 1460

/-- The cleared buffer of `udp_input` with a received payload in front. -/
def udpBuffer (payload : Bytes) : Bytes :=
  payload ++ List.replicate (UDP_BUF + 1 - payload.length) 0

/-- Whatever follows an accepted payload, decoding ends at the validator's cursor with a tree.
The decoder that is given the payload alone would fault on any inspection past its end. -/
def DecodesAsValidated (payload : Bytes) : Prop :=
  ∀ rest p, benValidate (payload ++ rest) payload.length = .ok (some p) →
    ∃ t n, ∀ fuel, n ≤ fuel →
      benDec fuel payload = .ok (some t, p) ∧ benDec fuel (payload ++ rest) = .ok (some t, p)

theorem decodesAsValidated_of_complete {payload : Bytes} (h : ¬ Truncated payload) :
    DecodesAsValidated payload := by
  intro rest p hp
  rcases benValidate_sound (by simp) hp with ⟨bs, t, value, hat, hp, hle⟩ |
    ⟨-, bs, htrunc, hat, hlen⟩
  · have hpre : bs <+: payload :=
      List.prefix_of_prefix_length_le (At.zero_iff.mp hat) (List.prefix_append _ _) (by omega)
    rw [Nat.zero_add] at hp
    subst hp
    exact ⟨t, bs.length + 1, fun fuel hf => ⟨benDec_value value hpre hf,
      benDec_value value (hpre.trans (List.prefix_append _ _)) hf⟩⟩
  · have hpre : bs <+: payload :=
      List.prefix_of_prefix_length_le (At.zero_iff.mp hat) (List.prefix_append _ _) (by omega)
    exact absurd (hpre.eq_of_length (by omega) ▸ htrunc) h

/-! ## Truncated tokens -/

section Truncated
variable {code ds : Bytes} {size p fuel : ℕ}

theorem benValidateS_truncated (hd : Digits ds) (hne : ds ≠ []) (h : At code p ds)
    (hs : p + ds.length = size) (hf : ds.length < fuel) :
    benValidateS fuel code size p = .ok (some size) := by
  have hpos := List.length_pos_iff.mpr hne
  obtain ⟨f, rfl⟩ : ∃ f, fuel = ds.length + (f + 1) := ⟨fuel - ds.length - 1, by omega⟩
  rw [benValidateS, if_neg (by omega), benValidateSLoop_digits p (f + 1) hd 0 p h (by omega),
    benValidateSLoop, if_neg (by omega), exec_pure, checkEnd, if_neg (by omega), hs]

theorem benValidateILoop_truncated (hd : Digits ds) (h : At code p ds)
    (hs : p + ds.length = size) (hf : ds.length < fuel) :
    benValidateILoop code size p fuel 0 p = .ok (some size) := by
  obtain ⟨f, rfl⟩ : ∃ f, fuel = ds.length + (f + 1) := ⟨fuel - ds.length - 1, by omega⟩
  rw [benValidateILoop_digits p (f + 1) hd 0 p h (by omega), benValidateILoop, if_neg (by omega),
    exec_pure, checkEnd, if_neg (by omega), hs]

/-- The validator accepts a truncated token although its loop never saw the delimiter. -/
theorem benValidate_truncated {bs : Bytes} (h : Truncated bs) (h0 : At code 0 bs) :
    benValidate code bs.length = .ok (some bs.length) := by
  obtain ⟨ds, hne, hd, hbs⟩ := h
  have hpos := List.length_pos_iff.mpr hne
  obtain ⟨c, rest, rfl⟩ := List.exists_cons_of_ne_nil hne
  have hc := hd c (by simp)
  obtain ⟨-, -, hcs, hcd, hcl, hci⟩ := digit_ne_marks hc
  rcases hbs with rfl | rfl | rfl
  · rw [benValidate, benValidateR, if_neg (by omega), h0.deref, exec_ok_bind, if_neg hcd,
      if_neg hcl, if_neg hci, if_pos hc]
    exact benValidateS_truncated hd hne h0 (by omega) (by omega)
  · rw [benValidate, benValidateR, if_neg (by simp), h0.deref, exec_ok_bind, if_neg (by decide),
      if_neg (by decide), if_pos rfl, benValidateI, if_neg (by simp), h0.tail.deref, exec_ok_bind,
      if_neg hcs]
    simp only [List.length_cons]
    exact benValidateILoop_truncated hd h0.tail (by simp only [List.length_cons]; omega)
      (by simp only [List.length_cons]; omega)
  · rw [benValidate, benValidateR, if_neg (by simp), h0.deref, exec_ok_bind, if_neg (by decide),
      if_neg (by decide), if_pos rfl, benValidateI, if_neg (by simp), h0.tail.deref, exec_ok_bind,
      if_pos rfl, if_neg (by simp only [List.length_cons]; omega)]
    simp only [List.length_cons]
    exact benValidateILoop_truncated hd h0.tail.tail (by simp only [List.length_cons]; omega)
      (by simp only [List.length_cons]; omega)

/-- What the decoder does behind a run of digits without delimiter: it faults past the end of the
memory, and on a zero byte it never leaves the loop. -/
def Stuck (code : Bytes) (p : ℕ) : Prop :=
  code[p]? = none ∨ code[p]? = some 0

theorem benDecSLoop_stuck (start fuel : ℕ) : ∀ (ds : Bytes) (i p : ℕ), Digits ds →
    At code p ds → Stuck code (p + ds.length) →
    (∀ r, benDecSLoop code start fuel i p ≠ .ok r) ∧
      (code[p + ds.length]? = some 0 → benDecSLoop code start fuel i p = .error .fuel) := by
  induction fuel with
  | zero => intro ds i p _ _ _; simp [benDecSLoop]
  | succ fuel ih =>
    intro ds i p hd h hend
    cases ds with
    | nil =>
      rw [List.length_nil, Nat.add_zero] at hend ⊢
      rcases hend with hend | hend
      · simp [benDecSLoop, deref, hend]
      · have := ih [] i p (by simp [Digits]) (by simp [At]) (.inr hend)
        rw [benDecSLoop, deref_eq_ok.mpr hend, exec_ok_bind, if_neg (by decide),
          if_neg (by decide)]
        exact this
    | cons c ds =>
      have hc := hd c (by simp)
      rw [List.length_cons, Nat.add_comm ds.length, ← Nat.add_assoc] at hend ⊢
      rw [benDecSLoop, h.deref, exec_ok_bind, if_pos hc]
      exact ih ds (i + 1) (p + 1) (fun x hx => hd x (by simp [hx])) h.tail hend

theorem benDecILoop_stuck (start : ℕ) (sign : ℤ) (fuel : ℕ) : ∀ (ds : Bytes) (i p : ℕ), Digits ds →
    At code p ds → Stuck code (p + ds.length) →
    (∀ r, benDecILoop code start sign fuel i p ≠ .ok r) ∧
      (code[p + ds.length]? = some 0 → benDecILoop code start sign fuel i p = .error .fuel) := by
  induction fuel with
  | zero => intro ds i p _ _ _; simp [benDecILoop]
  | succ fuel ih =>
    intro ds i p hd h hend
    cases ds with
    | nil =>
      rw [List.length_nil, Nat.add_zero] at hend ⊢
      rcases hend with hend | hend
      · simp [benDecILoop, deref, hend]
      · have := ih [] i p (by simp [Digits]) (by simp [At]) (.inr hend)
        rw [benDecILoop, deref_eq_ok.mpr hend, exec_ok_bind, if_neg (by decide),
          if_neg (by decide)]
        exact this
    | cons c ds =>
      have hc := hd c (by simp)
      rw [List.length_cons, Nat.add_comm ds.length, ← Nat.add_assoc] at hend ⊢
      rw [benDecILoop, h.deref, exec_ok_bind, if_pos hc]
      exact ih ds (i + 1) (p + 1) (fun x hx => hd x (by simp [hx])) h.tail hend

theorem benDec_stuck {bs : Bytes} (h : Truncated bs) (h0 : At code 0 bs)
    (hend : Stuck code bs.length) (fuel : ℕ) :
    (∀ r, benDec fuel code ≠ .ok r) ∧
      (code[bs.length]? = some 0 → benDec fuel code = .error .fuel) := by
  obtain ⟨ds, hne, hd, hbs⟩ := h
  obtain ⟨c, rest, rfl⟩ := List.exists_cons_of_ne_nil hne
  have hc := hd c (by simp)
  obtain ⟨-, -, hcs, hcd, hcl, hci⟩ := digit_ne_marks hc
  cases fuel with
  | zero => simp [benDec, benDecR]
  | succ fuel =>
    rw [benDec, benDecR]
    rcases hbs with rfl | rfl | rfl
    · rw [h0.deref, exec_ok_bind, if_neg hcd, if_neg hcl, if_neg hci, if_pos hc, benDecS]
      have := benDecSLoop_stuck 0 fuel _ 0 0 hd h0 (by rwa [Nat.zero_add])
      rw [Nat.zero_add] at this
      refine ⟨fun r hr => ?_, fun hz => by rw [this.2 hz]; rfl⟩
      obtain ⟨a, ha, -⟩ := exec_bind_eq_ok.mp hr
      exact this.1 a ha
    · rw [h0.deref, exec_ok_bind, if_neg (by decide), if_neg (by decide), if_pos rfl, benDecI,
        h0.tail.deref, exec_ok_bind, if_neg hcs]
      have hlen : (ch 'i' :: c :: rest).length = 0 + 1 + (c :: rest).length := by simp; omega
      rw [hlen] at hend ⊢
      have := benDecILoop_stuck (0 + 1) 1 fuel _ 0 _ hd h0.tail hend
      refine ⟨fun r hr => ?_, fun hz => by rw [this.2 hz]; rfl⟩
      obtain ⟨a, ha, -⟩ := exec_bind_eq_ok.mp hr
      exact this.1 a ha
    · rw [h0.deref, exec_ok_bind, if_neg (by decide), if_neg (by decide), if_pos rfl, benDecI,
        h0.tail.deref, exec_ok_bind, if_pos rfl]
      have hlen : (ch 'i' :: ch '-' :: c :: rest).length = 0 + 2 + (c :: rest).length := by
        simp; omega
      rw [hlen] at hend ⊢
      have := benDecILoop_stuck (0 + 2) (-1) fuel _ 0 _ hd h0.tail.tail hend
      refine ⟨fun r hr => ?_, fun hz => by rw [this.2 hz]; rfl⟩
      obtain ⟨a, ha, -⟩ := exec_bind_eq_ok.mp hr
      exact this.1 a ha

end Truncated

/-- A truncated packet is accepted, yet the decoder leaves the packet. -/
theorem not_decodesAsValidated_of_truncated {payload : Bytes} (h : Truncated payload) :
    ¬ DecodesAsValidated payload := by
  intro hdec
  have hat : At payload 0 payload := At.zero_iff.mpr List.prefix_rfl
  obtain ⟨t, n, hn⟩ := hdec [] payload.length
    (by rw [List.append_nil]; exact benValidate_truncated h hat)
  exact (benDec_stuck h hat (.inl (by simp)) n).1 _ (hn n le_rfl).1

/-- In the cleared receive buffer a truncated packet hangs the decoder. -/
theorem benDec_hangs {payload : Bytes} (h : Truncated payload) (rest : Bytes) (fuel : ℕ) :
    benDec fuel (payload ++ 0 :: rest) = .error .fuel := by
  have hz : (payload ++ 0 :: rest)[payload.length]? = some 0 := by simp
  exact (benDec_stuck h (At.zero_iff.mpr (List.prefix_append _ _)) (.inr hz) fuel).2 hz

/-- The two parsers agree on a packet exactly if it is no truncated token, and on a truncated
token the decoder hangs at the zero byte that follows in the buffer. -/
theorem decodesAsValidated_iff (payload : Bytes) :
    (DecodesAsValidated payload ↔ ¬ Truncated payload) ∧
      (Truncated payload → ∀ rest fuel, benDec fuel (payload ++ 0 :: rest) = .error .fuel) :=
  ⟨⟨fun hdec h => not_decodesAsValidated_of_truncated h hdec, decodesAsValidated_of_complete⟩,
    fun h rest fuel => benDec_hangs h rest fuel⟩

theorem truncated_digit : Truncated [ch '1'] :=
  ⟨[ch '1'], by simp, digits_singleton rfl, .inl rfl⟩

/-- The packet of the single byte `1` passes the validator and hangs the daemon. -/
theorem decodesAsValidated_digit :
    (¬ ∀ payload : Bytes, 1 ≤ payload.length → payload.length ≤ UDP_BUF →
      DecodesAsValidated payload) ∧
    benValidate (udpBuffer [ch '1']) 1 = .ok (some 1) ∧
    ∀ fuel, benDec fuel (udpBuffer [ch '1']) = .error .fuel := by
  refine ⟨fun h => ?_, ?_, fun fuel => ?_⟩
  · exact not_decodesAsValidated_of_truncated truncated_digit (h _ (by decide) (by decide))
  · exact benValidate_truncated truncated_digit (At.zero_iff.mpr (List.prefix_append _ _))
  · exact benDec_hangs truncated_digit (List.replicate 1459 0) fuel

end Masala.Bencode
