import Masala.Digest.Sha1

/-!
# The rounds of a block

Five lines of the source are five rounds: each changes two of the variables,
and the next one takes them under names moved by one. The sixteen words hold
the part of the schedule that the coming rounds still need.
-/
namespace Masala.Digest
open Library

/-! ## Words and bits -/

theorem shiftLeft_or {hi lo i : ℕ} (h : lo < 2 ^ i) : hi <<< i ||| lo = hi * 2 ^ i + lo := by
  rw [← Nat.shiftLeft_add_eq_or_of_lt h, Nat.shiftLeft_eq]

theorem shifted_lt {hi lo i : ℕ} (hhi : hi < 2 ^ 8) (hlo : lo < 2 ^ i) :
    hi * 2 ^ i + lo < 2 ^ (8 + i) :=
  calc hi * 2 ^ i + lo < hi * 2 ^ i + 2 ^ i := Nat.add_lt_add_left hlo _
    _ = (hi + 1) * 2 ^ i := by ring
    _ ≤ 2 ^ 8 * 2 ^ i := Nat.mul_le_mul_right _ hhi
    _ = 2 ^ (8 + i) := by rw [pow_add]

/-- Shifted bytes make a big-endian word. -/
theorem shifted_bytes (a b c d : UInt8) : (a.toUInt32 <<< 24) ||| (b.toUInt32 <<< 16) |||
    (c.toUInt32 <<< 8) ||| d.toUInt32 = UInt32.ofNat (beNat [a, b, c, d]) := by
  have ha := a.toNat_lt
  have hb := b.toNat_lt
  have hc := c.toNat_lt
  have hd := d.toNat_lt
  have hcd : c.toNat * 2 ^ 8 + d.toNat < 2 ^ 16 := shifted_lt hc hd
  have hbcd : b.toNat * 2 ^ 16 + (c.toNat * 2 ^ 8 + d.toNat) < 2 ^ 24 := shifted_lt hb hcd
  have hc' : c.toNat <<< 8 % 2 ^ 32 = c.toNat <<< 8 := by
    rw [Nat.shiftLeft_eq]
    omega
  have hb' : b.toNat <<< 16 % 2 ^ 32 = b.toNat <<< 16 := by
    rw [Nat.shiftLeft_eq]
    omega
  have ha' : a.toNat <<< 24 % 2 ^ 32 = a.toNat <<< 24 := by
    rw [Nat.shiftLeft_eq]
    omega
  apply UInt32.toNat_inj.mp
  calc ((a.toUInt32 <<< 24) ||| (b.toUInt32 <<< 16) ||| (c.toUInt32 <<< 8) ||| d.toUInt32).toNat
      = a.toNat <<< 24 % 2 ^ 32 ||| b.toNat <<< 16 % 2 ^ 32 ||| c.toNat <<< 8 % 2 ^ 32 |||
          d.toNat := by simp
    _ = a.toNat * 2 ^ 24 + (b.toNat * 2 ^ 16 + (c.toNat * 2 ^ 8 + d.toNat)) := by
        rw [ha', hb', hc', Nat.or_assoc, Nat.or_assoc, shiftLeft_or hd, shiftLeft_or hcd,
          shiftLeft_or hbcd]
    _ = (UInt32.ofNat (beNat [a, b, c, d])).toNat := by
        simp only [beNat_cons, beNat_nil, UInt32.toNat_ofNat', List.length_cons, List.length_nil]
        omega

theorem GET_UINT32_BE_eq (b : Octets 64) {i : ℕ} (h : 4 * i + 3 < 64) :
    GET_UINT32_BE b (4 * i) h = blockWord b i := by
  have hb := b.size_eq
  have htake : (b.bytes.drop (4 * i)).take 4 = [b.bytes[4 * i], b.bytes[4 * i + 1],
      b.bytes[4 * i + 2], b.bytes[4 * i + 3]] := by
    rw [List.drop_eq_getElem_cons (by omega), List.drop_eq_getElem_cons (by omega),
      List.drop_eq_getElem_cons (by omega), List.drop_eq_getElem_cons (by omega)]
    rfl
  rw [blockWord, htake, GET_UINT32_BE, shifted_bytes]

theorem PUT_UINT32_BE_eq (n : UInt32) : PUT_UINT32_BE n = beBytes 4 n.toNat := by
  have hbyte (k : ℕ) (m : UInt32) (h : m.toNat = n.toNat / 2 ^ k) :
      m.toUInt8 = UInt8.ofNat (n.toNat / 2 ^ k) := by
    apply UInt8.toNat_inj.mp
    rw [UInt32.toNat_toUInt8, UInt8.toNat_ofNat', h]
  rw [PUT_UINT32_BE, hbyte 24 (n >>> 24) (by simp [Nat.shiftRight_eq_div_pow]),
    hbyte 16 (n >>> 16) (by simp [Nat.shiftRight_eq_div_pow]),
    hbyte 8 (n >>> 8) (by simp [Nat.shiftRight_eq_div_pow]), hbyte 0 n (Nat.div_one _).symm]
  rfl

theorem choose_eq (x y z : UInt32) : z ^^^ (x &&& (y ^^^ z)) = choose x y z := by
  rw [choose]
  apply UInt32.toBitVec_inj.mp
  simp only [UInt32.toBitVec_xor, UInt32.toBitVec_and, UInt32.toBitVec_not]
  ext i hi
  simp only [BitVec.getElem_xor, BitVec.getElem_and, BitVec.getElem_not]
  cases x.toBitVec[i] <;> cases z.toBitVec[i] <;> simp

theorem majority_eq (x y z : UInt32) : (x &&& y) ||| (z &&& (x ||| y)) = majority x y z := by
  rw [majority]
  apply UInt32.toBitVec_inj.mp
  simp only [UInt32.toBitVec_xor, UInt32.toBitVec_and, UInt32.toBitVec_or]
  ext i hi
  simp only [BitVec.getElem_xor, BitVec.getElem_and, BitVec.getElem_or]
  cases x.toBitVec[i] <;> cases y.toBitVec[i] <;> simp

theorem S_eq (x n : UInt32) : S x n = rotl x n := by
  have hmask : x &&& 0xFFFFFFFF = x := UInt32.and_neg_one
  rw [S, hmask, rotl]

/-! ## The schedule -/

section Rounds
variable {b : Octets 64} {t : ℕ} {W : Words}

theorem slot_val (t : ℕ) : (slot t).val = t % 16 := Nat.and_two_pow_sub_one_eq_mod t 4

theorem slot_eq_iff {t u : ℕ} : slot t = slot u ↔ t % 16 = u % 16 := by
  rw [Fin.ext_iff, slot_val, slot_val]

/-- Before round `t` the words are the sixteen of the schedule up to `t`, at the start the first
sixteen. -/
def Scheduled (b : Octets 64) (t : ℕ) (W : Words) : Prop :=
  ∀ j, j < max t 16 → max t 16 ≤ j + 16 → W.get (slot j) = schedule b j

theorem Scheduled.start (b : Octets 64) :
    Scheduled b 0 (Vector.ofFn fun i => GET_UINT32_BE b (4 * i) (word_bound i)) := by
  intro j hj _
  have hlt : j < 16 := by simpa using hj
  have hslot : (slot j).val = j := by rw [slot_val, Nat.mod_eq_of_lt hlt]
  refine (Vector.getElem_ofFn (slot j).isLt).trans ?_
  rw [schedule_of_lt hlt, GET_UINT32_BE_eq, hslot]

/-- A line reads the word of its round and keeps the words for the next ones. -/
theorem Scheduled.line (h : Scheduled b t W) :
    ∃ W', lineWord W t = (schedule b t, W') ∧ Scheduled b (t + 1) W' := by
  by_cases ht : t < 16
  · refine ⟨W, ?_, fun j hj hj' => h j (by omega) (by omega)⟩
    have hword : W[slot t] = schedule b t := h t (by omega) (by omega)
    rw [lineWord, if_pos ht, hword]
  · obtain ⟨u, rfl⟩ := Nat.exists_eq_add_of_le' (Nat.not_lt.mp ht)
    have hu : slot (u + 16) = slot u := slot_eq_iff.mpr (Nat.add_mod_right u 16)
    have hkept : ∀ j < 16, W[slot (u + j)] = schedule b (u + j) := fun j hj =>
      h (u + j) (by omega) (by omega)
    have hold : W[slot (u + 16)] = schedule b u := by
      simp only [hu]
      exact hkept 0 (by decide)
    have hw : S (W[slot (u + 13)] ^^^ W[slot (u + 8)] ^^^ W[slot (u + 2)] ^^^ W[slot (u + 16)]) 1 =
        schedule b (u + 16) := by
      rw [S_eq, schedule_add, hkept 13 (by decide), hkept 8 (by decide), hkept 2 (by decide), hold]
    refine ⟨W.set (slot (u + 16)) (schedule b (u + 16)), ?_, ?_⟩
    · rw [lineWord, if_neg ht, ← hw]
      rfl
    · intro j hj hj'
      change (W.set (slot (u + 16)) (schedule b (u + 16)))[(slot j).val] = schedule b j
      by_cases he : j = u + 16
      · rw [he, Vector.getElem_set_self]
      · have hne : (slot (u + 16)).val ≠ (slot j).val := by
          rw [slot_val, slot_val]
          omega
        rw [Vector.getElem_set_ne _ _ hne]
        exact h j (by omega) (by omega)

/-! ## The rounds -/

variable {F : UInt32 → UInt32 → UInt32 → UInt32} {K : UInt32}

/-- A line with its summands in the order of a round. -/
theorem line_sum (e s f k x : UInt32) : e + (s + f + k + x) = s + f + e + k + x := by ac_rfl

theorem P_eq (h : Scheduled b t W) (r : Registers)
    (hF : ∀ k < 5, roundFunction (t + k) = F ∧ roundConstant (t + k) = K) :
    ∃ W', P F K t (W, r) = (W', (List.range' t 5).foldl (hashRound b) r) ∧
      Scheduled b (t + 5) W' := by
  obtain ⟨W₁, h₁, hs₁⟩ := h.line
  obtain ⟨W₂, h₂, hs₂⟩ := hs₁.line
  obtain ⟨W₃, h₃, hs₃⟩ := hs₂.line
  obtain ⟨W₄, h₄, hs₄⟩ := hs₃.line
  obtain ⟨W₅, h₅, hs₅⟩ := hs₄.line
  refine ⟨W₅, ?_, hs₅⟩
  have hround (k : ℕ) (hk : k < 5) (r : Registers) : hashRound b r (t + k) =
      ⟨rotl r.A 5 + F r.B r.C r.D + r.E + K + schedule b (t + k), r.A, rotl r.B 30, r.C, r.D⟩ := by
    rw [hashRound, (hF k hk).1, (hF k hk).2]
  have h₀ := hround 0 (by decide)
  rw [Nat.add_zero] at h₀
  simp only [P, h₁, h₂, h₃, h₄, h₅, S_eq, line_sum, List.range', List.foldl_cons, List.foldl_nil,
    h₀, hround 1 (by decide), hround 2 (by decide), hround 3 (by decide), hround 4 (by decide),
    Nat.add_assoc, Nat.reduceAdd]

theorem lines_eq (h : Scheduled b t W) (r : Registers)
    (hF : ∀ k < 20, roundFunction (t + k) = F ∧ roundConstant (t + k) = K) :
    ∃ W', lines F K t (W, r) = (W', (List.range' t 20).foldl (hashRound b) r) ∧
      Scheduled b (t + 20) W' := by
  have hfive (m : ℕ) (hm : m ≤ 15) (k : ℕ) (hk : k < 5) :
      roundFunction (t + m + k) = F ∧ roundConstant (t + m + k) = K := by
    rw [Nat.add_assoc]
    exact hF (m + k) (by omega)
  obtain ⟨W₁, h₁, hs₁⟩ := P_eq h r (hfive 0 (by decide))
  obtain ⟨W₂, h₂, hs₂⟩ := P_eq hs₁ _ (hfive 5 (by decide))
  obtain ⟨W₃, h₃, hs₃⟩ := P_eq hs₂ _ (hfive 10 (by decide))
  obtain ⟨W₄, h₄, hs₄⟩ := P_eq hs₃ _ (hfive 15 (by decide))
  refine ⟨W₄, ?_, hs₄⟩
  rw [lines, h₁, h₂, h₃, h₄, ← List.foldl_append, ← List.foldl_append, ← List.foldl_append]
  rfl

end Rounds

/-- `sha1_process` compresses the block. -/
theorem sha1Process_eq (ctx : Sha1Context) (data : Octets 64) :
    sha1Process ctx data = { ctx with state := compress ctx.state data } := by
  have hchoose : (fun x y z : UInt32 => z ^^^ (x &&& (y ^^^ z))) = choose := by
    funext x y z
    exact choose_eq x y z
  have hparity : (fun x y z : UInt32 => x ^^^ y ^^^ z) = parity := rfl
  have hmajority : (fun x y z : UInt32 => (x &&& y) ||| (z &&& (x ||| y))) = majority := by
    funext x y z
    exact majority_eq x y z
  have hphase : ∀ k < 20,
      (roundFunction (0 + k) = choose ∧ roundConstant (0 + k) = 0x5A827999) ∧
      (roundFunction (20 + k) = parity ∧ roundConstant (20 + k) = 0x6ED9EBA1) ∧
      (roundFunction (40 + k) = majority ∧ roundConstant (40 + k) = 0x8F1BBCDC) ∧
      (roundFunction (60 + k) = parity ∧ roundConstant (60 + k) = 0xCA62C1D6) := by
    intro k hk
    simp (disch := omega) only [roundFunction, roundConstant, if_pos, if_neg, and_self]
  obtain ⟨W₁, h₁, hs₁⟩ :=
    lines_eq (Scheduled.start data) ctx.state fun k hk => (hphase k hk).1
  obtain ⟨W₂, h₂, hs₂⟩ := lines_eq hs₁ _ fun k hk => (hphase k hk).2.1
  obtain ⟨W₃, h₃, hs₃⟩ := lines_eq hs₂ _ fun k hk => (hphase k hk).2.2.1
  obtain ⟨W₄, h₄, _⟩ := lines_eq hs₃ _ fun k hk => (hphase k hk).2.2.2
  rw [sha1Process, hchoose, hparity, hmajority]
  rw [h₁, h₂, h₃, h₄, ← List.foldl_append, ← List.foldl_append, ← List.foldl_append]
  rfl

end Masala.Digest
