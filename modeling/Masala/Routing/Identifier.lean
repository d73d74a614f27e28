import Masala.Library.BigEndian
import Masala.Library.Tiling

/-!
# Identifiers

Node, host and session ids are 20 bytes, ordered by `memcmp` as 160-bit
big-endian numbers. This module reads the bit functions of `bucket.c` as
arithmetic on these numbers.
-/
namespace Masala.Routing
open Library

def SHA_DIGEST_LENGTH : ℕ := 20

abbrev Id := Octets SHA_DIGEST_LENGTH

/-- The id that is zero behind its first byte. -/
def headId (c : UInt8) : Id := ⟨c :: List.replicate 19 0, rfl⟩

/-- The loop `for( i = n - 1; i >= 0; i-- ) if( p( i ) ) break;`, `none` where it runs out. -/
def downTo (p : ℕ → Bool) : ℕ → Option ℕ
  | 0 => none
  | n + 1 => if p n then some n else downTo p n

/-- The lowest set bit of a byte, counted from the highest bit on. -/
def lastBit (c : UInt8) : ℤ :=
  match downTo (fun j => c &&& (0x80 >>> UInt8.ofNat j) != 0) 8 with
  | none => -1
  | some j => j

def bcktSignificantBit (id : Id) : ℤ :=
  match downTo (fun i => id.bytes.getD i 0 != 0) SHA_DIGEST_LENGTH with
  | none => -1
  | some i => 8 * i + lastBit (id.bytes.getD i 0)

/-- `id_return[bit / 8] |= (0x80 >> (bit % 8))`. -/
def Id.setBit (id : Id) (bit : ℕ) : Id where
  bytes := id.bytes.set (bit / 8) (id.bytes.getD (bit / 8) 0 ||| (0x80 >>> UInt8.ofNat (bit % 8)))
  size_eq := by rw [List.length_set, id.size_eq]

/-! ## One byte -/

theorem lastBit_spec : ∀ c : UInt8, c ≠ 0 → ∃ j < 8, lastBit c = ((7 - j : ℕ) : ℤ) ∧
    c.toNat % 2 ^ j = 0 ∧ c.toNat / 2 ^ j % 2 = 1 := by
  apply forall_byte
  decide +kernel

theorem setBit_byte : ∀ c : UInt8, ∀ r < 8, c.toNat % 2 ^ (8 - r) = 0 →
    (c ||| (0x80 >>> UInt8.ofNat r)).toNat = c.toNat + 2 ^ (7 - r) := by
  apply forall_byte
  decide +kernel

/-! ## All bytes -/

theorem downTo_none {p : ℕ → Bool} {n : ℕ} (h : downTo p n = none) : ∀ i < n, p i = false := by
  induction n with
  | zero => simp
  | succ n ih =>
    rw [downTo] at h
    by_cases hp : p n
    · simp [hp] at h
    · rw [if_neg hp] at h
      intro i hi
      rcases Nat.lt_succ_iff_lt_or_eq.mp hi with hi | rfl
      · exact ih h i hi
      · simpa using hp

theorem downTo_some {p : ℕ → Bool} {n i : ℕ} (h : downTo p n = some i) :
    i < n ∧ p i = true ∧ ∀ j, i < j → j < n → p j = false := by
  induction n with
  | zero => cases h
  | succ n ih =>
    rw [downTo] at h
    by_cases hp : p n
    · rw [if_pos hp] at h
      obtain rfl := Option.some.inj h
      exact ⟨Nat.lt_succ_self _, hp, fun j hij hj =>
        absurd hij (Nat.not_lt.mpr (Nat.le_of_lt_succ hj))⟩
    · rw [if_neg hp] at h
      obtain ⟨hi, hpi, hall⟩ := ih h
      refine ⟨Nat.lt_succ_of_lt hi, hpi, fun j hij hj => ?_⟩
      rcases Nat.lt_succ_iff_lt_or_eq.mp hj with hj | rfl
      · exact hall j hij hj
      · simpa using hp

/-- The number of an id around its byte at index `i`. -/
theorem Id.val_around (id : Id) {i : ℕ} (hi : i < SHA_DIGEST_LENGTH) :
    id.val = (beNat (id.bytes.take i) * 256 + (id.bytes.getD i 0).toNat) * 256 ^ (19 - i) +
      beNat (id.bytes.drop (i + 1)) := by
  have hlen : i < id.bytes.length := id.size_eq.symm ▸ hi
  have hget : id.bytes.getD i 0 = id.bytes[i] := by simp [List.getD_eq_getElem?_getD, hlen]
  have hrest : (id.bytes.drop (i + 1)).length = 19 - i := by
    rw [List.length_drop, id.size_eq, SHA_DIGEST_LENGTH]
    omega
  have hsplit : id.bytes = id.bytes.take i ++ id.bytes[i] :: id.bytes.drop (i + 1) := by
    rw [List.getElem_cons_drop, List.take_append_drop]
  rw [hget, Octets.val]
  conv_lhs => rw [hsplit]
  rw [beNat_append, beNat_cons, List.length_cons, hrest, pow_succ]
  ring

theorem beNat_eq_zero {bs : Bytes} (h : ∀ b ∈ bs, b = 0) : beNat bs = 0 := by
  rw [List.eq_replicate_of_mem h, beNat_zeros]

theorem lowBit_of_byte {P c m j : ℕ} (hj : j < 8) (hz : c % 2 ^ j = 0) (ho : c / 2 ^ j % 2 = 1) :
    LowBit (8 * m + j) ((P * 256 + c) * 256 ^ m) := by
  obtain ⟨q, rfl⟩ := Nat.dvd_of_mod_eq_zero hz
  rw [Nat.mul_div_cancel_left _ (Nat.two_pow_pos j)] at ho
  obtain ⟨i, hi⟩ : ∃ i, 8 = j + (i + 1) := ⟨7 - j, by omega⟩
  have h256 : 256 = 2 ^ j * (2 ^ i * 2) := by
    rw [← pow_succ, ← pow_add, ← hi]
    rfl
  have hv : (P * 256 + 2 ^ j * q) * 256 ^ m = 2 ^ (8 * m + j) * (P * 2 ^ i * 2 + q) := by
    have hm : 256 ^ m = 2 ^ (8 * m) := by rw [pow_mul]; rfl
    conv_lhs => rw [hm, h256]
    rw [pow_add]
    ring
  rw [hv]
  refine ⟨dvd_mul_right _ _, ?_⟩
  rw [pow_succ, Nat.mul_dvd_mul_iff_left (Nat.two_pow_pos _)]
  omega

/-- `bckt_significant_bit` finds the lowest set bit, counted from the highest one on. -/
theorem bcktSignificantBit_spec (id : Id) : SignificantBit 160 id.val (bcktSignificantBit id) := by
  rw [bcktSignificantBit]
  cases hd : downTo (fun i => id.bytes.getD i 0 != 0) SHA_DIGEST_LENGTH with
  | none =>
    refine .inl ⟨?_, rfl⟩
    have hzero : id.val = 0 := by
      refine beNat_eq_zero fun b hb => ?_
      obtain ⟨i, hi, rfl⟩ := List.mem_iff_getElem.mp hb
      have hp := downTo_none hd i (id.size_eq ▸ hi)
      simpa [List.getD_eq_getElem?_getD, hi] using hp
    rw [hzero]
    exact dvd_zero _
  | some i =>
    obtain ⟨hi, hp, hall⟩ := downTo_some hd
    obtain ⟨j, hj, hlast, hz, ho⟩ := lastBit_spec (id.bytes.getD i 0) (by simpa using hp)
    have hrest : beNat (id.bytes.drop (i + 1)) = 0 := by
      refine beNat_eq_zero fun b hb => ?_
      obtain ⟨n, hn, rfl⟩ := List.mem_iff_getElem.mp hb
      rw [List.length_drop, id.size_eq] at hn
      have hlen : i + 1 + n < id.bytes.length := by
        rw [id.size_eq]
        omega
      have hpn := hall (i + 1 + n) (by omega) (id.size_eq ▸ hlen)
      rw [List.getElem_drop]
      simpa [List.getD_eq_getElem?_getD, hlen] using hpn
    have hv := id.val_around hi
    rw [hrest, Nat.add_zero] at hv
    have hi' : i < 20 := hi
    refine .inr ⟨8 * (19 - i) + j, by omega, hv ▸ lowBit_of_byte hj hz ho, ?_⟩
    dsimp only
    rw [hlast]
    omega

theorem Id.bit_lt {bit : ℕ} (hb : bit < 160) : bit / 8 < SHA_DIGEST_LENGTH := by
  rw [SHA_DIGEST_LENGTH]
  omega

/-- The byte that holds the bit is clear from this bit on. -/
theorem Id.byte_clear (id : Id) {bit : ℕ} (hb : bit < 160) (hd : 2 ^ (160 - bit) ∣ id.val) :
    (id.bytes.getD (bit / 8) 0).toNat % 2 ^ (8 - bit % 8) = 0 := by
  have hv := id.val_around (Id.bit_lt hb)
  generalize beNat (id.bytes.take (bit / 8)) = P at hv
  generalize (id.bytes.getD (bit / 8) 0).toNat = c at hv
  have hrest : beNat (id.bytes.drop (bit / 8 + 1)) < 256 ^ (19 - bit / 8) := by
    have hlt := beNat_lt (id.bytes.drop (bit / 8 + 1))
    have hlen : (id.bytes.drop (bit / 8 + 1)).length = 19 - bit / 8 := by
      rw [List.length_drop, id.size_eq, SHA_DIGEST_LENGTH]
      omega
    rwa [hlen] at hlt
  have hdiv : id.val / 256 ^ (19 - bit / 8) = P * 256 + c := by
    rw [hv, Nat.add_comm, Nat.add_mul_div_right _ _ (Nat.pow_pos (by omega)),
      Nat.div_eq_of_lt hrest, Nat.zero_add]
  have hpow : 2 ^ (160 - bit) = 256 ^ (19 - bit / 8) * 2 ^ (8 - bit % 8) := by
    rw [show 256 = 2 ^ 8 from rfl, ← pow_mul, ← pow_add]
    congr 1
    omega
  rw [hpow] at hd
  have hdvd := Nat.dvd_div_of_mul_dvd hd
  have h256 : 2 ^ (8 - bit % 8) ∣ P * 256 :=
    Dvd.dvd.mul_left (pow_dvd_pow 2 (by omega : 8 - bit % 8 ≤ 8)) P
  rw [hdiv, Nat.dvd_add_right h256] at hdvd
  exact Nat.mod_eq_zero_of_dvd hdvd

/-- Setting a bit above the lowest set one, or in zero, adds its value. -/
theorem Id.setBit_val (id : Id) {bit : ℕ} (hb : bit < 160) (hd : 2 ^ (160 - bit) ∣ id.val) :
    (id.setBit bit).val = id.val + 2 ^ (159 - bit) := by
  have hi := Id.bit_lt hb
  have hlen : bit / 8 < id.bytes.length := id.size_eq.symm ▸ hi
  have hnew := (id.setBit bit).val_around hi
  have hbyte := setBit_byte _ (bit % 8) (Nat.mod_lt _ (by omega)) (id.byte_clear hb hd)
  have hget : (id.setBit bit).bytes.getD (bit / 8) 0 =
      id.bytes.getD (bit / 8) 0 ||| (0x80 >>> UInt8.ofNat (bit % 8)) := by
    simp [Id.setBit, List.getD_eq_getElem?_getD, hlen]
  have htake : (id.setBit bit).bytes.take (bit / 8) = id.bytes.take (bit / 8) :=
    List.take_set_of_le (Nat.le_refl _)
  have hdrop : (id.setBit bit).bytes.drop (bit / 8 + 1) = id.bytes.drop (bit / 8 + 1) :=
    List.drop_set_of_lt (Nat.lt_succ_self _)
  have hpow : 2 ^ (159 - bit) = 2 ^ (7 - bit % 8) * 256 ^ (19 - bit / 8) := by
    rw [show 256 = 2 ^ 8 from rfl, ← pow_mul, ← pow_add]
    congr 1
    omega
  rw [hnew, hget, hbyte, htake, hdrop, id.val_around hi, hpow]
  ring

end Masala.Routing
