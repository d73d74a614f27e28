import Masala.Library.Octets
import Mathlib.Algebra.Order.Ring.Nat
import Mathlib.Data.Nat.Notation
import Mathlib.Tactic.Ring

/-!
# Byte strings as big-endian numbers

`memcmp` on byte strings of one length compares the numbers they denote.
-/
namespace Masala.Library

def beNat : Bytes → ℕ
  | [] => 0
  | c :: cs => c.toNat * 256 ^ cs.length + beNat cs

@[simp] theorem beNat_nil : beNat [] = 0 := rfl

theorem beNat_cons (c : UInt8) (cs : Bytes) :
    beNat (c :: cs) = c.toNat * 256 ^ cs.length + beNat cs := rfl

theorem beNat_append (as bs : Bytes) :
    beNat (as ++ bs) = beNat as * 256 ^ bs.length + beNat bs := by
  induction as with
  | nil => simp
  | cons a as ih =>
    rw [List.cons_append, beNat_cons, ih, beNat_cons, List.length_append, pow_add]
    ring

theorem beNat_lt (bs : Bytes) : beNat bs < 256 ^ bs.length := by
  induction bs with
  | nil => simp
  | cons b bs ih =>
    have hb : b.toNat + 1 ≤ 256 := b.toNat_lt
    calc beNat (b :: bs) < b.toNat * 256 ^ bs.length + 256 ^ bs.length := by
          rw [beNat_cons]
          exact Nat.add_lt_add_left ih _
      _ = (b.toNat + 1) * 256 ^ bs.length := by ring
      _ ≤ 256 * 256 ^ bs.length := Nat.mul_le_mul_right _ hb
      _ = 256 ^ (b :: bs).length := by rw [List.length_cons, pow_succ]; ring

theorem beNat_zeros (n : ℕ) : beNat (List.replicate n 0) = 0 := by
  induction n with
  | zero => rfl
  | succ n ih => simp [List.replicate_succ, beNat_cons, ih]

/-- `memcmp` on the common length. -/
def memcmp : Bytes → Bytes → Ordering
  | a :: as, b :: bs => (compare a.toNat b.toNat).then (memcmp as bs)
  | _, _ => .eq

/-- The first byte decides a comparison unless it is equal. -/
theorem beNat_cons_lt {a b : UInt8} {as bs : Bytes} (hl : as.length = bs.length) :
    beNat (a :: as) < beNat (b :: bs) ↔ a < b ∨ a = b ∧ beNat as < beNat bs := by
  have ha := beNat_lt as
  have hb := beNat_lt bs
  rw [beNat_cons, beNat_cons, hl]
  rw [hl] at ha
  rcases Nat.lt_trichotomy a.toNat b.toNat with hab | hab | hab
  · have hmul : (a.toNat + 1) * 256 ^ bs.length ≤ b.toNat * 256 ^ bs.length :=
      Nat.mul_le_mul_right _ hab
    rw [Nat.add_mul] at hmul
    have hlt : a < b := UInt8.lt_iff_toNat_lt.mpr hab
    exact ⟨fun _ => .inl hlt, fun _ => by omega⟩
  · have heq : a = b := UInt8.toNat_inj.mp hab
    subst heq
    simp
  · have hmul : (b.toNat + 1) * 256 ^ bs.length ≤ a.toNat * 256 ^ bs.length :=
      Nat.mul_le_mul_right _ hab
    rw [Nat.add_mul] at hmul
    constructor
    · intro h
      omega
    · rintro (h | ⟨rfl, -⟩)
      · exact absurd (UInt8.lt_iff_toNat_lt.mp h) (by omega)
      · omega

theorem beNat_injective {as bs : Bytes} (hl : as.length = bs.length) (h : beNat as = beNat bs) :
    as = bs := by
  induction as generalizing bs with
  | nil => exact (List.length_eq_zero_iff.mp hl.symm).symm
  | cons a as ih =>
    cases bs with
    | nil => simp at hl
    | cons b bs =>
      have hl' : as.length = bs.length := Nat.succ.inj hl
      have hab := (beNat_cons_lt (a := a) (b := b) hl').not
      have hba := (beNat_cons_lt (a := b) (b := a) hl'.symm).not
      rw [h] at hab hba
      have h₁ := hab.mp (lt_irrefl _)
      have h₂ := hba.mp (lt_irrefl _)
      have heq : a = b := by
        rcases lt_trichotomy a.toNat b.toNat with hlt | heq | hlt
        · exact absurd (.inl (UInt8.lt_iff_toNat_lt.mpr hlt)) h₁
        · exact UInt8.toNat_inj.mp heq
        · exact absurd (.inl (UInt8.lt_iff_toNat_lt.mpr hlt)) h₂
      subst heq
      rw [beNat_cons, beNat_cons, hl'] at h
      rw [ih hl' (Nat.add_left_cancel h)]

theorem memcmp_lt_iff {as bs : Bytes} (hl : as.length = bs.length) :
    memcmp as bs = .lt ↔ beNat as < beNat bs := by
  induction as generalizing bs with
  | nil =>
    obtain rfl := List.length_eq_zero_iff.mp hl.symm
    simp [memcmp]
  | cons a as ih =>
    cases bs with
    | nil => simp at hl
    | cons b bs =>
      have hl' : as.length = bs.length := Nat.succ.inj hl
      rw [memcmp, beNat_cons_lt hl', Ordering.then_eq_lt, ih hl', Nat.compare_eq_lt,
        Nat.compare_eq_eq, UInt8.lt_iff_toNat_lt, UInt8.toNat_inj]

theorem memcmp_eq_iff {as bs : Bytes} (hl : as.length = bs.length) :
    memcmp as bs = .eq ↔ as = bs := by
  induction as generalizing bs with
  | nil =>
    obtain rfl := List.length_eq_zero_iff.mp hl.symm
    simp [memcmp]
  | cons a as ih =>
    cases bs with
    | nil => simp at hl
    | cons b bs =>
      have hl' : as.length = bs.length := Nat.succ.inj hl
      rw [memcmp, Ordering.then_eq_eq, ih hl', Nat.compare_eq_eq, UInt8.toNat_inj,
        List.cons.injEq]

/-- The low `k` bytes of a number. -/
def beBytes : ℕ → ℕ → Bytes
  | 0, _ => []
  | k + 1, v => UInt8.ofNat (v / 256 ^ k) :: beBytes k v

@[simp] theorem beBytes_length (k v : ℕ) : (beBytes k v).length = k := by
  induction k with
  | zero => rfl
  | succ k ih => rw [beBytes, List.length_cons, ih]

theorem beNat_beBytes (k v : ℕ) : beNat (beBytes k v) = v % 256 ^ k := by
  induction k with
  | zero => rw [beBytes, beNat_nil, pow_zero, Nat.mod_one]
  | succ k ih =>
    have hmod : v % (256 ^ k * 256) = v % 256 ^ k + 256 ^ k * (v / 256 ^ k % 256) := Nat.mod_mul
    have hbyte : (UInt8.ofNat (v / 256 ^ k)).toNat = v / 256 ^ k % 256 := UInt8.toNat_ofNat'
    rw [beBytes, beNat_cons, beBytes_length, ih, hbyte, pow_succ, hmod]
    ring

/-- Bytes are those of the number they denote. -/
theorem eq_beBytes_iff {bs : Bytes} {k v : ℕ} (hl : bs.length = k) :
    bs = beBytes k v ↔ beNat bs = v % 256 ^ k := by
  constructor
  · rintro rfl
    exact beNat_beBytes k v
  · intro h
    exact beNat_injective (hl.trans (beBytes_length k v).symm) (h.trans (beNat_beBytes k v).symm)

namespace Octets
variable {n : ℕ}

/-- The number an array denotes. -/
def val (o : Octets n) : ℕ := beNat o.bytes

theorem val_lt (o : Octets n) : o.val < 256 ^ n := by
  have h := beNat_lt o.bytes
  rwa [o.size_eq] at h

theorem val_injective {a b : Octets n} : a.val = b.val ↔ a = b := by
  constructor
  · intro h
    exact bytes_injective.mp (beNat_injective (a.size_eq.trans b.size_eq.symm) h)
  · exact congrArg val

theorem memcmp_lt {a b : Octets n} : memcmp a.bytes b.bytes = .lt ↔ a.val < b.val :=
  memcmp_lt_iff (a.size_eq.trans b.size_eq.symm)

theorem memcmp_eq {a b : Octets n} : memcmp a.bytes b.bytes = .eq ↔ a = b := by
  rw [memcmp_eq_iff (a.size_eq.trans b.size_eq.symm), bytes_injective]

end Octets
end Masala.Library
