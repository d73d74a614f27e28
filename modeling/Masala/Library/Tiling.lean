import Mathlib.Algebra.Order.Ring.Nat
import Mathlib.Data.Int.Notation
import Mathlib.Data.Nat.Notation
import Mathlib.Tactic.Ring

/-!
# Tilings by aligned blocks

A block starts at a multiple of its size, which is a power of two. A tiling is
a list of block starts where each block ends at the next start, the last one at
a given end. Halving a block keeps the tiling, and the position of the half is
readable from the lowest set bits of the two ends of the block.
-/
namespace Masala.Library

/-- The interval from `a` to `b` is an aligned block of size `2 ^ k`. -/
def Block (k a b : ℕ) : Prop := b = a + 2 ^ k ∧ 2 ^ k ∣ a

section Block
variable {k a b : ℕ}

theorem Block.lt (h : Block k a b) : a < b := by
  rw [h.1]
  exact Nat.lt_add_of_pos_right (Nat.two_pow_pos k)

theorem Block.le (h : Block k a b) : 2 ^ k ≤ b := by
  rw [h.1]
  exact Nat.le_add_left _ _

theorem Block.lower (h : Block (k + 1) a b) : Block k a (a + 2 ^ k) :=
  ⟨rfl, (pow_dvd_pow 2 (Nat.le_succ k)).trans h.2⟩

theorem Block.upper (h : Block (k + 1) a b) : Block k (a + 2 ^ k) b := by
  refine ⟨?_, (Nat.dvd_add_left (dvd_refl _)).mpr h.lower.2⟩
  rw [h.1, pow_succ]
  ring

end Block

/-! ## Lowest set bits -/

/-- Bit `j` is the lowest set bit of `v`. -/
def LowBit (j v : ℕ) : Prop := 2 ^ j ∣ v ∧ ¬ 2 ^ (j + 1) ∣ v

/-- The lowest set bit of an `n`-bit number, counted from the highest bit on; -1 if there is none.
The end `2 ^ n` of the number range counts as zero. -/
def SignificantBit (n v : ℕ) (s : ℤ) : Prop :=
  2 ^ n ∣ v ∧ s = -1 ∨ ∃ j < n, LowBit j v ∧ s = n - 1 - j

theorem LowBit.le_of_dvd {j k v : ℕ} (h : LowBit j v) (hk : 2 ^ k ∣ v) : k ≤ j := by
  by_contra hlt
  exact h.2 ((pow_dvd_pow 2 (Nat.lt_of_not_le hlt)).trans hk)

theorem LowBit.unique {j k v : ℕ} (hj : LowBit j v) (hk : LowBit k v) : j = k :=
  Nat.le_antisymm (hk.le_of_dvd hj.1) (hj.le_of_dvd hk.1)

theorem SignificantBit.eq_of_lowBit {n k v : ℕ} {s : ℤ} (h : SignificantBit n v s) (hk : k < n)
    (hv : LowBit k v) : s = n - 1 - k := by
  rcases h with ⟨hn, -⟩ | ⟨j, -, hj, rfl⟩
  · exact absurd (hv.le_of_dvd hn) (Nat.not_le.mpr hk)
  · rw [hj.unique hv]

theorem SignificantBit.le_of_dvd {n k v : ℕ} {s : ℤ} (h : SignificantBit n v s) (hk : k ≤ n)
    (hv : 2 ^ k ∣ v) : s ≤ n - 1 - k := by
  rcases h with ⟨-, rfl⟩ | ⟨j, -, hj, rfl⟩
  · omega
  · have := hj.le_of_dvd hv
    omega

/-- The largest aligned block that could start at a number. -/
theorem SignificantBit.exists_dvd {n v : ℕ} {s : ℤ} (h : SignificantBit n v s) :
    ∃ j ≤ n, s = n - 1 - j ∧ 2 ^ j ∣ v ∧ (j < n → ¬ 2 ^ (j + 1) ∣ v) := by
  rcases h with ⟨hn, rfl⟩ | ⟨j, hj, hv, rfl⟩
  · exact ⟨n, le_rfl, by omega, hn, fun hlt => absurd hlt (lt_irrefl n)⟩
  · exact ⟨j, hj.le, rfl, hv.1, fun _ => hv.2⟩

/-- Exactly one end of a block has its lowest set bit at the size of the block. -/
theorem Block.lowBit {k a b : ℕ} (h : Block k a b) :
    LowBit k a ∧ 2 ^ (k + 1) ∣ b ∨ LowBit k b ∧ 2 ^ (k + 1) ∣ a := by
  obtain ⟨rfl, q, rfl⟩ := h
  have hpos : 0 < 2 ^ k := Nat.two_pow_pos k
  have hdvd : ∀ m, 2 ^ (k + 1) ∣ 2 ^ k * m ↔ 2 ∣ m := by
    intro m
    rw [pow_succ]
    exact Nat.mul_dvd_mul_iff_left hpos
  have hsucc : 2 ^ k * q + 2 ^ k = 2 ^ k * (q + 1) := by ring
  rw [hsucc]
  by_cases hq : 2 ∣ q
  · refine .inr ⟨⟨dvd_mul_right _ _, ?_⟩, (hdvd q).mpr hq⟩
    rw [hdvd]
    omega
  · refine .inl ⟨⟨dvd_mul_right _ _, ?_⟩, ?_⟩
    · rwa [hdvd]
    · rw [hdvd]
      omega

/-- The larger significant bit of the two ends tells the size of a block. -/
theorem Block.significantBit {n k a b : ℕ} {s t : ℤ} (h : Block k a b) (hb : b ≤ 2 ^ n)
    (hs : SignificantBit n a s) (ht : SignificantBit n b t) : max s t = n - 1 - k := by
  have hkn : k ≤ n := by
    have hle := h.le.trans hb
    exact (Nat.pow_le_pow_iff_right (by omega)).mp hle
  rcases Nat.lt_or_eq_of_le hkn with hlt | rfl
  · rcases h.lowBit with ⟨ha, hd⟩ | ⟨hl, hd⟩
    · rw [hs.eq_of_lowBit hlt ha]
      have := ht.le_of_dvd hlt hd
      omega
    · rw [ht.eq_of_lowBit hlt hl]
      have := hs.le_of_dvd hlt hd
      omega
  · have hs' := hs.le_of_dvd le_rfl h.2
    have hb' : 2 ^ k ∣ b := by
      rw [h.1]
      exact (Nat.dvd_add_left (dvd_refl _)).mpr h.2
    have ht' := ht.le_of_dvd le_rfl hb'
    have hs₀ : -1 ≤ s := by rcases hs with ⟨-, rfl⟩ | ⟨j, hj, -, rfl⟩ <;> omega
    have ht₀ : -1 ≤ t := by rcases ht with ⟨-, rfl⟩ | ⟨j, hj, -, rfl⟩ <;> omega
    omega

/-! ## Tilings -/

section Tiling
variable {β : Type} (start : β → ℕ)

/-- Where the part before `zs` ends. -/
def nextStart : List β → ℕ → ℕ
  | [], stop => stop
  | z :: _, _ => start z

/-- Each element starts an aligned block that ends where the next one starts. -/
def Tiled : List β → ℕ → Prop
  | [], _ => True
  | b :: zs, stop => (∃ k, Block k (start b) (nextStart start zs stop)) ∧ Tiled zs stop

variable {start} {ys zs xs : List β} {b c : β} {stop x : ℕ}

theorem nextStart_append : nextStart start (ys ++ zs) stop =
    nextStart start ys (nextStart start zs stop) := by cases ys <;> rfl

theorem Tiled.append : Tiled start (ys ++ zs) stop ↔
    Tiled start ys (nextStart start zs stop) ∧ Tiled start zs stop := by
  induction ys with
  | nil => simp [Tiled]
  | cons y ys ih => simp only [List.cons_append, Tiled, ih, nextStart_append, and_assoc]

theorem Tiled.block (h : Tiled start (ys ++ b :: zs) stop) :
    ∃ k, Block k (start b) (nextStart start zs stop) := (Tiled.append.mp h).2.1

/-- Halving one block of a tiling. -/
theorem Tiled.insert {k : ℕ} (h : Tiled start (ys ++ b :: zs) stop)
    (hb : Block (k + 1) (start b) (nextStart start zs stop)) (hc : start c = start b + 2 ^ k) :
    Tiled start (ys ++ b :: c :: zs) stop := by
  obtain ⟨hy, -, hz⟩ := Tiled.append.mp h
  refine Tiled.append.mpr ⟨hy, ⟨k, ?_⟩, ⟨k, ?_⟩, hz⟩
  · rw [nextStart, hc]
    exact hb.lower
  · rw [hc]
    exact hb.upper

theorem Tiled.sorted (h : Tiled start xs stop) :
    xs.Pairwise (fun a b => start a < start b) ∧ ∀ a ∈ xs, start a < stop := by
  induction xs with
  | nil => simp
  | cons a xs ih =>
    obtain ⟨⟨k, hk⟩, ht⟩ := h
    obtain ⟨hp, hlt⟩ := ih ht
    have hall : ∀ c ∈ xs, start a < start c := by
      intro c hc
      cases xs with
      | nil => cases hc
      | cons d xs =>
        rcases List.mem_cons.mp hc with rfl | hc
        · exact hk.lt
        · exact hk.lt.trans (List.rel_of_pairwise_cons hp hc)
    refine ⟨List.pairwise_cons.mpr ⟨hall, hp⟩, ?_⟩
    intro c hc
    rcases List.mem_cons.mp hc with rfl | hc
    · cases xs with
      | nil => exact hk.lt
      | cons d xs => exact (hall d (by simp)).trans (hlt d (by simp))
    · exact hlt c hc

/-- A number behind the first start lies in exactly one part of an increasing list of starts. -/
theorem exists_owner (hs : xs.Pairwise fun a b => start a < start b) (hne : xs ≠ [])
    (hx : nextStart start xs stop ≤ x) :
    ∃ ys b zs, xs = ys ++ b :: zs ∧ start b ≤ x ∧ ∀ z ∈ zs, x < start z := by
  induction xs with
  | nil => exact absurd rfl hne
  | cons a xs ih =>
    obtain ⟨ha, hp⟩ := List.pairwise_cons.mp hs
    by_cases hnext : ∃ b ∈ xs, start b ≤ x
    · obtain ⟨b, hb, hbx⟩ := hnext
      have hne' : xs ≠ [] := List.ne_nil_of_mem hb
      have hx' : nextStart start xs stop ≤ x := by
        cases xs with
        | nil => cases hb
        | cons c xs =>
          rcases List.mem_cons.mp hb with rfl | hb
          · exact hbx
          · exact (List.rel_of_pairwise_cons hp hb).le.trans hbx
      obtain ⟨ys, c, zs, rfl, hc⟩ := ih hp hne' hx'
      exact ⟨a :: ys, c, zs, rfl, hc⟩
    · refine ⟨[], a, xs, rfl, hx, ?_⟩
      intro z hz
      by_contra hge
      exact hnext ⟨z, hz, Nat.le_of_not_lt hge⟩

end Tiling
end Masala.Library
