import Masala.Library.Exec
import Mathlib.Data.Int.Notation
import Mathlib.Data.Set.Defs

/-!
# Three-way comparisons

A comparison that may fault and otherwise tells an order by the sign of its
result.
-/
namespace Masala.Library

variable {α : Type}

/-- On the elements of `S` the comparison returns and is a total order. -/
structure TotalOn (cmp : α → α → Exec ℤ) (S : Set α) : Prop where
  returns : ∀ a ∈ S, ∀ b ∈ S, ∃ r, cmp a b = .ok r ∧ (r = 1 ∨ r = 0 ∨ r = -1)
  zero : ∀ a ∈ S, ∀ b ∈ S, cmp a b = .ok 0 ↔ a = b
  antisymm : ∀ a ∈ S, ∀ b ∈ S, ∀ r, cmp a b = .ok r → cmp b a = .ok (-r)
  trans : ∀ a ∈ S, ∀ b ∈ S, ∀ c ∈ S, ∀ r r', cmp a b = .ok r → cmp b c = .ok r' →
    r ≤ 0 → r' ≤ 0 → ∃ r'', cmp a c = .ok r'' ∧ r'' ≤ 0

section Order
variable [LT α] [DecidableLT α] {a b : α}

/-- The sign of a comparison: negative if `a` comes first, positive if `b` does. -/
def threeWay (a b : α) : ℤ := if a < b then -1 else if b < a then 1 else 0

theorem threeWay_of_lt (h : a < b) : threeWay a b = -1 := if_pos h

variable [LE α] [Std.LawfulOrderLT α]

theorem threeWay_self (a : α) : threeWay a a = 0 := by
  rw [threeWay, if_neg Std.lt_irrefl, if_neg Std.lt_irrefl]

theorem threeWay_of_gt (h : b < a) : threeWay a b = 1 := by
  rw [threeWay, if_neg (Std.not_gt_of_lt h), if_pos h]

variable [Std.IsLinearOrder α]

theorem threeWay_sign (a b : α) : threeWay a b = 1 ∨ threeWay a b = 0 ∨ threeWay a b = -1 := by
  rcases Std.lt_trichotomy a b with h | rfl | h
  · exact .inr (.inr (threeWay_of_lt h))
  · exact .inr (.inl (threeWay_self a))
  · exact .inl (threeWay_of_gt h)

theorem threeWay_swap (a b : α) : threeWay b a = -threeWay a b := by
  rcases Std.lt_trichotomy a b with h | rfl | h
  · rw [threeWay_of_lt h, threeWay_of_gt h, Int.neg_neg]
  · rw [threeWay_self, Int.neg_zero]
  · rw [threeWay_of_lt h, threeWay_of_gt h]

theorem threeWay_nonpos : threeWay a b ≤ 0 ↔ a ≤ b := by
  rcases Std.lt_trichotomy a b with h | rfl | h
  · exact iff_of_true (by rw [threeWay_of_lt h]; decide) (Std.le_of_lt h)
  · exact iff_of_true (Int.le_of_eq (threeWay_self a)) (Std.le_refl a)
  · exact iff_of_false (by rw [threeWay_of_gt h]; decide) (Std.not_le.mpr h)

theorem threeWay_eq_zero : threeWay a b = 0 ↔ a = b := by
  constructor
  · intro h
    have hba : threeWay b a = 0 := by rw [threeWay_swap, h, Int.neg_zero]
    exact Std.le_antisymm (threeWay_nonpos.mp (Int.le_of_eq h))
      (threeWay_nonpos.mp (Int.le_of_eq hba))
  · rintro rfl
    exact threeWay_self a

/-- A comparison that agrees with a linear order is a total order. -/
theorem TotalOn.of_threeWay {cmp : α → α → Exec ℤ} {S : Set α}
    (h : ∀ a ∈ S, ∀ b ∈ S, cmp a b = .ok (threeWay a b)) : TotalOn cmp S where
  returns a ha b hb := ⟨_, h a ha b hb, threeWay_sign a b⟩
  zero a ha b hb := by
    rw [h a ha b hb, Except.ok.injEq, threeWay_eq_zero]
  antisymm a ha b hb r hr := by
    obtain rfl := Except.ok.inj ((h a ha b hb).symm.trans hr)
    rw [h b hb a ha, threeWay_swap]
  trans a ha b hb c hc r r' hr hr' hle hle' := by
    obtain rfl := Except.ok.inj ((h a ha b hb).symm.trans hr)
    obtain rfl := Except.ok.inj ((h b hb c hc).symm.trans hr')
    exact ⟨_, h a ha c hc, threeWay_nonpos.mpr
      (Std.le_trans (threeWay_nonpos.mp hle) (threeWay_nonpos.mp hle'))⟩

end Order
end Masala.Library
