import Mathlib.Data.List.Basic
import Mathlib.Data.List.Count
import Mathlib.Tactic.Common

/-!
# Deleting from a list while counting its rounds

The loop `for( j = 0; j < counter; j++ )` over a list that deletes some of the
elements it meets. A deletion makes the counter smaller, so each one costs the
walk two of its remaining rounds, and elements near the end may not be visited.
-/
namespace Masala.Library

variable {α : Type*} (bad : α → Prop) [DecidablePred bad]

/-- What is left of `xs` when the walk stands in front of it with `k` rounds to go. -/
def sweep : ℕ → List α → List α
  | 0, xs => xs
  | _ + 1, [] => []
  | k + 1, x :: xs => if bad x then sweep (k - 1) xs else x :: sweep k xs

variable {bad}

theorem sweep_sublist (k : ℕ) (xs : List α) : (sweep bad k xs).Sublist xs := by
  induction xs generalizing k with
  | nil => cases k <;> exact List.Sublist.refl []
  | cons x xs ih =>
    cases k with
    | zero => exact List.Sublist.refl _
    | succ k =>
      rw [sweep]
      by_cases hx : bad x
      · rw [if_pos hx]
        exact (ih _).cons x
      · rw [if_neg hx]
        exact (ih k).cons_cons x

/-- The walk only deletes bad elements. -/
theorem mem_sweep_of_not_bad {k : ℕ} {xs : List α} {x : α} (hx : x ∈ xs) (hb : ¬ bad x) :
    x ∈ sweep bad k xs := by
  induction xs generalizing k with
  | nil => cases hx
  | cons y ys ih =>
    cases k with
    | zero => exact hx
    | succ k =>
      rw [sweep]
      rcases List.mem_cons.mp hx with rfl | hx
      · rw [if_neg hb]
        exact List.mem_cons_self
      · by_cases hy : bad y
        · rw [if_pos hy]
          exact ih hx
        · rw [if_neg hy]
          exact List.mem_cons_of_mem y (ih hx)

/-- Each bad element is visited: the rounds up to it, with one more for every deletion, are fewer
than those to go. -/
def Visits (bad : α → Prop) [DecidablePred bad] (k : ℕ) (xs : List α) : Prop :=
  ∀ ys x zs, xs = ys ++ x :: zs → bad x → ys.length + ys.countP bad < k

theorem visits_zero {xs : List α} : Visits bad 0 xs ↔ ∀ x ∈ xs, ¬ bad x := by
  constructor
  · intro h x hx hb
    obtain ⟨ys, zs, rfl⟩ := List.append_of_mem hx
    exact Nat.not_lt_zero _ (h ys x zs rfl hb)
  · intro h ys x zs hxs hb
    exact absurd hb (h x (by simp [hxs]))

theorem visits_cons_bad {k : ℕ} {x : α} {xs : List α} (hx : bad x) :
    Visits bad (k + 1) (x :: xs) ↔ Visits bad (k - 1) xs := by
  constructor
  · rintro h ys y zs rfl hy
    have := h (x :: ys) y zs rfl hy
    rw [List.length_cons, List.countP_cons_of_pos (by simpa using hx)] at this
    omega
  · intro h ys y zs hxs hy
    cases ys with
    | nil => simp
    | cons z ys =>
      obtain ⟨rfl, rfl⟩ := List.cons.inj hxs
      have := h ys y zs rfl hy
      rw [List.length_cons, List.countP_cons_of_pos (by simpa using hx)]
      omega

theorem visits_cons_good {k : ℕ} {x : α} {xs : List α} (hx : ¬ bad x) :
    Visits bad (k + 1) (x :: xs) ↔ Visits bad k xs := by
  constructor
  · rintro h ys y zs rfl hy
    have := h (x :: ys) y zs rfl hy
    rw [List.length_cons, List.countP_cons_of_neg (by simpa using hx)] at this
    omega
  · intro h ys y zs hxs hy
    cases ys with
    | nil =>
      obtain ⟨rfl, -⟩ := List.cons.inj hxs
      exact absurd hy hx
    | cons z ys =>
      obtain ⟨rfl, rfl⟩ := List.cons.inj hxs
      have := h ys y zs rfl hy
      rw [List.length_cons, List.countP_cons_of_neg (by simpa using hx)]
      omega

/-- The walk deletes all bad elements exactly if it visits them all. -/
theorem sweep_eq_filter_iff {k : ℕ} {xs : List α} :
    sweep bad k xs = xs.filter (fun x => ¬ bad x) ↔ Visits bad k xs := by
  induction xs generalizing k with
  | nil =>
    refine iff_of_true (by cases k <;> rfl) ?_
    intro ys x zs hxs
    simp at hxs
  | cons x xs ih =>
    cases k with
    | zero =>
      rw [sweep, visits_zero, eq_comm, List.filter_eq_self]
      simp
    | succ k =>
      rw [sweep]
      by_cases hx : bad x
      · rw [if_pos hx, List.filter_cons_of_neg (by simpa using hx), ih, visits_cons_bad hx]
      · rw [if_neg hx, List.filter_cons_of_pos (by simpa using hx), List.cons_inj_right, ih,
          visits_cons_good hx]

theorem filter_sweep (k : ℕ) (xs : List α) :
    (sweep bad k xs).filter (fun x => ¬ bad x) = xs.filter fun x => ¬ bad x := by
  induction xs generalizing k with
  | nil => cases k <;> rfl
  | cons x xs ih =>
    cases k with
    | zero => rfl
    | succ k =>
      rw [sweep]
      by_cases hx : bad x
      · rw [if_pos hx, List.filter_cons_of_neg (by simpa using hx), ih]
      · rw [if_neg hx, List.filter_cons_of_pos (by simpa using hx),
          List.filter_cons_of_pos (by simpa using hx), ih]

/-- No bad element is left exactly if the walk visits them all. -/
theorem sweep_clean_iff {k : ℕ} {xs : List α} :
    (∀ x ∈ sweep bad k xs, ¬ bad x) ↔ Visits bad k xs := by
  rw [← sweep_eq_filter_iff, ← filter_sweep k xs, eq_comm, List.filter_eq_self]
  simp

/-- For a whole list: behind every bad element stand at least as many elements as there are bad
ones in front of it. -/
theorem visits_length {xs : List α} : Visits bad xs.length xs ↔
    ∀ ys x zs, xs = ys ++ x :: zs → bad x → ys.countP bad ≤ zs.length := by
  constructor
  · rintro h ys x zs rfl hx
    have := h ys x zs rfl hx
    rw [List.length_append, List.length_cons] at this
    omega
  · rintro h ys x zs rfl hx
    have := h ys x zs rfl hx
    rw [List.length_append, List.length_cons]
    omega

end Masala.Library
