import Mathlib.Data.List.Basic
import Mathlib.Tactic.Common

/-!
# Splitting at a separator

Which lists of words are the parts of the word that joins them, and which
letters this word has.
-/
namespace Masala.Library

section Parts
variable {α : Type*} [DecidableEq α] {sep : α}

theorem not_mem_of_mem_splitOn {w l : List α} (hl : l ∈ w.splitOn sep) : sep ∉ l := by
  induction w generalizing l with
  | nil =>
    rw [List.splitOn_nil, List.mem_singleton] at hl
    rw [hl]
    exact List.not_mem_nil
  | cons c cs ih =>
    rw [List.splitOn_cons_eq_if_modifyHead] at hl
    by_cases hc : c = sep
    · rw [if_pos (beq_iff_eq.mpr hc)] at hl
      rcases List.mem_cons.mp hl with rfl | hl
      · exact List.not_mem_nil
      · exact ih hl
    · rw [if_neg (by simpa using hc)] at hl
      obtain ⟨first, rest, hsplit⟩ := List.exists_cons_of_ne_nil (List.splitOn_ne_nil sep cs)
      rw [hsplit] at ih hl
      rcases List.mem_cons.mp hl with rfl | hl
      · rw [List.mem_cons, not_or]
        exact ⟨Ne.symm hc, ih List.mem_cons_self⟩
      · exact ih (List.mem_cons_of_mem _ hl)

/-- Which parts survive a round trip. -/
theorem splitOn_intercalate_iff {ls : List (List α)} :
    ([sep].intercalate ls).splitOn sep = ls ↔ ls ≠ [] ∧ ∀ l ∈ ls, sep ∉ l := by
  constructor
  · intro h
    exact ⟨h ▸ List.splitOn_ne_nil _ _, fun l hl => not_mem_of_mem_splitOn (h ▸ hl)⟩
  · rintro ⟨hne, hls⟩
    exact List.splitOn_intercalate sep hls hne

end Parts

/-- The other letters of joined parts are those of the parts. -/
theorem mem_intercalate {α : Type*} {sep c : α} {ls : List (List α)} (hc : c ≠ sep) :
    c ∈ [sep].intercalate ls ↔ ∃ l ∈ ls, c ∈ l := by
  induction ls with
  | nil => simp
  | cons l ls ih =>
    by_cases hnil : ls = []
    · simp [hnil]
    · rw [List.intercalate_cons_of_ne_nil hnil]
      simp [ih, hc]

end Masala.Library
