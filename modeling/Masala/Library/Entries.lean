import Mathlib.Data.List.Nodup
import Mathlib.Logic.Function.Basic
import Mathlib.Tactic.Common

/-!
# A list as a map from keys

The elements of a list under their keys. Where no key occurs twice, inserting,
replacing, dropping and moving elements are updates of the map.
-/
namespace Masala.Library

variable {α κ : Type*} [DecidableEq κ] (key : α → κ)

/-- The element with a key. -/
def entry (xs : List α) (k : κ) : Option α := xs.find? fun x => key x = k

variable {key} {xs ys : List α} {x : α} {k : κ}

theorem entry_eq_none_iff : entry key xs k = none ↔ ∀ x ∈ xs, key x ≠ k := by
  simp [entry, List.find?_eq_none]

theorem mem_of_entry (h : entry key xs k = some x) : x ∈ xs ∧ key x = k :=
  ⟨List.mem_of_find?_eq_some h, by simpa using List.find?_some h⟩

theorem entry_eq_some_iff (hn : (xs.map key).Nodup) :
    entry key xs k = some x ↔ x ∈ xs ∧ key x = k := by
  refine ⟨mem_of_entry, fun ⟨hx, hk⟩ => ?_⟩
  cases h : entry key xs k with
  | none => exact absurd hk (entry_eq_none_iff.mp h x hx)
  | some y =>
    have hy := mem_of_entry h
    rw [List.inj_on_of_nodup_map hn hy.1 hx (hy.2.trans hk.symm)]

theorem entry_ne_none_iff : entry key xs k ≠ none ↔ ∃ x ∈ xs, key x = k := by
  rw [ne_eq, entry_eq_none_iff]
  push Not
  rfl

theorem entry_insert (hn : ((xs ++ x :: ys).map key).Nodup) :
    entry key (xs ++ x :: ys) = Function.update (entry key (xs ++ ys)) (key x) (some x) := by
  funext k
  by_cases hk : k = key x
  · subst hk
    rw [Function.update_self, entry_eq_some_iff hn]
    exact ⟨by simp, rfl⟩
  · rw [Function.update_of_ne hk, entry, entry, List.find?_append, List.find?_append,
      List.find?_cons_of_neg (by simpa using Ne.symm hk)]

theorem entry_replace {y : α} (hn : ((xs ++ x :: ys).map key).Nodup) (hy : key y = key x) :
    entry key (xs ++ y :: ys) = Function.update (entry key (xs ++ x :: ys)) (key x) (some y) := by
  have hn' : ((xs ++ y :: ys).map key).Nodup := by
    rw [List.map_append, List.map_cons] at hn ⊢
    rwa [hy]
  rw [entry_insert hn', entry_insert hn, hy, Function.update_idem]

theorem entry_erase (hn : ((xs ++ x :: ys).map key).Nodup) :
    entry key (xs ++ ys) = Function.update (entry key (xs ++ x :: ys)) (key x) none := by
  have hnone : entry key (xs ++ ys) (key x) = none := by
    refine entry_eq_none_iff.mpr fun y hy he => ?_
    rw [List.map_append, List.map_cons, List.nodup_middle, ← List.map_append, List.nodup_cons] at hn
    exact hn.1 (List.mem_map.mpr ⟨y, hy, he⟩)
  rw [entry_insert hn, Function.update_idem, ← hnone, Function.update_eq_self]

/-- Where no key occurs twice, one element has the key. -/
theorem filter_key_eq (hn : (xs.map key).Nodup) (hx : x ∈ xs) :
    xs.filter (fun y => key y = key x) = [x] := by
  obtain ⟨ys, zs, rfl⟩ := List.append_of_mem hx
  rw [List.map_append, List.map_cons, List.nodup_middle, List.nodup_cons, ← List.map_append] at hn
  have hne : ∀ y ∈ ys ++ zs, key y ≠ key x := fun y hy he =>
    hn.1 (List.mem_map.mpr ⟨y, hy, he⟩)
  have hys : ys.filter (fun y => key y = key x) = [] :=
    List.filter_eq_nil_iff.mpr fun y hy => by simpa using hne y (List.mem_append_left _ hy)
  have hzs : zs.filter (fun y => key y = key x) = [] :=
    List.filter_eq_nil_iff.mpr fun y hy => by simpa using hne y (List.mem_append_right _ hy)
  rw [List.filter_append, List.filter_cons_of_pos (by simp), hys, hzs, List.nil_append]

theorem entry_perm (hn : (xs.map key).Nodup) (h : xs.Perm ys) : entry key xs = entry key ys := by
  funext k
  ext x
  rw [entry_eq_some_iff hn, entry_eq_some_iff ((h.map key).nodup_iff.mp hn), h.mem_iff]

/-- Dropping elements drops their keys. -/
theorem entry_sublist (hn : (ys.map key).Nodup) (h : xs.Sublist ys) (k : κ) :
    entry key xs k = entry key ys k ∨
      entry key xs k = none ∧ ∃ y, entry key ys k = some y ∧ y ∉ xs := by
  cases hx : entry key xs k with
  | some x =>
    have hmem := mem_of_entry hx
    exact .inl ((entry_eq_some_iff hn).mpr ⟨h.mem hmem.1, hmem.2⟩).symm
  | none =>
    cases hy : entry key ys k with
    | none => exact .inl rfl
    | some y =>
      exact .inr ⟨rfl, y, rfl, fun hmem => entry_eq_none_iff.mp hx y hmem (mem_of_entry hy).2⟩

end Masala.Library
