import Mathlib.Data.List.Nodup
import Mathlib.Tactic.Common

/-!
# Asking everyone at most once

Inquiries get numbers in turn, and each keeps the set of those it has asked. It
starts by asking some, asks others only if they are not in the set yet, and may
be dropped at any time. Then no inquiry asks anyone twice, in no order of the
steps and also not after it has been dropped.
-/
namespace Masala.Library

variable {ι : Type*}

/-- The next number, and the pending inquiries with those they have asked. -/
structure Desk (ι : Type*) where
  next : ℕ
  pending : List (ℕ × List ι)

/-- One step; the list in the middle says which inquiries ask whom. Some of the questions may be
lost on the way. -/
inductive Inquires : Desk ι → List (ℕ × ι) → Desk ι → Prop
  | start {n : ℕ} {xs : List (ℕ × List ι)} {ids : List ι} {asks : List (ℕ × ι)} (hids : ids.Nodup)
      (hasks : asks.Sublist (ids.map fun i => (n, i))) :
      Inquires ⟨n, xs⟩ asks ⟨n + 1, xs ++ [(n, ids)]⟩
  | ask {n p : ℕ} {ys zs : List (ℕ × List ι)} {ids : List ι} {i : ι} {asks : List (ℕ × ι)}
      (hi : i ∉ ids) (hasks : asks.Sublist [(p, i)]) :
      Inquires ⟨n, ys ++ (p, ids) :: zs⟩ asks ⟨n, ys ++ (p, ids ++ [i]) :: zs⟩
  | drop {n : ℕ} {xs xs' : List (ℕ × List ι)} (h : xs'.Sublist xs) : Inquires ⟨n, xs⟩ [] ⟨n, xs'⟩

/-- No question was asked twice so far, and pending inquiries know whom they have asked. -/
structure AskedOnce (d : Desk ι) (log : List (ℕ × ι)) : Prop where
  nodup : log.Nodup
  below : ∀ a ∈ log, a.1 < d.next
  numbers : (d.pending.map Prod.fst).Nodup
  pending : ∀ x ∈ d.pending, x.1 < d.next
  known : ∀ x ∈ d.pending, ∀ i, (x.1, i) ∈ log → i ∈ x.2

section AskedOnce
variable {d d' : Desk ι} {log asks : List (ℕ × ι)}

theorem askedOnce_nil (n : ℕ) : AskedOnce (⟨n, []⟩ : Desk ι) [] :=
  ⟨List.nodup_nil, by simp, List.nodup_nil, by simp, by simp⟩

/-- A new inquiry has a number that no question so far had. -/
theorem AskedOnce.start {n : ℕ} {xs : List (ℕ × List ι)} {ids : List ι}
    (h : AskedOnce ⟨n, xs⟩ log) (hids : ids.Nodup)
    (hasks : asks.Sublist (ids.map fun i => (n, i))) :
    AskedOnce ⟨n + 1, xs ++ [(n, ids)]⟩ (log ++ asks) := by
  have hnew : ∀ a ∈ asks, a.1 = n ∧ a.2 ∈ ids := by
    intro a ha
    obtain ⟨i, hi, rfl⟩ := List.mem_map.mp (hasks.subset ha)
    exact ⟨rfl, hi⟩
  have hpairs : (ids.map fun i => (n, i)).Nodup := hids.map fun i j he => (Prod.mk.inj he).2
  refine ⟨?_, ?_, ?_, ?_, ?_⟩
  · refine List.nodup_append.mpr ⟨h.nodup, hpairs.sublist hasks, fun a ha b hb he => ?_⟩
    have hlt : a.1 < n := h.below a ha
    rw [he, (hnew b hb).1] at hlt
    exact Nat.lt_irrefl _ hlt
  · intro a ha
    rcases List.mem_append.mp ha with ha | ha
    · exact Nat.lt_succ_of_lt (h.below a ha)
    · exact (hnew a ha).1 ▸ Nat.lt_succ_self a.1
  · rw [List.map_append, List.map_singleton]
    refine List.nodup_append.mpr ⟨h.numbers, List.nodup_singleton _, fun p hp q hq => ?_⟩
    obtain ⟨x, hx, rfl⟩ := List.mem_map.mp hp
    rw [List.mem_singleton.mp hq]
    exact Nat.ne_of_lt (h.pending x hx)
  · intro x hx
    rcases List.mem_append.mp hx with hx | hx
    · exact Nat.lt_succ_of_lt (h.pending x hx)
    · rw [List.mem_singleton.mp hx]
      exact Nat.lt_succ_self n
  · intro x hx i hi
    rcases List.mem_append.mp hx with hx | hx
    · rcases List.mem_append.mp hi with hi | hi
      · exact h.known x hx i hi
      · exact absurd (hnew _ hi).1 (Nat.ne_of_lt (h.pending x hx))
    · obtain rfl := List.mem_singleton.mp hx
      rcases List.mem_append.mp hi with hi | hi
      · exact absurd (h.below _ hi) (Nat.lt_irrefl _)
      · exact (hnew _ hi).2

/-- A pending inquiry asks someone new. -/
theorem AskedOnce.ask {n p : ℕ} {ys zs : List (ℕ × List ι)} {ids : List ι} {i : ι}
    (h : AskedOnce ⟨n, ys ++ (p, ids) :: zs⟩ log) (hi : i ∉ ids) (hasks : asks.Sublist [(p, i)]) :
    AskedOnce ⟨n, ys ++ (p, ids ++ [i]) :: zs⟩ (log ++ asks) := by
  have hp : (p, ids) ∈ ys ++ (p, ids) :: zs := by simp
  have hnumbers : p ∉ (ys ++ zs).map Prod.fst := by
    have hn := h.numbers
    dsimp only at hn
    rw [List.map_append, List.map_cons, List.nodup_middle, ← List.map_append] at hn
    exact (List.nodup_cons.mp hn).1
  have hnew : ∀ a ∈ asks, a = (p, i) := fun a ha => List.mem_singleton.mp (hasks.subset ha)
  -- the other inquiries are as before and have other numbers
  have hmem : ∀ x ∈ ys ++ (p, ids ++ [i]) :: zs, x = (p, ids ++ [i]) ∨
      x ∈ ys ++ (p, ids) :: zs ∧ x.1 ≠ p := by
    intro x hx
    have hother : x ∈ ys ++ zs → x ∈ ys ++ (p, ids) :: zs ∧ x.1 ≠ p := by
      intro hx
      refine ⟨((List.sublist_cons_self _ zs).append_left ys).subset hx, fun he => ?_⟩
      exact hnumbers (List.mem_map.mpr ⟨x, hx, he⟩)
    rw [List.mem_append, List.mem_cons] at hx
    rcases hx with hx | rfl | hx
    · exact .inr (hother (List.mem_append_left _ hx))
    · exact .inl rfl
    · exact .inr (hother (List.mem_append_right _ hx))
  refine ⟨?_, ?_, ?_, ?_, ?_⟩
  · refine List.nodup_append.mpr ⟨h.nodup, (List.nodup_singleton _).sublist hasks, ?_⟩
    intro a ha b hb he
    rw [he, hnew b hb] at ha
    exact hi (h.known _ hp i ha)
  · intro a ha
    rcases List.mem_append.mp ha with ha | ha
    · exact h.below a ha
    · rw [hnew a ha]
      exact h.pending _ hp
  · simpa using h.numbers
  · intro x hx
    rcases hmem x hx with rfl | ⟨hx, -⟩
    · exact h.pending (p, ids) hp
    · exact h.pending x hx
  · intro x hx j hj
    rcases hmem x hx with rfl | ⟨hx, hne⟩
    · rcases List.mem_append.mp hj with hj | hj
      · exact List.mem_append_left _ (h.known _ hp j hj)
      · exact List.mem_append_right _ (List.mem_singleton.mpr (Prod.mk.inj (hnew _ hj)).2)
    · rcases List.mem_append.mp hj with hj | hj
      · exact h.known x hx j hj
      · exact absurd (Prod.mk.inj (hnew _ hj)).1 hne

theorem AskedOnce.drop {n : ℕ} {xs xs' : List (ℕ × List ι)} (h : AskedOnce ⟨n, xs⟩ log)
    (hsub : xs'.Sublist xs) : AskedOnce ⟨n, xs'⟩ log :=
  ⟨h.nodup, h.below, h.numbers.sublist (hsub.map Prod.fst),
    fun x hx => h.pending x (hsub.subset hx), fun x hx => h.known x (hsub.subset hx)⟩

theorem AskedOnce.step (h : AskedOnce d log) (hs : Inquires d asks d') :
    AskedOnce d' (log ++ asks) := by
  cases hs with
  | start hids hasks => exact h.start hids hasks
  | ask hi hasks => exact h.ask hi hasks
  | drop hsub =>
    rw [List.append_nil]
    exact h.drop hsub

end AskedOnce
end Masala.Library
