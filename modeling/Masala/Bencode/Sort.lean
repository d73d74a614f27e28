import Masala.Bencode.Compare
import Masala.Container.LinkedList

/-!
# Sorting a dictionary

`ben_sort` walks over the list of tuples and swaps neighbours. It steps back
with `list_prev`, which gives NULL for every item, so it never gets past the
first tuple that is not in its place.
-/
namespace Masala.Bencode
open Library Container

/-- The list of a dictionary; `ben_dict` takes no other keys than strings. -/
abbrev Tuples := ObjList (Bytes × ObjBen)

/-- A node as far as `ben_sort` looks at it. -/
inductive SortNode
  | dict (d : Option Tuples)
  | other

/-- The walk; `next` is read again from the start of the list if a pass has swapped anything. -/
def benSortLoop : ℕ → Tuples → Option Ptr → ℕ → Exec Tuples
  | 0, _, _, _ => .error .fuel
  | fuel + 1, d, item, switchcounter => do
    let next ← listNext d item
    if next = none ∧ switchcounter = 0 then return d
    else do
      let (item, next, switchcounter) ←
        if next = none then do
          let next ← listNext d d.start
          pure (d.start, next, 0)
        else pure (item, next, switchcounter)
      let tuple_this ← d.item item
      let tuple_next ← d.item next
      let result ← benStrCompare (.str tuple_this.val.1) (.str tuple_next.val.1)
      if result > 0 then do
        let d ← listSwap d item next
        benSortLoop fuel d (if next ≠ none then listPrev d next else item) (switchcounter + 1)
      else benSortLoop fuel d next switchcounter

/-- `ben_sort`, with the list that the node has afterwards. -/
def benSort (fuel : ℕ) : Option SortNode → Exec (Option Tuples)
  | none => .error (.fatal "ben_sort( 1 )")
  | some .other => .error (.fatal "ben_sort( 2 )")
  | some (.dict none) => return none
  | some (.dict (some d)) =>
    if d.counter < 2 then return some d
    else do
      let d ← benSortLoop fuel d d.start 0
      return some d

/-- The keys of tuples in a list. -/
def keys (xs : List (Ptr × Bytes × ObjBen)) : List Bytes := xs.map fun x => x.2.1

/-- The node has a well-formed list of the same tuples in the order of their keys. -/
def SortedFrom (xs : List (Ptr × Bytes × ObjBen)) (d : Tuples) : Prop :=
  ∃ ys, Holds d ys ∧ (ys.map Prod.snd).Perm (xs.map Prod.snd) ∧ (keys ys).Pairwise (· ≤ ·)

/-- A key that the comparison lets stand in front of another one. -/
def Precedes (k1 k2 : Bytes) : Prop := k1 ≤ k2 ∧ ¬ Overruns k1 k2

section Walk
variable {d : Tuples} {ys zs : List (Ptr × Bytes × ObjBen)} {x y : Ptr × Bytes × ObjBen}

theorem benSortLoop_null (fuel : ℕ) (d d' : Tuples) (switchcounter : ℕ) :
    benSortLoop fuel d none switchcounter ≠ .ok d' := by
  cases fuel with
  | zero => exact fun h => nomatch h
  | succ fuel => exact fun h => nomatch h

/-- The comparison of two neighbours. -/
theorem benSortLoop_step (fuel : ℕ) (h : Linked d (ys ++ x :: y :: zs)) :
    benSortLoop (fuel + 1) d (some x.1) 0 = (do
      let result ← benStrCompare (.str x.2.1) (.str y.2.1)
      if result > 0 then do
        let d ← listSwap d (some x.1) (some y.1)
        benSortLoop fuel d none 1
      else benSortLoop fuel d (some y.1) 0) := by
  have hy : Linked d ((ys ++ [x]) ++ y :: zs) := by simpa using h
  rw [benSortLoop, h.next_eq]
  simp only [exec_ok_bind, firstPtr_cons, reduceCtorEq, false_and, if_false, exec_pure, h.item_eq,
    hy.item_eq, listPrev, ne_eq, not_false_eq_true, if_true, Nat.zero_add]

/-- A walk along keys in their order leaves the list as it is. -/
theorem benSortLoop_ordered (h : Linked d (ys ++ x :: zs))
    (hkeys : (keys (x :: zs)).IsChain Precedes) :
    benSortLoop (zs.length + 1) d (some x.1) 0 = .ok d := by
  induction zs generalizing ys x with
  | nil =>
    rw [benSortLoop, h.next_eq]
    rfl
  | cons y zs ih =>
    obtain ⟨hxy, hrest⟩ := List.isChain_cons_cons.mp hkeys
    obtain ⟨result, hcompare, hle⟩ := benStrCompare_le_iff.mpr hxy
    have hy : Linked d ((ys ++ [x]) ++ y :: zs) := by simpa using h
    rw [List.length_cons, benSortLoop_step _ h, hcompare, exec_ok_bind, if_neg (by omega)]
    exact ih hy hrest

/-- A walk to the first key out of its order never returns. -/
theorem benSortLoop_stuck (fuel : ℕ) (h : Linked d (ys ++ x :: zs))
    (hkeys : ¬ (keys (x :: zs)).IsChain Precedes) (d' : Tuples) :
    benSortLoop fuel d (some x.1) 0 ≠ .ok d' := by
  induction zs generalizing ys x fuel with
  | nil => exact absurd (List.IsChain.singleton _) hkeys
  | cons y zs ih =>
    cases fuel with
    | zero => exact fun h => nomatch h
    | succ fuel =>
      have hy : Linked d ((ys ++ [x]) ++ y :: zs) := by simpa using h
      rw [benSortLoop_step _ h]
      intro hok
      obtain ⟨result, hcompare, hok⟩ := exec_bind_eq_ok.mp hok
      by_cases hle : result > 0
      · rw [if_pos hle] at hok
        obtain ⟨d₁, -, hok⟩ := exec_bind_eq_ok.mp hok
        exact benSortLoop_null _ _ _ _ hok
      · rw [if_neg hle] at hok
        have hxy : Precedes x.2.1 y.2.1 :=
          benStrCompare_le_iff.mp ⟨result, hcompare, Int.not_lt.mp hle⟩
        exact ih fuel hy (fun hrest => hkeys (List.isChain_cons_cons.mpr ⟨hxy, hrest⟩)) hok

end Walk

/-- A dictionary gets sorted exactly if the comparison finds it in order. -/
theorem benSort_sorted_iff (d : Tuples) (xs : List (Ptr × Bytes × ObjBen)) (h : Holds d xs) :
    (∃ fuel d', benSort fuel (some (.dict (some d))) = .ok (some d') ∧ SortedFrom xs d') ↔
      (keys xs).IsChain Precedes := by
  have hcount := h.counter
  have hordered : (keys xs).IsChain Precedes → SortedFrom xs d := fun hkeys =>
    ⟨xs, h, List.Perm.refl _,
      List.isChain_iff_pairwise.mp (hkeys.imp fun _ _ hab => hab.1)⟩
  by_cases hfew : d.counter < 2
  · have hkeys : (keys xs).IsChain Precedes := by
      match xs, hcount with
      | [], _ => exact List.IsChain.nil
      | [x], _ => exact List.IsChain.singleton _
      | x :: y :: xs, hcount =>
        rw [List.length_cons, List.length_cons] at hcount
        omega
    exact iff_of_true ⟨0, d, by rw [benSort, if_pos hfew]; rfl, hordered hkeys⟩ hkeys
  · obtain ⟨x, xs, rfl⟩ := List.exists_cons_of_ne_nil (show xs ≠ [] by
      rintro rfl
      exact hfew (hcount.trans_lt Nat.zero_lt_two))
    have hlinked : Linked d ([] ++ x :: xs) := h.toLinked
    have hstart : d.start = some x.1 := h.start
    constructor
    · rintro ⟨fuel, d', hsort, -⟩
      by_contra hkeys
      rw [benSort, if_neg hfew, hstart] at hsort
      obtain ⟨d₁, hloop, -⟩ := exec_bind_eq_ok.mp hsort
      exact benSortLoop_stuck fuel hlinked hkeys d₁ hloop
    · intro hkeys
      refine ⟨xs.length + 1, d, ?_, hordered hkeys⟩
      rw [benSort, if_neg hfew, hstart, benSortLoop_ordered hlinked hkeys]
      rfl

theorem holds_pair (k1 k2 : Bytes) (v1 v2 : ObjBen) :
    ∃ (d : Tuples) (p q : Ptr), Holds d [(p, k1, v1), (q, k2, v2)] := by
  obtain ⟨d, -, h⟩ := (holds_init : Holds (listInit : Tuples) []).put (k1, v1)
  obtain ⟨d', -, h'⟩ := h.put (k2, v2)
  exact ⟨d', _, _, h'⟩

/-- The keys `a` and `b`. -/
theorem benSort_sorted_iff_pair : ∃ (d : Tuples) (p q : Ptr) (fuel : ℕ) (d' : Tuples),
    benSort fuel (some (.dict (some d))) = .ok (some d') ∧
      SortedFrom [(p, [0x61], .int 1), (q, [0x62], .int 2)] d' := by
  obtain ⟨d, p, q, h⟩ := holds_pair [0x61] [0x62] (.int 1) (.int 2)
  have hab : Precedes [0x61] [0x62] := ⟨by decide, overruns_of_ne (by decide)⟩
  obtain ⟨fuel, d', hsort⟩ := (benSort_sorted_iff d _ h).mpr
    (List.isChain_cons_cons.mpr ⟨hab, List.IsChain.singleton _⟩)
  exact ⟨d, p, q, fuel, d', hsort⟩

/-- The keys `b` and `a`: the step back behind the swap ends at NULL. -/
theorem benSort_null : ¬ ∀ (d : Tuples) (xs : List (Ptr × Bytes × ObjBen)), Holds d xs →
    ∃ fuel d', benSort fuel (some (.dict (some d))) = .ok (some d') ∧ SortedFrom xs d' := by
  intro hall
  obtain ⟨d, p, q, h⟩ := holds_pair [0x62] [0x61] (.int 1) (.int 2)
  obtain ⟨fuel, d', hsort, -⟩ := hall d _ h
  have hlinked : Linked d ([] ++ (p, [0x62], .int 1) :: [(q, [0x61], .int 2)]) := h.toLinked
  have hkeys : ¬ (keys [(p, [0x62], .int 1), (q, [0x61], .int 2)]).IsChain Precedes := by
    intro hchain
    have hle : ([0x62] : Bytes) ≤ [0x61] := (List.isChain_cons_cons.mp hchain).1.1
    exact absurd hle (by decide)
  have hcount : d.counter = 2 := h.counter
  have hstart : d.start = some p := h.start
  rw [benSort, if_neg (by omega), hstart] at hsort
  obtain ⟨d₁, hloop, -⟩ := exec_bind_eq_ok.mp hsort
  exact benSortLoop_stuck fuel hlinked hkeys d₁ hloop

end Masala.Bencode
