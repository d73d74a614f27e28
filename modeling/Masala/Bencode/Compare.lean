import Masala.Bencode.Tree

/-!
# Comparing keys

`ben_str_compare` walks over as many bytes as the longer string has. The
shorter one has a single zero behind its last byte, so the walk leaves its
memory if the longer string goes on with a zero and yet another byte.
-/
namespace Masala.Bencode
open Library

/-- The walk over `k` bytes from `i` on, with what it returns if it does not end before. -/
def strCompareLoop (s1 s2 : Bytes) : ℕ → ℕ → Exec (Option ℤ)
  | 0, _ => return none
  | k + 1, i => do
    let c1 ← deref s1 i
    let c2 ← deref s2 i
    if c1 > c2 then return some 1
    else if c1 < c2 then return some (-1)
    else strCompareLoop s1 s2 k (i + 1)

/-- `ben_str_compare`; `str_init` leaves a zero behind the bytes of a string. -/
def benStrCompare (key1 key2 : ObjBen) : Exec ℤ :=
  match key1 with
  | .str s1 =>
    match key2 with
    | .str s2 => do
      let size := if s1.length > s2.length then s1.length else s2.length
      match ← strCompareLoop (s1 ++ [0]) (s2 ++ [0]) size 0 with
      | some result => return result
      | none =>
        if s1.length > s2.length then return 1
        else if s1.length < s2.length then return -1
        else return 0
    | _ => return 1
  | _ => return -1

/-- The second string is the first one with a zero and more behind it. -/
def Overruns (s1 s2 : Bytes) : Prop := ∃ c t, s2 = s1 ++ 0 :: c :: t

/-- What the comparison of two strings gives, in terms of the order of byte strings. -/
inductive Compared (s1 s2 : Bytes) : Exec ℤ → Prop
  | less (h : s1 < s2) (hno : ¬ Overruns s1 s2) : Compared s1 s2 (.ok (-1))
  | equal (h : s1 = s2) : Compared s1 s2 (.ok 0)
  | greater (h : s2 < s1) (hno : ¬ Overruns s2 s1) : Compared s1 s2 (.ok 1)
  | beyond (h : Overruns s1 s2 ∨ Overruns s2 s1) (off : ℕ) : Compared s1 s2 (.error (.read off))

section Compare
variable {s1 s2 t1 t2 : Bytes} {c : UInt8}

theorem overruns_cons : Overruns (c :: s1) (c :: s2) ↔ Overruns s1 s2 := by
  simp [Overruns]

theorem overruns_of_ne {d : UInt8} (h : c ≠ d) : ¬ Overruns (c :: s1) (d :: s2) := by
  rintro ⟨e, t, he⟩
  exact h (List.cons.inj he).1.symm

theorem Overruns.length_lt (h : Overruns s1 s2) : s1.length + 2 ≤ s2.length := by
  obtain ⟨c, t, rfl⟩ := h
  simp

theorem Overruns.lt (h : Overruns s1 s2) : s1 < s2 := by
  obtain ⟨c, t, rfl⟩ := h
  induction s1 with
  | nil => exact List.nil_lt_cons _ _
  | cons a s1 ih => exact List.cons_lt_cons_iff.mpr (.inr ⟨rfl, ih⟩)

/-- The lengths decide where the walk finds no difference. -/
def byLength (s1 s2 : Bytes) (r : Option ℤ) : Exec ℤ :=
  match r with
  | some result => .ok result
  | none =>
    if s1.length > s2.length then .ok 1
    else if s1.length < s2.length then .ok (-1)
    else .ok 0

theorem byLength_cons (a b : UInt8) : byLength (a :: s1) (b :: s2) = byLength s1 s2 := by
  funext r
  simp [byLength]

/-- One byte of both strings. -/
theorem strCompareLoop_step {m1 m2 : Bytes} {a b : UInt8} {i : ℕ} (k : ℕ)
    (h1 : deref m1 i = .ok a) (h2 : deref m2 i = .ok b) :
    strCompareLoop m1 m2 (k + 1) i =
      if a > b then .ok (some 1) else if a < b then .ok (some (-1))
      else strCompareLoop m1 m2 k (i + 1) := by
  rw [strCompareLoop, h1, exec_ok_bind, h2, exec_ok_bind]
  rfl

theorem deref_drop {m s : Bytes} {c : UInt8} {i : ℕ} (h : m.drop i = c :: s) :
    deref m i = .ok c := At.deref (show At m i (c :: s) from ⟨[], by rw [List.append_nil, h]⟩)

theorem drop_succ {m s : Bytes} {c : UInt8} {i : ℕ} (h : m.drop i = c :: s) :
    m.drop (i + 1) = s := by
  rw [← List.drop_drop, h]
  rfl

theorem deref_end {m : Bytes} {i : ℕ} (h : m.drop i = []) : deref m i = .error (.read i) := by
  rw [deref, List.getElem?_eq_none (List.drop_eq_nil_iff.mp h)]

/-- The second string goes on behind the end of the first one. -/
theorem strCompareLoop_nil_left {m1 m2 : Bytes} {i : ℕ} (h1 : m1.drop i = [0])
    (h2 : m2.drop i = c :: s2 ++ [0]) :
    Compared [] (c :: s2) (strCompareLoop m1 m2 (c :: s2).length i >>= byLength [] (c :: s2)) := by
  rw [List.length_cons, strCompareLoop_step _ (deref_drop h1) (deref_drop h2),
    if_neg (by simp)]
  by_cases hc : c = 0
  · subst hc
    rw [if_neg (by simp)]
    cases s2 with
    | nil =>
      refine .less (List.nil_lt_cons _ _) fun h => ?_
      have := h.length_lt
      simp at this
    | cons d s2 =>
      have hover : Overruns [] (0 :: d :: s2) := ⟨d, s2, rfl⟩
      rw [List.length_cons, strCompareLoop, deref_end (drop_succ h1)]
      exact .beyond (.inl hover) _
  · rw [if_pos (UInt8.pos_iff_ne_zero.mpr hc)]
    refine .less (List.nil_lt_cons _ _) ?_
    rintro ⟨d, t, he⟩
    exact hc (List.cons.inj he).1

/-- The first string goes on behind the end of the second one. -/
theorem strCompareLoop_nil_right {m1 m2 : Bytes} {i : ℕ} (h1 : m1.drop i = c :: s1 ++ [0])
    (h2 : m2.drop i = [0]) :
    Compared (c :: s1) [] (strCompareLoop m1 m2 (c :: s1).length i >>= byLength (c :: s1) []) := by
  rw [List.length_cons, strCompareLoop_step _ (deref_drop h1) (deref_drop h2)]
  by_cases hc : c = 0
  · subst hc
    rw [if_neg (by simp), if_neg (by simp)]
    cases s1 with
    | nil =>
      refine .greater (List.nil_lt_cons _ _) fun h => ?_
      have := h.length_lt
      simp at this
    | cons d s1 =>
      have hover : Overruns [] (0 :: d :: s1) := ⟨d, s1, rfl⟩
      rw [List.length_cons, strCompareLoop, deref_drop (drop_succ h1), exec_ok_bind,
        deref_end (drop_succ h2)]
      exact .beyond (.inr hover) _
  · rw [if_pos (UInt8.pos_iff_ne_zero.mpr hc)]
    refine .greater (List.nil_lt_cons _ _) ?_
    rintro ⟨d, t, he⟩
    exact hc (List.cons.inj he).1

/-- A common first byte changes nothing. -/
theorem Compared.cons {r : Exec ℤ} (h : Compared s1 s2 r) (c : UInt8) :
    Compared (c :: s1) (c :: s2) r := by
  cases h with
  | less h hno =>
    exact .less (List.cons_lt_cons_iff.mpr (.inr ⟨rfl, h⟩)) (overruns_cons.not.mpr hno)
  | equal h => exact .equal (h ▸ rfl)
  | greater h hno =>
    exact .greater (List.cons_lt_cons_iff.mpr (.inr ⟨rfl, h⟩)) (overruns_cons.not.mpr hno)
  | beyond h off => exact .beyond (h.imp overruns_cons.mpr overruns_cons.mpr) off

/-- The walk from a place up to which the strings are alike. -/
theorem strCompareLoop_compared (s1 s2 : Bytes) {m1 m2 : Bytes} {i : ℕ}
    (h1 : m1.drop i = s1 ++ [0]) (h2 : m2.drop i = s2 ++ [0]) :
    Compared s1 s2 (strCompareLoop m1 m2 (max s1.length s2.length) i >>= byLength s1 s2) := by
  induction s1 generalizing s2 i with
  | nil =>
    cases s2 with
    | nil => exact .equal rfl
    | cons c s2 =>
      rw [List.length_nil, Nat.zero_max]
      exact strCompareLoop_nil_left h1 h2
  | cons a s1 ih =>
    cases s2 with
    | nil =>
      rw [List.length_nil, Nat.max_zero]
      exact strCompareLoop_nil_right h1 h2
    | cons b s2 =>
      rw [List.length_cons, List.length_cons, Nat.succ_max_succ,
        strCompareLoop_step _ (deref_drop h1) (deref_drop h2)]
      rcases Std.lt_trichotomy a b with hlt | rfl | hlt
      · rw [if_neg (UInt8.lt_asymm hlt), if_pos hlt]
        exact .less (List.cons_lt_cons_iff.mpr (.inl hlt)) (overruns_of_ne (UInt8.ne_of_lt hlt))
      · rw [if_neg (UInt8.lt_irrefl a), if_neg (UInt8.lt_irrefl a), byLength_cons]
        exact (ih s2 (drop_succ h1) (drop_succ h2)).cons a
      · rw [if_pos hlt]
        exact .greater (List.cons_lt_cons_iff.mpr (.inl hlt)) (overruns_of_ne (UInt8.ne_of_lt hlt))

/-- The comparison of `s1` and `s2` where they stand at the start of other memories. -/
def strCompareIn (m1 m2 s1 s2 : Bytes) : Exec ℤ :=
  strCompareLoop m1 m2 (max s1.length s2.length) 0 >>= byLength s1 s2

theorem benStrCompare_eq (s1 s2 : Bytes) :
    benStrCompare (.str s1) (.str s2) = strCompareIn (s1 ++ [0]) (s2 ++ [0]) s1 s2 := by
  have hsize : (if s1.length > s2.length then s1.length else s2.length) =
      max s1.length s2.length := by
    split <;> omega
  rw [strCompareIn, ← hsize]
  rfl

theorem benStrCompare_compared (s1 s2 : Bytes) :
    Compared s1 s2 (benStrCompare (.str s1) (.str s2)) := by
  rw [benStrCompare_eq]
  exact strCompareLoop_compared s1 s2 rfl rfl

/-- The comparison that lets a sort move on. -/
theorem benStrCompare_le_iff : (∃ result, benStrCompare (.str s1) (.str s2) = .ok result ∧
    result ≤ 0) ↔ s1 ≤ s2 ∧ ¬ Overruns s1 s2 := by
  have hcompared := benStrCompare_compared s1 s2
  generalize benStrCompare (.str s1) (.str s2) = r at hcompared
  cases hcompared with
  | less h hno => exact iff_of_true ⟨_, rfl, by decide⟩ ⟨List.le_of_lt h, hno⟩
  | equal h =>
    subst h
    refine iff_of_true ⟨_, rfl, Int.le_refl 0⟩ ⟨List.le_refl s1, fun h => ?_⟩
    have := h.length_lt
    omega
  | greater h hno =>
    refine iff_of_false ?_ fun hle => List.not_lt.mpr hle.1 h
    rintro ⟨result, hok, hle⟩
    cases hok
    exact absurd hle (by decide)
  | beyond h off =>
    refine iff_of_false (by simp) fun hle => ?_
    exact h.elim hle.2 fun h => List.not_lt.mpr hle.1 h.lt

end Compare
end Masala.Bencode
