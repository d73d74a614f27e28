import Masala.Bencode.Compare
import Masala.Library.ThreeWay

/-!
# The order that the comparison tells

`ben_str_compare` takes the longer of two lengths as the bound of its walk.
The walk stays inside of both strings where neither is a proper prefix of the
other, and inside of their memory where neither goes on behind the other with
a zero and another byte. There the result tells the order of the strings.
-/
namespace Masala.Bencode
open Library

/-- The result tells the order of the strings, and would be the same with anything else, or nothing
at all, behind their bytes. -/
structure TellsOrder (s1 s2 : Bytes) : Prop where
  result : benStrCompare (.str s1) (.str s2) = .ok (threeWay s1 s2)
  inside : ∀ t1 t2, strCompareIn (s1 ++ t1) (s2 ++ t2) s1 s2 =
    benStrCompare (.str s1) (.str s2)

section Order
variable {s1 s2 m1 m2 : Bytes} {i : ℕ}

theorem threeWay_cons (c : UInt8) (s1 s2 : Bytes) :
    threeWay (c :: s1) (c :: s2) = threeWay s1 s2 := by
  simp [threeWay]

/-- The walk from a place up to which the strings are alike. -/
theorem strCompareLoop_inside (s1 s2 t1 t2 : Bytes) (h1 : m1.drop i = s1 ++ t1)
    (h2 : m2.drop i = s2 ++ t2) (hpre : s1 <+: s2 ∨ s2 <+: s1 → s1 = s2) :
    strCompareLoop m1 m2 (max s1.length s2.length) i >>= byLength s1 s2 =
      .ok (threeWay s1 s2) := by
  induction s1 generalizing s2 i with
  | nil =>
    obtain rfl : [] = s2 := hpre (.inl List.nil_prefix)
    rfl
  | cons a s1 ih =>
    cases s2 with
    | nil => cases hpre (.inr List.nil_prefix)
    | cons b s2 =>
      rw [List.length_cons, List.length_cons, Nat.succ_max_succ,
        strCompareLoop_step _ (deref_drop h1) (deref_drop h2)]
      rcases Std.lt_trichotomy a b with hlt | rfl | hlt
      · rw [if_neg (UInt8.lt_asymm hlt), if_pos hlt,
          threeWay_of_lt (List.cons_lt_cons_iff.mpr (.inl hlt))]
        rfl
      · rw [if_neg (UInt8.lt_irrefl a), if_neg (UInt8.lt_irrefl a), byLength_cons, threeWay_cons]
        refine ih s2 (drop_succ h1) (drop_succ h2) fun h => ?_
        have hcons := hpre (h.imp (List.prefix_cons_inj a).mpr (List.prefix_cons_inj a).mpr)
        exact (List.cons.inj hcons).2
      · rw [if_pos hlt, threeWay_of_gt (List.cons_lt_cons_iff.mpr (.inl hlt))]
        rfl

/-- The walk over a common part. -/
theorem strCompareLoop_common (w t1 t2 : Bytes) (k : ℕ) (h1 : m1.drop i = w ++ t1)
    (h2 : m2.drop i = w ++ t2) :
    strCompareLoop m1 m2 (w.length + k) i = strCompareLoop m1 m2 k (i + w.length) := by
  induction w generalizing i with
  | nil => rw [List.length_nil, Nat.zero_add, Nat.add_zero]
  | cons c w ih =>
    rw [List.length_cons, Nat.add_right_comm, strCompareLoop_step _ (deref_drop h1) (deref_drop h2),
      if_neg (UInt8.lt_irrefl c), if_neg (UInt8.lt_irrefl c), ih (drop_succ h1) (drop_succ h2),
      Nat.add_assoc, Nat.add_comm 1]

/-- The walk leaves a first string that the second one goes on behind. -/
theorem strCompareIn_prefix_left (s : Bytes) (c : UInt8) (t : Bytes) :
    strCompareIn s (s ++ c :: t) s (s ++ c :: t) = .error (.read s.length) := by
  have hsize : max s.length (s ++ c :: t).length = s.length + (t.length + 1) := by simp
  have hend : s.drop (0 + s.length) = [] := by simp
  rw [strCompareIn, hsize, strCompareLoop_common s [] (c :: t) _ (by simp) rfl, strCompareLoop,
    deref_end hend, Nat.zero_add]
  rfl

/-- The walk leaves a second string that the first one goes on behind. -/
theorem strCompareIn_prefix_right (s : Bytes) (c : UInt8) (t : Bytes) :
    strCompareIn (s ++ c :: t) s (s ++ c :: t) s = .error (.read s.length) := by
  have hsize : max (s ++ c :: t).length s.length = s.length + (t.length + 1) := by simp
  have hnext : (s ++ c :: t).drop (0 + s.length) = c :: t := by simp
  have hend : s.drop (0 + s.length) = [] := by simp
  rw [strCompareIn, hsize, strCompareLoop_common s (c :: t) [] _ rfl (by simp), strCompareLoop,
    deref_drop hnext, exec_ok_bind, deref_end hend, Nat.zero_add]
  rfl

theorem strCompareIn_inside (hpre : s1 <+: s2 ∨ s2 <+: s1 → s1 = s2) (t1 t2 : Bytes) :
    strCompareIn (s1 ++ t1) (s2 ++ t2) s1 s2 = .ok (threeWay s1 s2) :=
  strCompareLoop_inside s1 s2 t1 t2 rfl rfl hpre

theorem tellsOrder_iff (s1 s2 : Bytes) :
    TellsOrder s1 s2 ↔ (s1 <+: s2 ∨ s2 <+: s1 → s1 = s2) := by
  constructor
  · intro h hpre
    by_contra hne
    have hcut := h.inside [] []
    rw [h.result, List.append_nil, List.append_nil] at hcut
    rcases hpre with ⟨t, rfl⟩ | ⟨t, rfl⟩
    · cases t with
      | nil => exact hne (List.append_nil s1).symm
      | cons c t =>
        rw [strCompareIn_prefix_left] at hcut
        cases hcut
    · cases t with
      | nil => exact hne (List.append_nil s2)
      | cons c t =>
        rw [strCompareIn_prefix_right] at hcut
        cases hcut
  · intro hpre
    have hresult : benStrCompare (.str s1) (.str s2) = .ok (threeWay s1 s2) := by
      rw [benStrCompare_eq, strCompareIn_inside hpre]
    exact ⟨hresult, fun t1 t2 => by rw [hresult, strCompareIn_inside hpre]⟩

theorem Overruns.asymm (h : Overruns s1 s2) : ¬ Overruns s2 s1 := by
  intro h'
  have hlt := h.length_lt
  have hlt' := h'.length_lt
  omega

/-- The comparison returns where neither string overruns the other, and then tells their order. -/
theorem benStrCompare_returns_iff : (∃ result, benStrCompare (.str s1) (.str s2) = .ok result) ↔
    ¬ Overruns s1 s2 ∧ ¬ Overruns s2 s1 := by
  have hcompared := benStrCompare_compared s1 s2
  generalize benStrCompare (.str s1) (.str s2) = r at hcompared
  cases hcompared with
  | less h hno => exact iff_of_true ⟨_, rfl⟩ ⟨hno, fun ho => List.lt_asymm h ho.lt⟩
  | equal h =>
    subst h
    exact iff_of_true ⟨_, rfl⟩ ⟨fun ho => ho.asymm ho, fun ho => ho.asymm ho⟩
  | greater h hno => exact iff_of_true ⟨_, rfl⟩ ⟨fun ho => List.lt_asymm h ho.lt, hno⟩
  | beyond h off =>
    refine iff_of_false (by simp) fun hno => ?_
    exact h.elim hno.1 hno.2

theorem benStrCompare_result {result : ℤ} (h : benStrCompare (.str s1) (.str s2) = .ok result) :
    result = threeWay s1 s2 := by
  have hcompared := benStrCompare_compared s1 s2
  rw [h] at hcompared
  cases hcompared with
  | less hlt hno => exact (threeWay_of_lt hlt).symm
  | equal he =>
    subst he
    exact (threeWay_self s1).symm
  | greater hlt hno => exact (threeWay_of_gt hlt).symm

theorem benStrCompare_eq_iff (s1 s2 : Bytes) :
    benStrCompare (.str s1) (.str s2) = .ok (threeWay s1 s2) ↔
      ¬ Overruns s1 s2 ∧ ¬ Overruns s2 s1 := by
  rw [← benStrCompare_returns_iff]
  constructor
  · intro h
    exact ⟨_, h⟩
  · rintro ⟨result, h⟩
    rw [h, benStrCompare_result h]

end Order
/-- The comparison tells the order of two strings from their bytes exactly if neither is a proper
prefix of the other. Where it may read the zero behind a string, it tells the order exactly if
neither string overruns the other, and is a total order on the sets of strings without overruns. -/
theorem benStrCompare_ordered_iff (s1 s2 : Bytes) (S : Set Bytes) :
    (TellsOrder s1 s2 ↔ (s1 <+: s2 ∨ s2 <+: s1 → s1 = s2)) ∧
    (benStrCompare (.str s1) (.str s2) = .ok (threeWay s1 s2) ↔
      ¬ Overruns s1 s2 ∧ ¬ Overruns s2 s1) ∧
    (TotalOn (fun s1 s2 => benStrCompare (.str s1) (.str s2)) S ↔
      ∀ s1 ∈ S, ∀ s2 ∈ S, ¬ Overruns s1 s2) := by
  refine ⟨tellsOrder_iff s1 s2, benStrCompare_eq_iff s1 s2, fun h s1 hs1 s2 hs2 => ?_, fun h => ?_⟩
  · obtain ⟨result, hreturns, -⟩ := h.returns s1 hs1 s2 hs2
    exact (benStrCompare_returns_iff.mp ⟨result, hreturns⟩).1
  · exact .of_threeWay fun s1 hs1 s2 hs2 =>
      (benStrCompare_eq_iff s1 s2).mpr ⟨h s1 hs1 s2 hs2, h s2 hs2 s1 hs1⟩

/-- The walk over `a` and over `a`, a zero and `b` leaves the memory of the first one. -/
theorem benStrCompare_overruns : ¬ ∀ s1 s2 : Bytes,
    benStrCompare (.str s1) (.str s2) = .ok (threeWay s1 s2) := by
  intro hall
  have hread : benStrCompare (.str [0x61]) (.str [0x61, 0, 0x62]) = .error (.read 2) := by rfl
  have hresult := hall [0x61] [0x61, 0, 0x62]
  rw [hread] at hresult
  cases hresult

end Masala.Bencode
