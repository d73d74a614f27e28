import Masala.Container.LinkedList
import Masala.Library.Ensures

/-!
# Runs over one list

What any sequence of `list_put`, `list_del` and `list_ins` makes of a list,
next to the sequence of payloads that the calls are meant to give. The two
agree up to the first `list_ins` behind the last of two or more items, which
leaves `stop` at the item in front.
-/
namespace Masala.Container
open Library

/-- A call, with the place of its item in the list. -/
inductive ListCall (α : Type)
  | put (payload : α)
  | del (k : ℕ)
  | ins (k : ℕ) (payload : α)

variable {α : Type}

/-- The pointer to the `k`-th item. -/
def ObjList.nth (l : ObjList α) (k : ℕ) : Option Ptr := (l.items.map Prod.fst)[k]?

def listCall (l : ObjList α) : ListCall α → Exec (ObjList α)
  | .put payload => do return (← listPut l payload).1
  | .del k => do return (← listDel l (l.nth k)).1
  | .ins k payload => do return (← listIns l (l.nth k) payload).1

def listRun (calls : List (ListCall α)) : Exec (ObjList α) := calls.foldlM listCall listInit

namespace ListCall

/-- What a call is meant to do to the payloads. -/
def apply (vs : List α) : ListCall α → List α
  | put payload => vs ++ [payload]
  | del k => vs.take k ++ vs.drop (k + 1)
  | ins k payload => vs.take (k + 1) ++ payload :: vs.drop (k + 1)

/-- The payloads a run is meant to leave. -/
def payloads (calls : List (ListCall α)) : List α := calls.foldl apply []

/-- The call is about an item of a list of `n`. -/
def InList (n : ℕ) : ListCall α → Prop
  | put _ => True
  | del k => k < n
  | ins k _ => k < n

/-- A `list_ins` behind the last of two or more items. -/
def BehindStop (n : ℕ) : ListCall α → Prop
  | put _ => False
  | del _ => False
  | ins k _ => 2 ≤ n ∧ k + 1 = n

instance (n : ℕ) : (c : ListCall α) → Decidable (c.InList n)
  | put _ => inferInstanceAs (Decidable True)
  | del k => inferInstanceAs (Decidable (k < n))
  | ins k _ => inferInstanceAs (Decidable (k < n))

instance (n : ℕ) : (c : ListCall α) → Decidable (c.BehindStop n)
  | put _ => inferInstanceAs (Decidable False)
  | del _ => inferInstanceAs (Decidable False)
  | ins k _ => inferInstanceAs (Decidable (2 ≤ n ∧ k + 1 = n))

end ListCall

/-- A well-formed list with these payloads. -/
def Stores (l : ObjList α) (vs : List α) : Prop := ∃ xs, Holds l xs ∧ xs.map Prod.snd = vs

/-! ## One call -/

section Call
variable {l : ObjList α} {vs : List α} {c : ListCall α}

theorem Stores.split {k : ℕ} (h : Stores l vs) (hk : k < vs.length) :
    ∃ ys p v zs, Holds l (ys ++ (p, v) :: zs) ∧ l.nth k = some p ∧
      vs.take k = ys.map Prod.snd ∧ vs.take (k + 1) = ys.map Prod.snd ++ [v] ∧
      vs.drop (k + 1) = zs.map Prod.snd := by
  obtain ⟨xs, hxs, rfl⟩ := h
  rw [List.length_map] at hk
  have hsplit : xs = xs.take k ++ xs[k] :: xs.drop (k + 1) := by
    rw [List.getElem_cons_drop, List.take_append_drop]
  have hnth : l.nth k = some xs[k].1 := by
    rw [ObjList.nth, hxs.toLinked.items_eq, List.getElem?_map, List.getElem?_eq_getElem hk]
    rfl
  refine ⟨xs.take k, xs[k].1, xs[k].2, xs.drop (k + 1), hsplit ▸ hxs, hnth, ?_, ?_, ?_⟩
  · exact List.map_take.symm
  · rw [← List.map_take, List.take_succ_eq_append_getElem hk, List.map_append]
    rfl
  · exact List.map_drop.symm

theorem Stores.put (h : Stores l vs) (v : α) :
    ∃ l', listCall l (.put v) = .ok l' ∧ Stores l' (vs ++ [v]) := by
  obtain ⟨xs, hxs, rfl⟩ := h
  obtain ⟨l', hput, hl'⟩ := hxs.put v
  exact ⟨l', by rw [listCall, hput]; rfl, _, hl', by simp⟩

theorem Stores.del {k : ℕ} (h : Stores l vs) (hk : k < vs.length) :
    ∃ l', listCall l (.del k) = .ok l' ∧ Stores l' (vs.take k ++ vs.drop (k + 1)) := by
  obtain ⟨ys, p, v, zs, hxs, hnth, htake, -, hdrop⟩ := h.split hk
  obtain ⟨l', hdel, hl'⟩ := hxs.del
  exact ⟨l', by rw [listCall, hnth, hdel]; rfl, _, hl', by rw [htake, hdrop, List.map_append]⟩

/-- The new item is in its place, but `stop` is only right if it is not the last one. -/
theorem Holds.ins_stores_iff {l' : ObjList α} {ys zs : List (Ptr × α)} {p : Ptr} {v w : α}
    (h : Holds l (ys ++ (p, v) :: zs))
    (hl' : Linked l' (ys ++ (p, v) :: (l.fresh, w) :: zs)) (hstop : l'.stop = l.stop) :
    Stores l' (ys.map Prod.snd ++ [v] ++ w :: zs.map Prod.snd) ↔ zs ≠ [] := by
  constructor
  · -- A list that ends at the new item would have its `stop` there.
    rintro ⟨xs', hxs', -⟩ hnil
    have hlast := hxs'.stop
    rw [hxs'.toLinked.unique hl', hstop, h.stop, hnil] at hlast
    have hp : p ≠ l.fresh := nodup_fresh h.fresh (p, v) (by simp)
    exact hp (by simpa using hlast)
  · intro hne
    obtain ⟨b, zs, rfl⟩ := List.exists_cons_of_ne_nil hne
    exact ⟨_, ⟨hl', by rw [hstop, h.stop]; simp⟩, by simp⟩

/-- Where `list_ins` leaves a well-formed list. -/
theorem Stores.ins {k : ℕ} (h : Stores l vs) (hk : k < vs.length) (w : α) :
    ∃ l', listCall l (.ins k w) = .ok l' ∧
      (Stores l' (vs.take (k + 1) ++ w :: vs.drop (k + 1)) ↔
        ¬ (2 ≤ vs.length ∧ k + 1 = vs.length)) := by
  obtain ⟨ys, p, v, zs, hxs, hnth, -, htake, hdrop⟩ := h.split hk
  have hlen : vs.length = (ys ++ (p, v) :: zs).length := by
    rw [← List.take_append_drop (k + 1) vs, htake, hdrop]
    simp
  have hzs : zs = [] ↔ k + 1 = vs.length := by
    rw [← List.map_eq_nil_iff (f := Prod.snd), ← hdrop, List.drop_eq_nil_iff]
    omega
  have hcount := hxs.counter
  rw [← hlen] at hcount
  rw [htake, hdrop]
  by_cases hc : l.counter ≤ 1
  · -- `list_put` does the work, and the item is the only one.
    obtain ⟨l', hins, hl'⟩ := hxs.ins_short hc (some p) w
    refine ⟨l', by rw [listCall, hnth, hins]; rfl, iff_of_true ⟨_, hl', ?_⟩ (by omega)⟩
    have hnil : zs = [] := hzs.mpr (by omega)
    rw [hnil]
    simp
  · obtain ⟨l', hins, hl', hstop⟩ := hxs.toLinked.ins (Nat.lt_of_not_le hc) w
    refine ⟨l', by rw [listCall, hnth, hins]; rfl, ?_⟩
    rw [hxs.ins_stores_iff hl' hstop, ne_eq, hzs]
    omega

/-- Every call on an item of a well-formed list does what it should, except for one. -/
theorem Stores.call (h : Stores l vs) (hc : c.InList vs.length) :
    ∃ l', listCall l c = .ok l' ∧ (Stores l' (c.apply vs) ↔ ¬ c.BehindStop vs.length) := by
  cases c with
  | put v =>
    obtain ⟨l', hput, hl'⟩ := h.put v
    exact ⟨l', hput, iff_of_true hl' id⟩
  | del k =>
    obtain ⟨l', hdel, hl'⟩ := h.del hc
    exact ⟨l', hdel, iff_of_true hl' id⟩
  | ins k w => exact h.ins hc w

end Call

/-! ## Runs -/

section Run
variable {calls pre : List (ListCall α)} {c : ListCall α}

theorem stores_init : Stores (listInit : ObjList α) [] := ⟨[], holds_init, rfl⟩

theorem ListCall.payloads_snoc (calls : List (ListCall α)) (c : ListCall α) :
    payloads (calls ++ [c]) = c.apply (payloads calls) := by
  rw [payloads, List.foldl_append]
  rfl

/-- Every call is about an item of the list that the calls before it are meant to leave. -/
def Valid (calls : List (ListCall α)) : Prop :=
  ∀ pre c, pre ++ [c] <+: calls → c.InList (ListCall.payloads pre).length

theorem Valid.before (h : Valid calls) (hpre : pre <+: calls) : Valid pre :=
  fun pre' c hc => h pre' c (hc.trans hpre)

/-- A run without a `list_ins` behind the last item. -/
theorem listRun_stores (hvalid : Valid calls)
    (hclean : ∀ pre c, pre ++ [c] <+: calls → ¬ c.BehindStop (ListCall.payloads pre).length) :
    ∃ l, listRun calls = .ok l ∧ Stores l (ListCall.payloads calls) := by
  have hstep : ∀ (pre : List (ListCall α)) (c : ListCall α) (l : ObjList α),
      (c.InList (ListCall.payloads pre).length ∧
        ¬ c.BehindStop (ListCall.payloads pre).length) → Stores l (ListCall.payloads pre) →
      ∃ l', listCall l c = .ok l' ∧ Stores l' (ListCall.payloads (pre ++ [c])) := by
    intro pre c l ⟨hin, hno⟩ hl
    obtain ⟨l', hcall, hstores⟩ := hl.call hin
    exact ⟨l', hcall, by rw [ListCall.payloads_snoc]; exact hstores.mpr hno⟩
  exact foldlM_total_of hstep stores_init calls fun pre c hpre =>
    ⟨hvalid pre c hpre, hclean pre c hpre⟩

/-- The list is right at every point of a run exactly if the run has no `list_ins` behind the
last of two or more items. -/
theorem listRun_stores_iff (calls : List (ListCall α)) (hvalid : Valid calls) :
    (∀ pre, pre <+: calls → ∃ l, listRun pre = .ok l ∧ Stores l (ListCall.payloads pre)) ↔
      ∀ pre c, pre ++ [c] <+: calls → ¬ c.BehindStop (ListCall.payloads pre).length := by
  constructor
  · intro hall pre c hc
    obtain ⟨l, hrun, hl⟩ := hall pre ((List.prefix_append _ _).trans hc)
    obtain ⟨l', hcall, hstores⟩ := hl.call (hvalid pre c hc)
    obtain ⟨l₁, hrun₁, hl₁⟩ := hall (pre ++ [c]) hc
    rw [listRun, foldlM_snoc, ← listRun, hrun, exec_ok_bind, hcall] at hrun₁
    rw [← Except.ok.inj hrun₁, ListCall.payloads_snoc] at hl₁
    exact hstores.mp hl₁
  · intro hclean pre hpre
    exact listRun_stores (hvalid.before hpre) fun pre' c hc => hclean pre' c (hc.trans hpre)

end Run

/-- Two items, a third one behind the first, and the second of the three removed. -/
theorem listRun_stores_iff_middle :
    ∃ l, listRun ([.put 10, .put 11, .ins 0 12, .del 1] : List (ListCall ℕ)) = .ok l ∧
      Stores l [10, 11] :=
  (listRun_stores_iff _ (forall_snoc_iff.mpr (by decide))).mpr
    (forall_snoc_iff.mpr (by decide)) _ List.prefix_rfl

/-- The payload behind the last item is lost when `list_put` appends another one. -/
theorem listRun_loses : ¬ ∀ calls : List (ListCall ℕ), Valid calls → ∀ pre, pre <+: calls →
    ∃ l, listRun pre = .ok l ∧ Stores l (ListCall.payloads pre) := by
  intro hall
  let calls : List (ListCall ℕ) := [.put 10, .put 11, .ins 1 12, .put 13]
  obtain ⟨l, hrun, xs, hxs, hpayloads⟩ :=
    hall calls (forall_snoc_iff.mpr (by decide)) calls List.prefix_rfl
  have hitems : (listRun calls).map (fun l => l.items.map Prod.snd) = .ok [10, 11, 13] := by
    decide
  rw [hrun, Except.map, hxs.toLinked.items_eq, hpayloads] at hitems
  cases hitems

end Masala.Container
