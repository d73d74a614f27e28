import Masala.Routing.Narrowing
import Masala.Library.Ensures

/-!
# The fallback of `bckt_find_any_match`

When the best match is empty the search steps on with `list_prev`, which is
NULL for every item. So the fallback only works for a table of one bucket;
with several it follows the NULL item.
-/
namespace Masala.Routing
open Library Container

inductive NbhdOp
  | put (n : Node)
  | del (n : Node)
  | split (fuel : ℕ)

def nbhdStep (node_id : Id) (t : Table) : NbhdOp → Exec Table
  | .put n => bcktPut t n
  | .del n => bcktDel t n
  | .split fuel => nbhdSplit node_id fuel t

/-- Runs from `bckt_init`; `.ok` are those whose calls of `nbhd_split` all end. -/
def nbhdRun (node_id : Id) (ops : List NbhdOp) : Exec Table := do
  let t ← bcktInit
  ops.foldlM (nbhdStep node_id) t

/-- The bucket behind a pointer has nodes. -/
def NonEmptyAt (t : Table) (p : Option Ptr) : Prop :=
  ∃ b, t.item p = .ok b ∧ 0 < b.val.nodes.counter

/-- `bckt_find_any_match` ends without a fault, prefers a best match that has nodes, else finds
another bucket that has nodes, and gives NULL exactly if `nbhd_empty` is true. -/
def FindsAny (t : Table) (id : Id) : Prop :=
  ∃ r, bcktFindAnyMatch t id = .ok r ∧
    (∀ best, bcktFindBestMatch t id = .ok best → NonEmptyAt t best → r = best) ∧
    (r ≠ none → NonEmptyAt t r) ∧ (r = none ↔ nbhdEmpty t = .ok true)

section AnyMatch
variable {t : Table} {cs cs₁ cs₂ : List Cell} {c : Cell} {id : Id}

theorem emptyLoop_eq (h : Sound t) (hc : cells t = cs₁ ++ cs₂) :
    emptyLoop t cs₂.length (headPtr cs₂) = .ok (cs₂.all fun c => c.nodes.isEmpty) := by
  induction cs₂ generalizing cs₁ with
  | nil => rfl
  | cons c cs₂ ih =>
    obtain ⟨b, prev, hitem, -, hholds⟩ := h.item_eq hc
    have hhead : headPtr (c :: cs₂) = some c.ptr := rfl
    have hrest : cells t = (cs₁ ++ [c]) ++ cs₂ := by simp [hc]
    rw [List.length_cons, emptyLoop, hhead, hitem, exec_ok_bind, h.next_eq hc, exec_ok_bind,
      ih hrest, List.all_cons]
    dsimp only
    rw [hholds.counter]
    by_cases hlen : 0 < c.nodes.length
    · have hne : c.nodes.isEmpty = false := by
        rw [List.isEmpty_eq_false_iff]
        exact List.ne_nil_of_length_pos hlen
      rw [if_pos hlen, hne]
      rfl
    · have hnil : c.nodes = [] := List.length_eq_zero_iff.mp (by omega)
      rw [if_neg hlen, hnil]
      rfl

theorem nbhdEmpty_eq (h : Sound t) :
    nbhdEmpty t = .ok ((cells t).all fun c => c.nodes.isEmpty) := by
  have hcount : t.counter = (cells t).length := by rw [h.linked.counter, cells, List.length_map]
  have hstart : t.start = headPtr (cells t) := by rw [h.linked.start, firstPtr_eq_headPtr, cells]
  rw [nbhdEmpty, hcount, hstart]
  exact emptyLoop_eq h (List.nil_append _).symm

theorem bcktFindAnyMatch_full (h : Sound t) (hc : cells t = cs₁ ++ c :: cs₂)
    (hs : select t id = some c.ptr) (hne : c.nodes ≠ []) :
    bcktFindAnyMatch t id = .ok (some c.ptr) := by
  obtain ⟨b, prev, hitem, -, hholds⟩ := h.item_eq hc
  have hpos : 0 < b.nodes.counter := by
    rw [hholds.counter]
    exact List.length_pos_iff.mpr hne
  rw [bcktFindAnyMatch, bcktFindBestMatch_eq h, exec_ok_bind, hs, hitem, exec_ok_bind]
  exact if_pos hpos

/-- The walk over an empty best match: the second round follows NULL. -/
theorem bcktFindAnyMatch_empty (h : Sound t) (hc : cells t = cs₁ ++ c :: cs₂)
    (hs : select t id = some c.ptr) (hnil : c.nodes = []) :
    bcktFindAnyMatch t id = if t.counter = 1 then .ok none else .error .null := by
  obtain ⟨b, prev, hitem, -, hholds⟩ := h.item_eq hc
  have hzero : ¬ b.nodes.counter > 0 := by
    rw [hholds.counter, hnil]
    exact Nat.not_lt_zero 0
  obtain ⟨n, hn⟩ : ∃ n, t.counter = n + 1 := by
    refine ⟨cs₁.length + cs₂.length, ?_⟩
    rw [h.linked.counter, ← List.length_map (f := cellOf), ← cells, hc]
    simp
    omega
  rw [bcktFindAnyMatch, bcktFindBestMatch_eq h, exec_ok_bind, hs, hitem, exec_ok_bind,
    if_neg hzero, hn, findAnyMatchLoop, hitem, exec_ok_bind, if_neg hzero]
  cases n with
  | zero => rfl
  | succ n => rfl

theorem NonEmptyAt.iff (h : Sound t) (hc : cells t = cs₁ ++ c :: cs₂) :
    NonEmptyAt t (some c.ptr) ↔ c.nodes ≠ [] := by
  obtain ⟨b, prev, hitem, -, hholds⟩ := h.item_eq hc
  rw [NonEmptyAt, hitem]
  have hcount := hholds.counter
  constructor
  · rintro ⟨b', hb', hpos⟩
    obtain rfl := Except.ok.inj hb'
    rw [hcount] at hpos
    exact List.ne_nil_of_length_pos hpos
  · intro hne
    exact ⟨_, rfl, hcount ▸ List.length_pos_iff.mpr hne⟩

/-- Exactly when the search does what it is for. -/
theorem Clean.findsAny_iff (h : Clean t cs) (id : Id) :
    FindsAny t id ↔ t.counter = 1 ∨
      ∃ best, bcktFindBestMatch t id = .ok best ∧ NonEmptyAt t best := by
  obtain ⟨cs₁, c, cs₂, ho⟩ := h.1.owner id
  have hs := h.1.select_eq ho
  have hc := h.1.cells_eq ho
  have hsound := h.1.sound
  have hbest := bcktFindBestMatch_eq hsound id
  rw [hs] at hbest
  have hiff := NonEmptyAt.iff hsound hc
  have hempty := nbhdEmpty_eq hsound
  by_cases hne : c.nodes = []
  · have hany := bcktFindAnyMatch_empty hsound hc hs hne
    have hno : ∀ best, bcktFindBestMatch t id = .ok best → ¬ NonEmptyAt t best := by
      intro best hb hn
      obtain rfl := Except.ok.inj (hbest.symm.trans hb)
      exact hiff.mp hn hne
    constructor
    · rintro ⟨r, hr, -⟩
      by_contra hcount
      rw [hany, if_neg fun he => hcount (.inl he)] at hr
      cases hr
    · rintro (hone | ⟨best, hb, hn⟩)
      · rw [if_pos hone] at hany
        refine ⟨none, hany, fun best hb hn => absurd hn (hno best hb), fun hr => absurd rfl hr, ?_⟩
        have hlen : (cells t).length = 1 := by
          rw [cells, List.length_map, ← hsound.linked.counter, hone]
        obtain ⟨d, hd⟩ := List.length_eq_one_iff.mp hlen
        have hcd : c ∈ [d] := hd ▸ hc ▸ by simp
        obtain rfl := List.mem_singleton.mp hcd
        simp [hempty, hd, hne]
      · exact absurd hn (hno best hb)
  · have hany := bcktFindAnyMatch_full hsound hc hs hne
    constructor
    · intro _
      exact .inr ⟨_, hbest, hiff.mpr hne⟩
    · intro _
      refine ⟨_, hany, fun best hb _ => ?_, fun _ => hiff.mpr hne, ?_⟩
      · exact Except.ok.inj (hbest.symm.trans hb)
      · have hfull : (cells t).all (fun c => c.nodes.isEmpty) = false := by
          rw [List.all_eq_false]
          exact ⟨c, by simp [hc], by simpa using hne⟩
        simp [hempty, hfull]

theorem Clean.step (h : Clean t cs) (node_id : Id) (op : NbhdOp) {t' : Table}
    (hstep : nbhdStep node_id t op = .ok t') : ∃ cs', Clean t' cs' := by
  cases op with
  | put n =>
    obtain ⟨t₁, cs₁, hput, h₁⟩ := h.put n
    obtain rfl := Except.ok.inj (hput.symm.trans hstep)
    exact ⟨cs₁, h₁⟩
  | del n =>
    obtain ⟨t₁, cs₁, hdel, h₁⟩ := h.del n
    obtain rfl := Except.ok.inj (hdel.symm.trans hstep)
    exact ⟨cs₁, h₁⟩
  | split fuel => exact h.nbhdSplit hstep

theorem nbhdRun_clean (node_id : Id) (ops : List NbhdOp) (hrun : nbhdRun node_id ops = .ok t) :
    ∃ cs, Clean t cs := by
  obtain ⟨t₀, cs, hinit, h⟩ := bcktInit_clean
  rw [nbhdRun, hinit, exec_ok_bind] at hrun
  have hall : Ensures (ops.foldlM (nbhdStep node_id) t₀) fun t => ∃ cs, Clean t cs := by
    refine ensures_foldlM ?_ ⟨cs, h⟩ ops
    rintro t op ⟨cs, h⟩ t' hstep
    exact h.step node_id op hstep
  exact hall t hrun

end AnyMatch

/-- In every table of a run the search works exactly if the best match has nodes or is the only
bucket. -/
theorem nbhdRun_findsAny_iff (node_id : Id) (ops : List NbhdOp) (t : Table)
    (hrun : nbhdRun node_id ops = .ok t) (id : Id) :
    FindsAny t id ↔ t.counter = 1 ∨
      ∃ best, bcktFindBestMatch t id = .ok best ∧ NonEmptyAt t best := by
  obtain ⟨cs, h⟩ := nbhdRun_clean node_id ops hrun
  exact h.findsAny_iff id

/-- Nine nodes in the lower half of the id space, eight of them in its upper half, and the splits
for an own id of zero. -/
def lopsidedOps : List NbhdOp :=
  [0x01, 0x41, 0x42, 0x43, 0x44, 0x45, 0x46, 0x47, 0x48].map (fun c => .put (newNode (headId c))) ++
    [.split 161]

theorem nbhdRun_findsAny_iff_lopsided :
    ∃ t, nbhdRun (headId 0) lopsidedOps = .ok t ∧ FindsAny t (headId 0x40) := by
  have hfull : (do
      let t ← nbhdRun (headId 0) lopsidedOps
      let best ← bcktFindBestMatch t (headId 0x40)
      let b ← t.item best
      return b.val.nodes.counter) = .ok 8 := by rfl
  obtain ⟨t, hrun, hbest⟩ := exec_bind_eq_ok.mp hfull
  obtain ⟨best, hbest, hitem⟩ := exec_bind_eq_ok.mp hbest
  obtain ⟨b, hitem, hcount⟩ := exec_bind_eq_ok.mp hitem
  have hpos : 0 < b.val.nodes.counter := by
    rw [Except.ok.inj hcount]
    omega
  exact ⟨t, hrun, (nbhdRun_findsAny_iff _ _ t hrun _).mpr (.inr ⟨best, hbest, b, hitem, hpos⟩)⟩

/-- The upper half of the id space is empty there, and a search in it follows NULL. -/
theorem bcktFindAnyMatch_null :
    ¬ ∀ node_id ops t id, nbhdRun node_id ops = .ok t → FindsAny t id := by
  intro hall
  have hnull : (do
      let t ← nbhdRun (headId 0) lopsidedOps
      return bcktFindAnyMatch t (headId 0x80)) = .ok (.error .null) := by rfl
  obtain ⟨t, hrun, hany⟩ := exec_bind_eq_ok.mp hnull
  obtain ⟨r, hr, -⟩ := hall _ _ t (headId 0x80) hrun
  rw [Except.ok.inj hany] at hr
  cases hr

end Masala.Routing
