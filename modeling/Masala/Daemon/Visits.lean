import Masala.Daemon.Deeds

/-!
# Walks over the table

`nbhd_ping` and `nbhd_find` send and assign while they walk over buckets and
nodes. Neither moves a node, so a walk finds its way by addresses alone, and
what it does is one step of the machine for each node that is due.
-/
namespace Masala.Daemon
open Library Container Bencode Routing Session

/-! ## Walks over a bucket -/

/-- The bucket at `b` has the nodes at the addresses `qs` in front of a walk. -/
def StandsAt (t : Table) (b : Ptr) (qs : List Ptr) : Prop :=
  ∃ c ∈ cells t, c.ptr = b ∧ ∃ ps, c.nodes.map Prod.fst = ps ++ qs

section Walk
variable {t t' : Table} {b q : Ptr} {qs : List Ptr}

theorem StandsAt.retouched (h : StandsAt t b qs) (ht : Retouched t t') : StandsAt t' b qs := by
  obtain ⟨c, hc, rfl, ps, hps⟩ := h
  obtain ⟨c', hc', ho⟩ := exists_outline ht.outline.symm hc
  have hptrs : ∀ c : Cell, c.nodes.map Prod.fst = c.outline.2.2.map Prod.fst := by
    intro c
    rw [Cell.outline, List.map_map]
    rfl
  refine ⟨c', hc', congrArg Prod.fst ho, ps, ?_⟩
  rw [hptrs, ho, ← hptrs, hps]

/-- What the walk reads at its next node. -/
theorem StandsAt.read (h : StandsAt t b (q :: qs)) (hs : Sound t) :
    ∃ it n, t.item (some b) = .ok it ∧ it.val.nodes.item (some q) = .ok n ∧
      listNext it.val.nodes (some q) = .ok qs.head? ∧ StandsAt t b qs ∧
      ∃ c ∈ cells t, c.ptr = b ∧ (q, n.val) ∈ c.nodes := by
  obtain ⟨c, hc, rfl, ps, hps⟩ := h
  obtain ⟨cs₁, cs₂, hcells⟩ := List.append_of_mem hc
  obtain ⟨it, prev, hitem, -, hholds⟩ := hs.item_eq hcells
  obtain ⟨ys, zs, hnodes, hys, hzs⟩ := List.map_eq_append_iff.mp hps
  cases zs with
  | nil => cases hzs
  | cons x zs =>
    obtain ⟨p, n⟩ := x
    obtain ⟨rfl, rfl⟩ := List.cons.inj hzs
    rw [hnodes] at hholds
    refine ⟨_, _, hitem, hholds.item_eq, ?_, ?_, c, hc, rfl, by simp [hnodes]⟩
    · rw [hholds.next_eq]
      cases zs <;> rfl
    · exact ⟨c, hc, rfl, ps ++ [p], by rw [hps]; simp⟩

theorem standsAt_start {cs₁ cs₂ : List Cell} {c : Cell} (hs : Sound t)
    (hc : cells t = cs₁ ++ c :: cs₂) : ∃ it, t.item (some c.ptr) = .ok it ∧
      it.val.nodes.counter = (c.nodes.map Prod.fst).length ∧
      it.val.nodes.start = (c.nodes.map Prod.fst).head? ∧
      StandsAt t c.ptr (c.nodes.map Prod.fst) := by
  obtain ⟨it, prev, hitem, -, hholds⟩ := hs.item_eq hc
  refine ⟨_, hitem, ?_, ?_, c, by simp [hc], rfl, [], rfl⟩
  · rw [hholds.counter, List.length_map]
  · rw [hholds.start]
    cases c.nodes <;> rfl

end Walk

/-! ## The neighbourhood -/

section Neighborhood
variable {m : Main} {allowed : Act → Prop}

theorem aside_does {x : Exec Main} (h : Ensures x (Aside m)) (ha : allowed .aside) :
    Ensures x (Does allowed m) := h.mono fun _ h => .single (.aside h) ha

/-- Behind the node at `q` the walks go on the same way. -/
theorem walk_next {b q : Ptr} {qs : List Ptr} {walk : Option Ptr → Main → Exec Main}
    {Q : Main → Prop} (hm : InOrder m) (h : StandsAt m.nbhd b (q :: qs))
    (hwalk : StandsAt m.nbhd b qs → Ensures (walk qs.head? m) Q) : Ensures (do
      let it ← m.nbhd.item (some b)
      let item_n ← listNext it.val.nodes (some q)
      walk item_n m) Q := by
  obtain ⟨cs, ds, hr⟩ := hm.routed
  obtain ⟨it, n, hitem, -, hnext, hrest, -⟩ := h.read hr.sound
  rw [hitem, exec_ok_bind, hnext, exec_ok_bind]
  exact hwalk hrest

/-- The walk of `nbhd_ping` over the nodes at `qs`. -/
theorem pingNodes_does (ha : allowed .aside) (hp : ∀ id, allowed (.nbhdPinged id)) (b : Ptr)
    (qs : List Ptr) (j : ℕ) (hm : InOrder m) (h : StandsAt m.nbhd b qs) :
    Ensures (pingNodes (some b) qs.length j qs.head? m) fun m' =>
      Does allowed m m' ∧ Retouched m.nbhd m'.nbhd := by
  induction qs generalizing j m with
  | nil =>
    obtain ⟨cs, ds, hr⟩ := hm.routed
    exact ensures_ok.mpr ⟨.refl m, .refl hr.sound⟩
  | cons q qs ih =>
    obtain ⟨cs, ds, hr⟩ := hm.routed
    obtain ⟨it, n, hitem, hn, -, -, c, hc, -, hqn⟩ := h.read hr.sound
    have hmem : n.val ∈ allNodes m.nbhd := mem_allNodes.mpr ⟨c, hc, List.mem_map_of_mem hqn⟩
    rw [List.length_cons, List.head?_cons, pingNodes, hitem, exec_ok_bind, hn, exec_ok_bind]
    refine ensures_ite (fun hdue => ?_) fun _ => walk_next hm h (ih (j + 1) hm)
    -- the node is counted as pinged after something aside
    have hpinged : ∀ m₁, Aside m m₁ → Ensures (nbhdPinged n.val.id m₁) fun m₂ =>
        Does allowed m m₂ ∧ Retouched m.nbhd m₂.nbhd := by
      intro m₁ h₁ m₂ h₂
      have hm₁ := h₁.quiet.moved.inOrder hm
      have hdeed : Deed m₁ (.nbhdPinged n.val.id) m₂ :=
        .nbhdPinged (by rwa [h₁.nbhd]) (by rwa [h₁.clock]) h₂
      have ht := (nbhdPinged_retouched hm₁ _ m₂ h₂).2
      rw [h₁.nbhd] at ht
      exact ⟨(Does.single (.aside h₁) ha).trans (.single hdeed (hp _)), ht⟩
    have hrest : ∀ m₂, Does allowed m m₂ ∧ Retouched m.nbhd m₂.nbhd → Ensures (do
        let it ← m₂.nbhd.item (some b)
        let item_n ← listNext it.val.nodes (some q)
        pingNodes (some b) qs.length (j + 1) item_n m₂) fun m' =>
          Does allowed m m' ∧ Retouched m.nbhd m'.nbhd := by
      rintro m₂ ⟨hd, ht⟩
      have hm₂ := (hd.moved hm).inOrder hm
      refine walk_next hm₂ (h.retouched ht) fun hqs => (ih (j + 1) hm₂ hqs).mono ?_
      exact fun m' h' => ⟨hd.trans h'.1, ht.trans h'.2⟩
    refine ensures_ite (fun _ => ?_) fun _ => ?_
    · exact (sendPing_aside _ m SEND_UNICAST).bind fun m₁ h₁ => (hpinged m₁ h₁).bind hrest
    · exact (hpinged m (.refl m)).bind hrest

/-- The walk of `nbhd_ping` over the buckets at `ps`. -/
theorem pingBuckets_does (ha : allowed .aside) (hp : ∀ id, allowed (.nbhdPinged id))
    (os ps : List Ptr) (hm : InOrder m) (h : (cells m.nbhd).map Cell.ptr = os ++ ps) :
    Ensures (pingBuckets ps.length ps.head? m) (Does allowed m) := by
  induction ps generalizing os m with
  | nil => exact ensures_ok.mpr (.refl m)
  | cons p ps ih =>
    obtain ⟨cs, ds, hr⟩ := hm.routed
    obtain ⟨cs₁, cs', hcells, hos, hps⟩ := List.map_eq_append_iff.mp h
    obtain ⟨c, cs₂, rfl, rfl, -⟩ := List.map_eq_cons_iff.mp hps
    obtain ⟨it, hitem, hcounter, hstart, hstands⟩ := standsAt_start hr.sound hcells
    rw [List.length_cons, List.head?_cons, pingBuckets, hitem, exec_ok_bind, hcounter, hstart]
    refine (pingNodes_does ha hp _ _ 0 hm hstands).bind fun m' hm' => ?_
    obtain ⟨hd, ht⟩ := hm'
    have hm₁ := (hd.moved hm).inOrder hm
    obtain ⟨cs₁', cs', hcells', hos', hps'⟩ := List.map_eq_append_iff.mp (ht.ptrs.trans h)
    obtain ⟨c', cs₂', rfl, hptr, rfl⟩ := List.map_eq_cons_iff.mp hps'
    have hnext := ht.sound.next_eq hcells'
    rw [hptr] at hnext
    rw [hnext, exec_ok_bind, headPtr, ← List.head?_map]
    have hsnoc : (cells m'.nbhd).map Cell.ptr = (os ++ [c.ptr]) ++ cs₂'.map Cell.ptr := by
      rw [ht.ptrs, h, List.append_cons]
    exact (ih _ hm₁ hsnoc).mono fun _ h' => hd.trans h'

theorem nbhdPing_does (ha : allowed .aside) (hp : ∀ id, allowed (.nbhdPinged id)) (hm : InOrder m) :
    Ensures (nbhdPing m) (Does allowed m) := by
  obtain ⟨cs, ds, hr⟩ := hm.routed
  have hcount : m.nbhd.counter = ((cells m.nbhd).map Cell.ptr).length := by
    rw [hr.sound.linked.counter, cells, List.length_map, List.length_map]
  have hstart : m.nbhd.start = ((cells m.nbhd).map Cell.ptr).head? := by
    rw [hr.sound.linked.start, firstPtr_eq_headPtr, headPtr, ← cells, List.head?_map]
  rw [nbhdPing, hcount, hstart]
  exact pingBuckets_does ha hp [] _ hm (List.nil_append _).symm

/-- The walk of `nbhd_find` over the nodes at `qs`. -/
theorem findNodes_does (ha : allowed .aside) (hf : allowed .nbhdFind) (find_id : Id) (b : Ptr)
    (qs : List Ptr) (hm : InOrder m) (h : StandsAt m.nbhd b qs) :
    Ensures (findNodes find_id (some b) qs.length qs.head? m) (Does allowed m) := by
  induction qs generalizing m with
  | nil => exact ensures_ok.mpr (.refl m)
  | cons q qs ih =>
    obtain ⟨cs, ds, hr⟩ := hm.routed
    obtain ⟨it, n, hitem, hn, -, -, c, hc, rfl, hqn⟩ := h.read hr.sound
    rw [List.length_cons, List.head?_cons, findNodes, hitem, exec_ok_bind, hn, exec_ok_bind]
    refine ensures_ite (fun hdue => ?_) fun _ => walk_next hm h (ih hm)
    refine (sendFind_aside n.val.c_addr m find_id).bind fun m₁ h₁ => ?_
    have hc₁ : c ∈ cells m₁.nbhd := by rwa [h₁.nbhd]
    have hm₁ := h₁.quiet.moved.inOrder hm
    let m₂ : Main := { m₁ with draws := m₁.draws + 1 }
    let f : Routing.Node → Routing.Node := fun n => { n with time_find := (timeAdd5MinApprox m₁).1 }
    have hset : Ensures (m₂.nbhd.setNode (some c.ptr) (some q) f) fun nbhd =>
        Does allowed m { m₂ with nbhd := nbhd } ∧ Retouched m.nbhd nbhd := by
      intro nbhd ht
      have h₂ : Aside m m₂ := h₁.trans ⟨rfl, rfl, rfl, rfl, rfl, rfl⟩
      have hdeed : Deed m₂ .nbhdFind { m₂ with nbhd := nbhd } := .nbhdFind hc₁ hqn ht
      have hretouched := hm₁.retouched hc₁ hqn ht fun _ => rfl
      rw [h₁.nbhd] at hretouched
      exact ⟨(Does.single (.aside h₂) ha).trans (.single hdeed hf), hretouched⟩
    refine hset.bind fun nbhd ht => ?_
    obtain ⟨hd, ht⟩ := ht
    have hm₃ := (hd.moved hm).inOrder hm
    refine walk_next hm₃ (h.retouched ht) fun hqs => (ih hm₃ hqs).mono fun _ h' => hd.trans h'

theorem nbhdFind_does (ha : allowed .aside) (hf : allowed .nbhdFind) (find_id : Id)
    (hm : InOrder m) : Ensures (nbhdFind find_id m) (Does allowed m) := by
  obtain ⟨cs, ds, hr⟩ := hm.routed
  refine (hr.findAny find_id).bind fun r hr' => ?_
  cases r with
  | none => exact ensures_ok.mpr (.refl m)
  | some item_b =>
    obtain ⟨cs₁, c, cs₂, hcells, rfl, -⟩ := hr' item_b rfl
    obtain ⟨it, hitem, hcounter, hstart, hstands⟩ := standsAt_start hr.sound hcells
    dsimp only
    rw [hitem, exec_ok_bind, hcounter, hstart]
    exact findNodes_does ha hf find_id _ _ hm hstands

theorem nbhdFindRandom_does (ha : allowed .aside) (hf : allowed .nbhdFind) (hm : InOrder m) :
    Ensures (nbhdFindRandom m) (Does allowed m) := by
  refine (randUrandom_aside m).bind fun r hr => ?_
  have hm' := hr.quiet.moved.inOrder hm
  exact (nbhdFind_does ha hf r.1 hm').mono fun _ h => (Does.single (.aside hr) ha).trans h

end Neighborhood
end Masala.Daemon
