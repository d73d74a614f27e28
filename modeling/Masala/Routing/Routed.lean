import Masala.Routing.Grid

/-!
# The table invariant

Every function of the table keeps three facts: the live buckets tile the id
space, each node is in the bucket that a search finds for it, and no bucket has
two nodes with one id. Each of them holds after `bckt_init`.
-/
namespace Masala.Routing
open Library Container

/-- The ids of the nodes of a cell. -/
def Cell.ids (c : Cell) : List Id := c.nodes.map fun x => x.2.id

structure Routed (t : Table) (cs ds : List Cell) : Prop extends Shaped t cs ds where
  placed : Placed t
  unique : ∀ c ∈ cs ++ ds, c.ids.Nodup

/-- All nodes of a table, bucket by bucket. -/
def allNodes (t : Table) : List Node := (cells t).flatMap fun c => c.nodes.map Prod.snd

theorem bcktInit_routed : ∃ t, bcktInit = .ok t ∧
    Routed t [⟨0, Octets.replicate SHA_DIGEST_LENGTH 0, []⟩] [] := by
  obtain ⟨t, hput, hholds⟩ := (holds_init : Holds (listInit : Table) []).put
    ⟨Octets.replicate SHA_DIGEST_LENGTH 0, listInit⟩
  have hcell : cellOf (0, ⟨Octets.replicate SHA_DIGEST_LENGTH 0, listInit⟩) =
      ⟨0, Octets.replicate SHA_DIGEST_LENGTH 0, []⟩ := by
    rw [cellOf, holds_init.items_eq]
  have hcells : cells t = [⟨0, Octets.replicate SHA_DIGEST_LENGTH 0, []⟩] := by
    rw [cells, hholds.items_eq, List.nil_append, List.map_singleton]
    exact congrArg (fun c => [c]) hcell
  have hzero : (Octets.replicate SHA_DIGEST_LENGTH 0).val = 0 := beNat_zeros _
  refine ⟨t, by rw [bcktInit, hput]; rfl, ⟨?_, hcells, ?_⟩, ?_, ?_⟩
  · exact Sound.of_linked hholds.toLinked (by simpa using ⟨[], holds_init⟩)
  · refine ⟨by simp, hzero, ⟨⟨160, ?_, ?_⟩, trivial⟩, hholds.stop, by simp⟩
    · simp [nextStart, Cell.slot, hzero]
    · simp [Cell.slot, hzero]
  · simp [Placed, hcells]
  · simp [Cell.ids]

section Steps
variable {t : Table} {cs ds cs₁ cs₂ : List Cell} {c : Cell}

/-- Changing the nodes of one cell keeps the shape. -/
theorem Shaped.replace (h : Shaped t (cs₁ ++ c :: cs₂) ds) {t' : Table} {ms : List (Ptr × Node)}
    (hs : Sound t') (hstop : t'.stop = t.stop)
    (hcells : cells t' = cs₁ ++ { c with nodes := ms } :: (cs₂ ++ ds)) :
    Shaped t' (cs₁ ++ { c with nodes := ms } :: cs₂) ds ∧ select t' = select t := by
  have hslots : slots (cs₁ ++ { c with nodes := ms } :: cs₂) = slots (cs₁ ++ c :: cs₂) := by
    simp [Cell.slot]
  refine ⟨⟨hs, by simp [hcells], ?_⟩, select_congr hstop ?_⟩
  · rw [hstop, hslots]
    exact h.grid
  · rw [hcells, h.parts]
    simp [Cell.slot]

/-- The invariant when the nodes of one cell change to nodes that belong there. -/
theorem Routed.replace (h : Routed t (cs₁ ++ c :: cs₂) ds) {t' : Table} {ms : List (Ptr × Node)}
    (hs : Sound t') (hstop : t'.stop = t.stop)
    (hcells : cells t' = cs₁ ++ { c with nodes := ms } :: (cs₂ ++ ds))
    (hplaced : ∀ x ∈ ms, select t x.2.id = some c.ptr) (hunique : (ms.map fun x => x.2.id).Nodup) :
    Routed t' (cs₁ ++ { c with nodes := ms } :: cs₂) ds := by
  obtain ⟨hshape, hsel⟩ := h.toShaped.replace hs hstop hcells
  have hmem : ∀ e, e ∈ cs₁ ++ (cs₂ ++ ds) → e ∈ cs₁ ++ c :: cs₂ ++ ds := by
    intro e he
    simp at he ⊢
    tauto
  refine ⟨hshape, fun e he => ?_, fun e he => ?_⟩
  · rw [hsel]
    rw [hcells, List.mem_append, List.mem_cons] at he
    rcases he with he | rfl | he
    · exact h.placed e (h.parts ▸ hmem e (List.mem_append_left _ he))
    · exact hplaced
    · exact h.placed e (h.parts ▸ hmem e (List.mem_append_right _ he))
  · rw [List.append_assoc, List.cons_append, List.mem_append, List.mem_cons] at he
    rcases he with he | rfl | he
    · exact h.unique e (hmem e (List.mem_append_left _ he))
    · exact hunique
    · exact h.unique e (hmem e (List.mem_append_right _ he))

/-- `bckt_put` stores a node with a new id at the end of the bucket that owns the id. -/
theorem Routed.put (h : Routed t cs ds) (n : Node) :
    ∃ cs₁ c cs₂, Owns cs cs₁ c cs₂ n.id ∧
      ((n.id ∈ c.ids ∧ bcktPut t n = .ok t) ∨
        (n.id ∉ c.ids ∧ ∃ t' p, bcktPut t n = .ok t' ∧
          Routed t' (cs₁ ++ { c with nodes := c.nodes ++ [(p, n)] } :: cs₂) ds)) := by
  obtain ⟨cs₁, c, cs₂, ho⟩ := h.owner n.id
  have hsel := h.select_eq ho
  have hcells := h.cells_eq ho
  obtain rfl := ho.split
  refine ⟨cs₁, c, cs₂, ho, ?_⟩
  by_cases hn : n.id ∈ c.ids
  · refine .inl ⟨hn, h.sound.put_known hsel hcells ?_⟩
    obtain ⟨x, hx, he⟩ := List.mem_map.mp hn
    exact ⟨x, hx, he⟩
  · have hne : ∀ x ∈ c.nodes, x.2.id ≠ n.id := fun x hx he => hn (List.mem_map.mpr ⟨x, hx, he⟩)
    obtain ⟨t', p, hput, hs, hstop, hcells'⟩ := h.sound.put_new hsel hcells hne
    refine .inr ⟨hn, t', p, hput, h.replace hs hstop hcells' ?_ ?_⟩
    · intro x hx
      rcases List.mem_append.mp hx with hx | hx
      · exact h.placed c (by simp [hcells]) x hx
      · rw [List.mem_singleton.mp hx]
        exact hsel
    · rw [List.map_append, List.nodup_append]
      refine ⟨h.unique c (by simp), by simp, ?_⟩
      intro a ha b hb
      obtain ⟨x, hx, rfl⟩ := List.mem_map.mp ha
      simp only [List.map_cons, List.map_nil, List.mem_singleton] at hb
      rw [hb]
      exact hne x hx

/-- `bckt_del` removes the node with this id from the bucket that owns the id. -/
theorem Routed.del (h : Routed t cs ds) (n : Node) :
    ∃ cs₁ c cs₂, Owns cs cs₁ c cs₂ n.id ∧
      ((n.id ∉ c.ids ∧ bcktDel t n = .ok t) ∨
        ∃ ms₁ x ms₂ t', c.nodes = ms₁ ++ x :: ms₂ ∧ x.2.id = n.id ∧ bcktDel t n = .ok t' ∧
          Routed t' (cs₁ ++ { c with nodes := ms₁ ++ ms₂ } :: cs₂) ds) := by
  obtain ⟨cs₁, c, cs₂, ho⟩ := h.owner n.id
  have hsel := h.select_eq ho
  have hcells := h.cells_eq ho
  obtain rfl := ho.split
  refine ⟨cs₁, c, cs₂, ho, ?_⟩
  by_cases hn : n.id ∈ c.ids
  · obtain ⟨x, hx, he⟩ := List.mem_map.mp hn
    obtain ⟨ms₁, ms₂, hms⟩ := List.append_of_mem hx
    have huniq := h.unique c (by simp)
    rw [Cell.ids, hms, List.map_append, List.map_cons] at huniq
    have hne : ∀ y ∈ ms₁, y.2.id ≠ n.id := by
      intro y hy hyn
      exact (List.nodup_append.mp huniq).2.2 _ (List.mem_map_of_mem hy) x.2.id (by simp)
        (hyn.trans he.symm)
    obtain ⟨t', hdel, hs, hstop, hcells'⟩ := h.sound.del_known hsel hcells hms he hne
    refine .inr ⟨ms₁, x, ms₂, t', hms, he, hdel, h.replace hs hstop hcells' ?_ ?_⟩
    · intro y hy
      refine h.placed c (by simp [hcells]) y ?_
      rw [hms]
      simp at hy ⊢
      tauto
    · rw [List.nodup_middle, ← List.map_append] at huniq
      exact (List.nodup_cons.mp huniq).2
  · refine .inl ⟨hn, h.sound.del_unknown hsel hcells fun x hx he => hn ?_⟩
    exact List.mem_map.mpr ⟨x, hx, he⟩

/-- Buckets other than the split one keep their ids. -/
theorem Shaped.select_other (h : Shaped t (cs₁ ++ c :: cs₂) ds) {t' : Table} {new ds' : List Cell}
    (h' : Shaped t' (cs₁ ++ (new ++ cs₂)) ds') (hnew : ∀ d ∈ new, c.id.val ≤ d.id.val) {e : Cell}
    (he : e ∈ cs₁ ++ cs₂) {id : Id} (hs : select t id = some e.ptr) :
    select t' id = some e.ptr := by
  rcases List.mem_append.mp he with he | he
  · obtain ⟨as, bs, rfl⟩ := List.append_of_mem he
    have ho : Owns ((as ++ e :: bs) ++ c :: cs₂) as e (bs ++ c :: cs₂) id := by
      have hsplit : (as ++ e :: bs) ++ c :: cs₂ = as ++ e :: (bs ++ c :: cs₂) := by simp
      rw [hsplit] at h ⊢
      exact h.owns_at hs
    have hlt : ∀ d ∈ bs ++ (new ++ cs₂), id.val < d.id.val := by
      intro d hd
      rw [List.mem_append, List.mem_append] at hd
      rcases hd with hd | hd | hd
      · exact ho.lt d (by simp [hd])
      · exact (ho.lt c (by simp)).trans_le (hnew d hd)
      · exact ho.lt d (by simp [hd])
    have ho' : Owns (as ++ e :: bs ++ (new ++ cs₂)) as e (bs ++ (new ++ cs₂)) id :=
      ⟨by simp, ho.le, hlt⟩
    exact h'.select_eq ho'
  · obtain ⟨as, bs, rfl⟩ := List.append_of_mem he
    have ho : Owns (cs₁ ++ c :: (as ++ e :: bs)) (cs₁ ++ c :: as) e bs id := by
      have hsplit : cs₁ ++ c :: (as ++ e :: bs) = (cs₁ ++ c :: as) ++ e :: bs := by simp
      rw [hsplit] at h ⊢
      exact h.owns_at hs
    have ho' : Owns (cs₁ ++ (new ++ (as ++ e :: bs))) (cs₁ ++ (new ++ as)) e bs id :=
      ⟨by simp, ho.le, ho.lt⟩
    exact h'.select_eq ho'

/-- A bucket of more than one node with different ids is larger than one id. -/
theorem Routed.block_succ (h : Routed t (cs₁ ++ c :: cs₂) ds) (hlen : 1 < c.nodes.length) :
    ∃ k, Block (k + 1) c.id.val (endOf cs₂) := by
  obtain ⟨k, hk⟩ := h.block
  cases k with
  | succ k => exact ⟨k, hk⟩
  | zero =>
    have hone : ∀ x ∈ c.nodes, x.2.id = c.id := by
      intro x hx
      have ho := h.owns_at (h.placed c (by simp [h.parts]) x hx)
      have hlt := ho.lt_end
      rw [hk.1, pow_zero] at hlt
      exact Octets.val_injective.mp (Nat.le_antisymm (Nat.le_of_lt_succ hlt) ho.le)
    have hids : c.ids = List.replicate c.nodes.length c.id := by
      rw [Cell.ids, List.eq_replicate_iff]
      refine ⟨by simp, fun i hi => ?_⟩
      obtain ⟨x, hx, rfl⟩ := List.mem_map.mp hi
      exact hone x hx
    have huniq := h.unique c (by simp)
    rw [hids, List.nodup_replicate] at huniq
    exact absurd hlen (Nat.not_lt.mpr huniq)

theorem Dealt.nodup {c' d' : Cell} (h : Dealt c c' d') (hn : c.ids.Nodup) :
    c'.ids.Nodup ∧ d'.ids.Nodup := by
  have hperm := h.nodes.map Node.id
  rw [List.map_append, List.map_map, List.map_map, List.map_map] at hperm
  have hnodup := List.nodup_append.mp (hperm.nodup_iff.mpr hn)
  exact ⟨hnodup.1, hnodup.2.1⟩

/-- The nodes of the other buckets stay selected, since the new ones begin inside of `c`. -/
theorem Routed.placed_split (h : Routed t (cs₁ ++ c :: cs₂) ds) {t' : Table} {c' d' : Cell}
    (new : List Cell) {ds' : List Cell}
    (hcells' : cells t' = cs₁ ++ c' :: d' :: (cs₂ ++ ds))
    (h' : Shaped t' (cs₁ ++ (new ++ cs₂)) ds') (hle : ∀ e ∈ new, c.id.val ≤ e.id.val)
    (hnew : ∀ e, e = c' ∨ e = d' → ∀ x ∈ e.nodes, select t' x.2.id = some e.ptr) :
    Placed t' := by
  intro e he x hx
  have hold : e ∈ cs₁ ++ cs₂ → select t' x.2.id = some e.ptr := by
    intro hmem
    refine h.select_other h' hle hmem (h.placed e ?_ x hx)
    rw [h.parts]
    simp only [List.mem_append, List.mem_cons] at hmem ⊢
    tauto
  rw [hcells', List.mem_append, List.mem_cons, List.mem_cons, List.mem_append] at he
  rcases he with he | he | he | he | he
  · exact hold (List.mem_append_left _ he)
  · exact hnew e (.inl he) x hx
  · exact hnew e (.inr he) x hx
  · exact hold (List.mem_append_right _ he)
  · rw [h.dead_nodes h.placed e he] at hx
    cases hx

/-- `bckt_split` halves the bucket that owns the id once it has more than eight nodes. -/
theorem Routed.split (h : Routed t (cs₁ ++ c :: cs₂) ds) {own : Id}
    (hsel : select t own = some c.ptr) :
    (c.nodes.length ≤ 8 ∧ bcktSplit t own = .ok (t, false)) ∨
      (8 < c.nodes.length ∧ ∃ t' c' d' k, bcktSplit t own = .ok (t', true) ∧ Dealt c c' d' ∧
        Block (k + 1) c.id.val (endOf cs₂) ∧ d'.id.val = c.id.val + 2 ^ k ∧
        cells t' = cs₁ ++ c' :: d' :: (cs₂ ++ ds) ∧
        (Stalls cs₁ cs₂ ds → d'.nodes = [] ∧ Routed t' (cs₁ ++ [c']) (d' :: ds)) ∧
        (¬ Stalls cs₁ cs₂ ds → Routed t' (cs₁ ++ c' :: d' :: cs₂) ds)) := by
  have hcells : cells t = cs₁ ++ c :: (cs₂ ++ ds) := by simp [h.parts]
  by_cases hlen : c.nodes.length ≤ 8
  · exact .inl ⟨hlen, bcktSplit_small h.sound hcells hsel hlen⟩
  have hlen' : 8 < c.nodes.length := Nat.lt_of_not_le hlen
  obtain ⟨k, hk⟩ := h.block_succ (by omega)
  obtain ⟨t', c', d', hsplit, hdealt, hd, hcells', hstall, hlive, hnew⟩ :=
    h.split_full h.placed hsel hlen' hk
  have hids := hdealt.nodup (h.unique c (by simp))
  have hunique : ∀ e ∈ cs₁ ++ c' :: d' :: (cs₂ ++ ds), e.ids.Nodup := by
    have hold := h.unique
    rw [List.append_assoc, List.cons_append, List.forall_mem_append, List.forall_mem_cons] at hold
    rw [List.forall_mem_append, List.forall_mem_cons, List.forall_mem_cons]
    exact ⟨hold.1, hids.1, hids.2, hold.2.2⟩
  have hlec : c.id.val ≤ c'.id.val := by rw [hdealt.id]
  have hled : c.id.val ≤ d'.id.val := by
    rw [hd]
    exact Nat.le_add_right _ _
  refine .inr ⟨hlen', t', c', d', k, hsplit, hdealt, hk, hd, hcells', ?_, ?_⟩
  · intro hst
    obtain ⟨hempty, hshape⟩ := hstall hst
    obtain ⟨rfl, -⟩ := id hst
    have hplaced : Placed t' :=
      h.placed_split [c'] hcells' hshape (by simpa using hlec) hnew
    refine ⟨hempty, hshape, hplaced, fun e he => hunique e ?_⟩
    simpa using he
  · intro hns
    have hshape := hlive hns
    have hplaced : Placed t' :=
      h.placed_split [c', d'] hcells' hshape (by simpa using ⟨hlec, hled⟩) hnew
    refine ⟨hshape, hplaced, fun e he => hunique e ?_⟩
    simpa using he

end Steps
end Masala.Routing
