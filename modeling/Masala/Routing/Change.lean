import Masala.Routing.Narrowing
import Masala.Library.Ensures
import Mathlib.Logic.Relation

/-!
# The table as a machine

What any function of a node does to its table is a sequence of four kinds of
changes: a node is put, a node is deleted, fields of nodes other than the id
are assigned, or `nbhd_split` runs to its end. The table invariants hold along
all such sequences.
-/
namespace Masala.Routing
open Library Container

/-- Addresses and ids of a cell and its nodes. -/
def Cell.outline (c : Cell) : Ptr × Id × List (Ptr × Id) :=
  (c.ptr, c.id, c.nodes.map fun x => (x.1, x.2.id))

/-- The second table has the same buckets and nodes, up to the other fields of the nodes. -/
structure Retouched (t t' : Table) : Prop where
  sound : Sound t'
  stop : t'.stop = t.stop
  outline : (cells t').map Cell.outline = (cells t).map Cell.outline

inductive Change (own : Id) (t t' : Table) : Prop
  | put (n : Node) (hn : n.id ≠ own) (h : bcktPut t n = .ok t')
  | del (n : Node) (h : bcktDel t n = .ok t')
  | retouch (h : Retouched t t')
  | split (fuel : ℕ) (h : nbhdSplit own fuel t = .ok t')

abbrev Changes (own : Id) : Table → Table → Prop := Relation.ReflTransGen (Change own)

/-- The invariant of the table of a node, which never stores the node's own id. -/
structure Ordered (own : Id) (t : Table) : Prop where
  routed : ∃ cs ds, Routed t cs ds
  foreign : ∀ n ∈ allNodes t, n.id ≠ own

/-! ## Fields of nodes -/

section Retouched
variable {t t' : Table} {cs ds cs' ds' : List Cell}

theorem Retouched.refl (h : Sound t) : Retouched t t := ⟨h, rfl, rfl⟩

theorem Retouched.trans {t'' : Table} (h : Retouched t t') (h' : Retouched t' t'') :
    Retouched t t'' := ⟨h'.sound, h'.stop.trans h.stop, h'.outline.trans h.outline⟩

theorem slots_of_outline (h : cs'.map Cell.outline = cs.map Cell.outline) :
    slots cs' = slots cs := by
  have hslot : ∀ cs : List Cell, slots cs =
      (cs.map Cell.outline).map fun o => (o.1, o.2.1.val) := by
    intro cs
    rw [List.map_map]
    rfl
  rw [hslot, hslot, h]

theorem Retouched.select_eq (h : Retouched t t') : select t' = select t :=
  select_congr h.stop (slots_of_outline h.outline)

/-- A cell of the second table and the cell of the first one with the same outline. -/
theorem exists_outline (h : cs'.map Cell.outline = cs.map Cell.outline) {c' : Cell}
    (hc : c' ∈ cs') : ∃ c ∈ cs, c.outline = c'.outline := by
  have hmem : c'.outline ∈ cs.map Cell.outline := h ▸ List.mem_map_of_mem hc
  exact List.mem_map.mp hmem

theorem ids_of_outline {c c' : Cell} (h : c.outline = c'.outline) : c'.ids = c.ids := by
  have hids : ∀ c : Cell, c.ids = c.outline.2.2.map Prod.snd := by
    intro c
    rw [Cell.outline, List.map_map]
    rfl
  rw [hids, hids, h]

theorem ptr_of_outline {c c' : Cell} (h : c.outline = c'.outline) : c'.ptr = c.ptr :=
  (congrArg Prod.fst h).symm

theorem id_of_outline {c c' : Cell} (h : c.outline = c'.outline) : c'.id = c.id :=
  (congrArg (fun o => o.2.1) h).symm

theorem Retouched.routed (hr : Retouched t t') (h : Routed t cs ds) :
    ∃ cs' ds', Routed t' cs' ds' ∧ cs'.map Cell.outline = cs.map Cell.outline ∧
      ds'.map Cell.outline = ds.map Cell.outline := by
  have hout := hr.outline
  rw [h.parts, List.map_append] at hout
  obtain ⟨cs', ds', hparts, hcs, hds⟩ := List.map_eq_append_iff.mp hout
  refine ⟨cs', ds', ⟨⟨hr.sound, hparts, ?_⟩, ?_, ?_⟩, hcs, hds⟩
  · rw [hr.stop, slots_of_outline hcs, slots_of_outline hds]
    exact h.grid
  · intro c' hc' x hx
    obtain ⟨c, hc, ho⟩ := exists_outline hr.outline hc'
    have hmem : x.2.id ∈ c.ids := ids_of_outline ho ▸ List.mem_map_of_mem hx
    obtain ⟨y, hy, hid⟩ := List.mem_map.mp hmem
    rw [hr.select_eq, ptr_of_outline ho, ← hid]
    exact h.placed c hc y hy
  · intro c' hc'
    rw [← hparts] at hc'
    obtain ⟨c, hc, ho⟩ := exists_outline hr.outline hc'
    rw [ids_of_outline ho]
    exact h.unique c (h.parts ▸ hc)

theorem Halved.of_outline (h : Halved cs) (ho : cs'.map Cell.outline = cs.map Cell.outline) :
    Halved cs' := by
  rintro cs₁ c rfl hne
  rw [List.map_append, List.map_singleton] at ho
  obtain ⟨as, bs, rfl, has, hbs⟩ := List.map_eq_append_iff.mp ho.symm
  obtain ⟨d, rfl, hd⟩ := List.map_eq_singleton_iff.mp hbs
  rw [id_of_outline hd]
  refine h as d rfl ?_
  rintro rfl
  exact hne (List.map_eq_nil_iff.mp has.symm)

theorem Retouched.clean (hr : Retouched t t') (h : Clean t cs) : ∃ cs', Clean t' cs' := by
  obtain ⟨cs', ds', hr', hcs, hds⟩ := hr.routed h.1
  obtain rfl := List.map_eq_nil_iff.mp hds
  exact ⟨cs', hr', h.2.of_outline hcs⟩

/-- Assigning to other fields of a node of the table. -/
theorem Sound.setNode_retouched {cs₁ cs₂ : List Cell} {c : Cell} (h : Sound t)
    (hc : cells t = cs₁ ++ c :: cs₂) {p : Ptr} {n : Node} (hp : (p, n) ∈ c.nodes)
    {f : Node → Node} (hf : (f n).id = n.id) :
    ∃ t', t.setNode (some c.ptr) (some p) f = .ok t' ∧ Retouched t t' := by
  obtain ⟨ms₁, ms₂, hms⟩ := List.append_of_mem hp
  obtain ⟨t', hset, hs, hstop, hcells⟩ := h.setNode hc hms f
  refine ⟨t', hset, hs, hstop, ?_⟩
  rw [hcells, hc]
  simp [Cell.outline, hms, hf]

theorem Retouched.ptrs (hr : Retouched t t') :
    (cells t').map Cell.ptr = (cells t).map Cell.ptr := by
  have hptrs : ∀ t, (cells t).map Cell.ptr = ((cells t).map Cell.outline).map Prod.fst := by
    intro t
    rw [List.map_map]
    rfl
  rw [hptrs, hptrs, hr.outline]

theorem Retouched.ids (hr : Retouched t t') :
    (allNodes t').map Node.id = (allNodes t).map Node.id := by
  have hids : ∀ t, (allNodes t).map Node.id =
      ((cells t).map Cell.outline).flatMap fun o => o.2.2.map Prod.snd := by
    intro t
    rw [allNodes, List.map_flatMap, List.flatMap_map]
    simp [Cell.outline, Function.comp_def]
  rw [hids, hids, hr.outline]

end Retouched

/-! ## The invariant along changes -/

section Ordered
variable {t t' : Table} {cs ds cs₁ cs₂ : List Cell} {c : Cell} {own : Id}

theorem mem_allNodes_replace {ms : List (Ptr × Node)} {n : Node}
    (hc : cells t = cs₁ ++ c :: cs₂) (hc' : cells t' = cs₁ ++ { c with nodes := ms } :: cs₂)
    (hn : n ∈ allNodes t') : n ∈ ms.map Prod.snd ∨ n ∈ allNodes t := by
  obtain ⟨d, hd, hnd⟩ := mem_allNodes.mp hn
  rw [hc', List.mem_append, List.mem_cons] at hd
  rcases hd with hd | rfl | hd
  · exact .inr (mem_allNodes.mpr ⟨d, by simp [hc, hd], hnd⟩)
  · exact .inl hnd
  · exact .inr (mem_allNodes.mpr ⟨d, by simp [hc, hd], hnd⟩)

theorem Routed.put_mem (h : Routed t cs ds) (n : Node) :
    ∃ t' cs', bcktPut t n = .ok t' ∧ Routed t' cs' ds ∧
      ∀ m ∈ allNodes t', m = n ∨ m ∈ allNodes t := by
  obtain ⟨cs₁, c, cs₂, ho, ⟨-, hput⟩ | ⟨-, t', p, hput, h'⟩⟩ := h.put n
  · exact ⟨t, cs, hput, h, fun m hm => .inr hm⟩
  · refine ⟨t', _, hput, h', fun m hm => ?_⟩
    have hparts := h'.parts
    rw [List.append_assoc, List.cons_append] at hparts
    rcases mem_allNodes_replace (h.cells_eq ho) hparts hm with hm | hm
    · rw [List.map_append, List.mem_append, List.map_singleton, List.mem_singleton] at hm
      have hmem : c ∈ cells t := by simp [h.cells_eq ho]
      exact hm.elim (fun hm => .inr (mem_allNodes.mpr ⟨c, hmem, hm⟩)) .inl
    · exact .inr hm

theorem Routed.del_mem (h : Routed t cs ds) (n : Node) :
    ∃ t' cs', bcktDel t n = .ok t' ∧ Routed t' cs' ds ∧ ∀ m ∈ allNodes t', m ∈ allNodes t := by
  obtain ⟨cs₁, c, cs₂, ho, ⟨-, hdel⟩ | ⟨ms₁, x, ms₂, t', hms, -, hdel, h'⟩⟩ := h.del n
  · exact ⟨t, cs, hdel, h, fun m hm => hm⟩
  · refine ⟨t', _, hdel, h', fun m hm => ?_⟩
    have hparts := h'.parts
    rw [List.append_assoc, List.cons_append] at hparts
    rcases mem_allNodes_replace (h.cells_eq ho) hparts hm with hm | hm
    · refine mem_allNodes.mpr ⟨c, by simp [h.cells_eq ho], ?_⟩
      rw [hms]
      simp at hm ⊢
      tauto
    · exact hm

/-- A single `bckt_split` moves nodes between buckets and does nothing else. -/
theorem Routed.split_perm (h : Routed t cs ds) (own : Id) :
    ∃ t' cs' ds' b, bcktSplit t own = .ok (t', b) ∧ Routed t' cs' ds' ∧
      (allNodes t').Perm (allNodes t) := by
  obtain ⟨cs₁, c, cs₂, ho⟩ := h.owner own
  have hsel := h.select_eq ho
  obtain rfl := ho.split
  rcases h.split hsel with ⟨-, hsplit⟩ |
    ⟨-, t', c', d', k, hsplit, hdealt, -, -, hcells, hstall, hlive⟩
  · exact ⟨t, _, _, false, hsplit, h, .refl _⟩
  · have hperm := allNodes_split h hcells hdealt
    by_cases hst : Stalls cs₁ cs₂ ds
    · exact ⟨t', _, _, true, hsplit, (hstall hst).2, hperm⟩
    · exact ⟨t', _, _, true, hsplit, hlive hst, hperm⟩

theorem Routed.nbhdSplit_perm (h : Routed t cs ds) (own : Id) (fuel : ℕ) :
    Ensures (Routing.nbhdSplit own fuel t) fun t' =>
      (∃ cs' ds', Routed t' cs' ds') ∧ (allNodes t').Perm (allNodes t) := by
  induction fuel generalizing t cs ds with
  | zero => exact ensures_error
  | succ fuel ih =>
    obtain ⟨t', cs', ds', b, hsplit, h', hperm⟩ := h.split_perm own
    rw [Routing.nbhdSplit, hsplit, exec_ok_bind]
    cases b with
    | false => exact ensures_ok.mpr ⟨⟨cs', ds', h'⟩, hperm⟩
    | true => exact (ih h').mono fun t'' ht => ⟨ht.1, ht.2.trans hperm⟩

theorem Change.ordered (h : Ordered own t) (hc : Change own t t') : Ordered own t' := by
  obtain ⟨⟨cs, ds, hr⟩, hown⟩ := h
  cases hc with
  | put n hn hput =>
    obtain ⟨t₁, cs', hput', h', hmem⟩ := hr.put_mem n
    obtain rfl := Except.ok.inj (hput'.symm.trans hput)
    refine ⟨⟨cs', ds, h'⟩, fun m hm => ?_⟩
    rcases hmem m hm with rfl | hm
    · exact hn
    · exact hown m hm
  | del n hdel =>
    obtain ⟨t₁, cs', hdel', h', hmem⟩ := hr.del_mem n
    obtain rfl := Except.ok.inj (hdel'.symm.trans hdel)
    exact ⟨⟨cs', ds, h'⟩, fun m hm => hown m (hmem m hm)⟩
  | retouch ht =>
    obtain ⟨cs', ds', h', -⟩ := ht.routed hr
    refine ⟨⟨cs', ds', h'⟩, fun m hm he => ?_⟩
    have hmem : m.id ∈ (allNodes t').map Node.id := List.mem_map_of_mem hm
    rw [ht.ids] at hmem
    obtain ⟨n, hn, hid⟩ := List.mem_map.mp hmem
    exact hown n hn (hid.trans he)
  | split fuel hsplit =>
    obtain ⟨h', hperm⟩ := hr.nbhdSplit_perm own fuel t' hsplit
    exact ⟨h', fun m hm => hown m (hperm.mem_iff.mp hm)⟩

theorem Changes.ordered (hc : Changes own t t') (h : Ordered own t) : Ordered own t' := by
  induction hc with
  | refl => exact h
  | tail _ hstep ih => exact hstep.ordered ih

theorem Change.clean (hc : Change own t t') (h : Clean t cs) : ∃ cs', Clean t' cs' := by
  cases hc with
  | put n hn hput =>
    obtain ⟨t₁, cs', hput', h'⟩ := h.put n
    obtain rfl := Except.ok.inj (hput'.symm.trans hput)
    exact ⟨cs', h'⟩
  | del n hdel =>
    obtain ⟨t₁, cs', hdel', h'⟩ := h.del n
    obtain rfl := Except.ok.inj (hdel'.symm.trans hdel)
    exact ⟨cs', h'⟩
  | retouch ht => exact ht.clean h
  | split fuel hsplit => exact h.nbhdSplit hsplit

theorem Changes.clean (hc : Changes own t t') (h : ∃ cs, Clean t cs) : ∃ cs, Clean t' cs := by
  induction hc with
  | refl => exact h
  | tail _ hstep ih =>
    obtain ⟨cs, hcs⟩ := ih
    exact hstep.clean hcs

theorem bcktInit_ordered (own : Id) :
    ∃ t, bcktInit = .ok t ∧ Ordered own t ∧ ∃ cs, Clean t cs := by
  obtain ⟨t, cs, hinit, hclean⟩ := bcktInit_clean
  obtain ⟨t', hinit', hr⟩ := bcktInit_routed
  obtain rfl := Except.ok.inj (hinit.symm.trans hinit')
  refine ⟨t, hinit, ⟨⟨_, _, hr⟩, fun n hn => ?_⟩, cs, hclean⟩
  simp [allNodes, hr.parts] at hn

/-- `nbhd_expire` deletes nodes one by one. -/
theorem expireNodes_changes (own : Id) (item_b : Option Ptr) (fuel j : ℕ)
    (item_n : Option Ptr) (t : Table) :
    Ensures (expireNodes item_b fuel j item_n t) (Changes own t) := by
  induction fuel generalizing j item_n t with
  | zero => exact ensures_error
  | succ fuel ih =>
    rw [expireNodes]
    refine ensures_then fun b => ensures_ite (fun _ => ?_) fun _ => ensures_ok.mpr .refl
    refine ensures_then fun n => ensures_then fun next => ensures_ite (fun _ => ?_) fun _ => ?_
    · refine Ensures.bind (P := Changes own t) (fun t' ht => .single (.del n.val ht))
        fun t' ht => ?_
      exact (ih _ _ t').mono fun t'' ht' => ht.trans ht'
    · exact ih _ _ t

theorem nbhdExpire_changes (own : Id) (t : Table) : Ensures (nbhdExpire t) (Changes own t) := by
  have hloop : ∀ k item_b t, Ensures (expireBuckets k item_b t) (Changes own t) := by
    intro k
    induction k with
    | zero => exact fun _ _ => ensures_ok.mpr .refl
    | succ k ih =>
      intro item_b t
      rw [expireBuckets]
      refine ensures_then fun b => ?_
      have hnodes := expireNodes_changes own item_b (b.val.nodes.counter + 1) 0
        b.val.nodes.start t
      refine hnodes.bind fun t' ht => ensures_then fun next => ?_
      exact (ih next t').mono fun t'' ht' => ht.trans ht'
  exact hloop _ _ t

end Ordered
end Masala.Routing
