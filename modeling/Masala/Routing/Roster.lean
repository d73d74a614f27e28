import Mathlib.Data.List.Flatten
import Masala.Library.Entries
import Masala.Routing.Expire

/-!
# The table as a roster of nodes

Buckets only serve to find things. What the table says about the nodes is a map
from ids to nodes, and each operation on a table is an update of that map.
-/
namespace Masala.Routing
open Library Container

/-- The node with an id. -/
def nodeOf (t : Table) : Id → Option Node := entry Node.id (allNodes t)

section Roster
variable {t t' : Table} {cs ds : List Cell}

theorem Routed.nodeOf_eq_some_iff (h : Routed t cs ds) {x : Id} {n : Node} :
    nodeOf t x = some n ↔ n ∈ allNodes t ∧ n.id = x := entry_eq_some_iff h.nodup_ids

theorem nodeOf_eq_none_iff {x : Id} : nodeOf t x = none ↔ ∀ n ∈ allNodes t, n.id ≠ x :=
  entry_eq_none_iff

theorem nodeOf_ne_none_iff {x : Id} : nodeOf t x ≠ none ↔ ∃ n ∈ allNodes t, n.id = x :=
  entry_ne_none_iff

/-- `bckt_find_node` reads the map. -/
theorem Routed.findNode_nodeOf (h : Routed t cs ds) (x : Id) :
    (bcktFindNode t x = .ok none ∧ nodeOf t x = none) ∨
      ∃ c p n, bcktFindNode t x = .ok (some (c.ptr, p)) ∧ c ∈ cells t ∧ (p, n) ∈ c.nodes ∧
        nodeOf t x = some n := by
  rcases h.findNode x with ⟨hfind, hne⟩ | ⟨c, p, n, hfind, hc, hp, hid⟩
  · exact .inl ⟨hfind, nodeOf_eq_none_iff.mpr hne⟩
  · refine .inr ⟨c, p, n, hfind, hc, hp, h.nodeOf_eq_some_iff.mpr ⟨?_, hid⟩⟩
    exact mem_allNodes.mpr ⟨c, hc, List.mem_map_of_mem hp⟩

theorem allNodes_cells {cs₁ cs₂ : List Cell} {c : Cell} (hc : cells t = cs₁ ++ c :: cs₂) :
    allNodes t = (cs₁.flatMap fun c => c.nodes.map Prod.snd) ++
      (c.nodes.map Prod.snd ++ cs₂.flatMap fun c => c.nodes.map Prod.snd) := by
  rw [allNodes, hc, List.flatMap_append, List.flatMap_cons]

/-- Assigning to fields other than the id of a node of the table. -/
theorem Routed.nodeOf_setNode (h : Routed t cs ds) {c : Cell} {p : Ptr} {n : Node}
    (hc : c ∈ cells t) (hp : (p, n) ∈ c.nodes) {f : Node → Node} (hf : (f n).id = n.id)
    (hset : t.setNode (some c.ptr) (some p) f = .ok t') :
    nodeOf t' = Function.update (nodeOf t) n.id (some (f n)) := by
  obtain ⟨cs₁, cs₂, hcells⟩ := List.append_of_mem hc
  obtain ⟨ms₁, ms₂, hms⟩ := List.append_of_mem hp
  obtain ⟨t₁, hset₁, -, -, hcells'⟩ := h.sound.setNode hcells hms f
  obtain rfl := Except.ok.inj (hset₁.symm.trans hset)
  have hn := h.nodup_ids
  have hnodes := allNodes_cells hcells
  have hnodes' := allNodes_cells hcells'
  rw [hms] at hnodes
  simp only [List.map_append, List.map_cons, List.append_assoc, List.cons_append] at hnodes hnodes'
  rw [← List.append_assoc] at hnodes hnodes'
  rw [hnodes] at hn
  rw [nodeOf, nodeOf, hnodes, hnodes']
  exact entry_replace hn hf

theorem Routed.nodeOf_put (h : Routed t cs ds) {n : Node} (hn : nodeOf t n.id = none)
    (hput : bcktPut t n = .ok t') : nodeOf t' = Function.update (nodeOf t) n.id (some n) := by
  obtain ⟨cs₁, c, cs₂, ho, ⟨hmem, -⟩ | ⟨-, t₁, p, hput₁, h'⟩⟩ := h.put n
  · -- the bucket that owns the id has no such node
    obtain ⟨x, hx, hid⟩ := List.mem_map.mp hmem
    have hc : c ∈ cells t := by simp [h.cells_eq ho]
    have hall := mem_allNodes.mpr ⟨c, hc, List.mem_map_of_mem hx⟩
    exact absurd hid (nodeOf_eq_none_iff.mp hn _ hall)
  · obtain rfl := Except.ok.inj (hput₁.symm.trans hput)
    have hnodup := h'.nodup_ids
    have hcells' := h'.parts
    rw [List.append_assoc, List.cons_append] at hcells'
    have hnodes := allNodes_cells (h.cells_eq ho)
    have hnodes' := allNodes_cells hcells'
    simp only [List.map_append, List.map_cons, List.map_nil, List.append_assoc,
      List.singleton_append] at hnodes'
    rw [← List.append_assoc] at hnodes hnodes'
    rw [hnodes'] at hnodup
    rw [nodeOf, nodeOf, hnodes, hnodes']
    exact entry_insert hnodup

theorem Routed.nodeOf_split (h : Routed t cs ds) {own : Id} {fuel : ℕ}
    (hsplit : nbhdSplit own fuel t = .ok t') : nodeOf t' = nodeOf t := by
  obtain ⟨-, hperm⟩ := h.nbhdSplit_perm own fuel t' hsplit
  exact (entry_perm h.nodup_ids hperm.symm).symm

/-- `nbhd_expire` only removes nodes that have not answered four pings. -/
theorem Routed.nodeOf_expire (h : Routed t cs ds) (hexp : nbhdExpire t = .ok t') (x : Id) :
    nodeOf t' x = nodeOf t x ∨ nodeOf t' x = none ∧ ∃ n, nodeOf t x = some n ∧ 4 ≤ n.pinged := by
  have htidy := tidy_of_unique h.placed h.nodup_ids
  obtain ⟨t₁, hexp₁, -, hcells⟩ := nbhdExpire_eq h.sound htidy
  obtain rfl := Except.ok.inj (hexp₁.symm.trans hexp)
  have hnodes : allNodes t₁ = (cells t).flatMap fun c => c.swept.nodes.map Prod.snd := by
    rw [allNodes, hcells, List.flatMap_map]
  have hsub : (allNodes t₁).Sublist (allNodes t) := by
    rw [hnodes, allNodes]
    exact List.Sublist.flatMap_right _ fun c _ => (sweep_sublist _ _).map _
  rcases entry_sublist h.nodup_ids hsub x with hsame | ⟨hnone, n, hn, hgone⟩
  · exact .inl hsame
  refine .inr ⟨hnone, n, hn, ?_⟩
  obtain ⟨c, hc, hmem⟩ := mem_allNodes.mp (mem_of_entry hn).1
  obtain ⟨y, hy, rfl⟩ := List.mem_map.mp hmem
  by_contra hbad
  refine hgone ?_
  rw [hnodes]
  exact List.mem_flatMap.mpr ⟨c, hc, List.mem_map_of_mem (mem_sweep_of_not_bad hy hbad)⟩

end Roster
end Masala.Routing
