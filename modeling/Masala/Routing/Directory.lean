import Masala.Routing.AnyMatch
import Masala.Routing.Change

/-!
# The table as a directory

Searches only look at the bucket of an id. Since every node is where a search
for it looks, they see the whole table: ids are unique in it, and a node is
found exactly if some bucket has it.
-/
namespace Masala.Routing
open Library Container

section Directory
variable {t : Table} {cs ds : List Cell} {own : Id}

theorem Sound.cell_eq (h : Sound t) {c d : Cell} (hc : c ∈ cells t) (hd : d ∈ cells t)
    (hp : c.ptr = d.ptr) : c = d := List.inj_on_of_nodup_map h.nodup hc hd hp

/-- Nodes with one id are in one cell. -/
theorem Routed.cell_of_id (h : Routed t cs ds) {c d : Cell} {x y : Ptr × Node}
    (hc : c ∈ cells t) (hd : d ∈ cells t) (hx : x ∈ c.nodes) (hy : y ∈ d.nodes)
    (hid : x.2.id = y.2.id) : c = d := by
  have hsel := h.placed c hc x hx
  rw [hid, h.placed d hd y hy] at hsel
  exact h.sound.cell_eq hc hd (Option.some.inj hsel).symm

/-- No id occurs twice in the whole table. -/
theorem Routed.nodup_ids (h : Routed t cs ds) : ((allNodes t).map Node.id).Nodup := by
  have hids : (allNodes t).map Node.id = (cells t).flatMap Cell.ids := by
    rw [allNodes, List.map_flatMap]
    simp only [List.map_map]
    rfl
  rw [hids, List.nodup_flatMap]
  refine ⟨fun c hc => h.unique c (h.parts ▸ hc), ?_⟩
  refine (List.Nodup.of_map _ h.sound.nodup).imp_of_mem fun {c d} hc hd hne => ?_
  intro i hic hid
  obtain ⟨x, hx, rfl⟩ := List.mem_map.mp hic
  obtain ⟨y, hy, he⟩ := List.mem_map.mp hid
  exact hne (h.cell_of_id hc hd hx hy he.symm)

/-- `bckt_find_node` finds a node with the id if the table has one. -/
theorem Routed.findNode (h : Routed t cs ds) (x : Id) :
    (bcktFindNode t x = .ok none ∧ ∀ n ∈ allNodes t, n.id ≠ x) ∨
      ∃ c p n, bcktFindNode t x = .ok (some (c.ptr, p)) ∧ c ∈ cells t ∧ (p, n) ∈ c.nodes ∧
        n.id = x := by
  obtain ⟨cs₁, c, cs₂, ho⟩ := h.owner x
  have hsel := h.select_eq ho
  have hcells := h.cells_eq ho
  have hmem : c ∈ cells t := by simp [hcells]
  have hfind := bcktFindNode_eq h.sound hcells hsel
  cases hx : c.nodes.find? (fun y => y.2.id = x) with
  | none =>
    rw [hx] at hfind
    refine .inl ⟨hfind, fun n hn he => ?_⟩
    obtain ⟨d, hd, hnd⟩ := mem_allNodes.mp hn
    obtain ⟨y, hy, rfl⟩ := List.mem_map.mp hnd
    have hdc : select t y.2.id = some d.ptr := h.placed d hd y hy
    rw [he, hsel] at hdc
    obtain rfl := h.sound.cell_eq hmem hd (Option.some.inj hdc)
    exact List.find?_eq_none.mp hx y hy (by simpa using he)
  | some y =>
    obtain ⟨p, n⟩ := y
    rw [hx] at hfind
    have hn := List.find?_some hx
    exact .inr ⟨c, p, n, hfind, hmem, List.mem_of_find?_eq_some hx, by simpa using hn⟩

/-- `bckt_find_any_match` only returns buckets with nodes. -/
theorem Routed.findAny (h : Routed t cs ds) (id : Id) :
    Ensures (bcktFindAnyMatch t id) fun r => ∀ p, r = some p →
      ∃ cs₁ c cs₂, cells t = cs₁ ++ c :: cs₂ ∧ c.ptr = p ∧ c.nodes ≠ [] := by
  obtain ⟨cs₁, c, cs₂, ho⟩ := h.owner id
  have hsel := h.select_eq ho
  have hcells := h.cells_eq ho
  by_cases hne : c.nodes = []
  · rw [bcktFindAnyMatch_empty h.sound hcells hsel hne]
    refine ensures_ite (fun _ => ensures_ok.mpr ?_) fun _ => ensures_error
    intro p hp
    cases hp
  · rw [bcktFindAnyMatch_full h.sound hcells hsel hne]
    refine ensures_ok.mpr fun p hp => ?_
    exact ⟨cs₁, c, _, hcells, Option.some.inj hp, hne⟩

end Directory
end Masala.Routing
