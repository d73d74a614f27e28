import Masala.Routing.Bucket

/-!
# The table as a list of cells

What the list structure of a table stands for: a list of cells, each with the
address, id and nodes of one bucket. Every function of `bucket.c` is a function
of the cells and of the `stop` pointer of the bucket list.
-/
namespace Masala.Routing
open Library Container

/-- A bucket with the address of its item and the items of its nodes. -/
structure Cell where
  ptr : Ptr
  id : Id
  nodes : List (Ptr × Node)

def cellOf (x : Ptr × Buck) : Cell := ⟨x.1, x.2.id, x.2.nodes.items⟩

def cells (t : Table) : List Cell := t.items.map cellOf

/-- Address and number of a bucket, which is all that a search looks at. -/
def Cell.slot (c : Cell) : Ptr × ℕ := (c.ptr, c.id.val)

def slots (cs : List Cell) : List (Ptr × ℕ) := cs.map Cell.slot

@[simp] theorem slots_nil : slots [] = [] := rfl

@[simp] theorem slots_cons (c : Cell) (cs : List Cell) : slots (c :: cs) = c.slot :: slots cs := rfl

@[simp] theorem slots_append (cs ds : List Cell) : slots (cs ++ ds) = slots cs ++ slots ds :=
  List.map_append

@[simp] theorem slots_eq_nil {cs : List Cell} : slots cs = [] ↔ cs = [] := List.map_eq_nil_iff

/-- All lists of the table are linked; those of the nodes are well-formed. -/
structure Sound (t : Table) : Prop where
  linked : Linked t t.items
  nodes : ∀ x ∈ t.items, Holds x.2.nodes x.2.nodes.items

theorem Sound.of_linked {t : Table} {xs : List (Ptr × Buck)} (h : Linked t xs)
    (hn : ∀ x ∈ xs, ∃ ns, Holds x.2.nodes ns) : Sound t := by
  refine ⟨h.items_eq.symm ▸ h, fun x hx => ?_⟩
  obtain ⟨ns, hns⟩ := hn x (h.items_eq ▸ hx)
  exact hns.items_eq.symm ▸ hns

/-- The address of the first cell. -/
def headPtr (cs : List Cell) : Option Ptr := cs.head?.map Cell.ptr

theorem firstPtr_eq_headPtr (xs : List (Ptr × Buck)) :
    firstPtr xs none = headPtr (xs.map cellOf) := by
  cases xs <;> rfl

section Cells
variable {t : Table} {cs₁ cs₂ : List Cell} {c : Cell}

/-- The bucket behind a cell. -/
theorem Sound.bucket (h : Sound t) (hc : cells t = cs₁ ++ c :: cs₂) :
    ∃ xs₁ b xs₂, t.items = xs₁ ++ (c.ptr, b) :: xs₂ ∧ xs₁.map cellOf = cs₁ ∧
      xs₂.map cellOf = cs₂ ∧ b.id = c.id ∧ Holds b.nodes c.nodes := by
  obtain ⟨xs₁, xs', hitems, hxs₁, hxs'⟩ := List.map_eq_append_iff.mp hc
  obtain ⟨⟨p, b⟩, xs₂, rfl, rfl, hxs₂⟩ := List.map_eq_cons_iff.mp hxs'
  exact ⟨xs₁, b, xs₂, hitems, hxs₁, hxs₂, rfl, h.nodes (p, b) (by simp [hitems])⟩

/-- Reading the item of a cell. -/
theorem Sound.item_eq (h : Sound t) (hc : cells t = cs₁ ++ c :: cs₂) :
    ∃ b prev, t.item (some c.ptr) = .ok ⟨b, headPtr cs₂, prev⟩ ∧ b.id = c.id ∧
      Holds b.nodes c.nodes := by
  obtain ⟨xs₁, b, xs₂, hitems, -, rfl, hid, hholds⟩ := h.bucket hc
  have hlinked := h.linked
  rw [hitems] at hlinked
  exact ⟨b, _, by rw [hlinked.item_eq, firstPtr_eq_headPtr], hid, hholds⟩

theorem Sound.next_eq (h : Sound t) (hc : cells t = cs₁ ++ c :: cs₂) :
    listNext t (some c.ptr) = .ok (headPtr cs₂) := by
  obtain ⟨b, prev, hitem, -⟩ := h.item_eq hc
  simp [listNext, hitem]

/-- Assigning a bucket replaces the nodes of its cell. -/
theorem Sound.setVal (h : Sound t) (hc : cells t = cs₁ ++ c :: cs₂) {b : Buck}
    {ms : List (Ptr × Node)} (hid : b.id = c.id) (hb : Holds b.nodes ms) :
    ∃ t', t.setVal (some c.ptr) b = .ok t' ∧ Sound t' ∧ t'.stop = t.stop ∧
      cells t' = cs₁ ++ { c with nodes := ms } :: cs₂ := by
  obtain ⟨xs₁, b₀, xs₂, hitems, rfl, rfl, -⟩ := h.bucket hc
  have hlinked := h.linked
  rw [hitems] at hlinked
  obtain ⟨t', ht', hlinked', hstop⟩ := hlinked.setVal b
  refine ⟨t', ht', Sound.of_linked hlinked' ?_, hstop, ?_⟩
  · intro x hx
    rw [List.mem_append, List.mem_cons] at hx
    rcases hx with hx | rfl | hx
    · exact ⟨_, h.nodes x (by simp [hitems, hx])⟩
    · exact ⟨ms, hb⟩
    · exact ⟨_, h.nodes x (by simp [hitems, hx])⟩
  · rw [cells, hlinked'.items_eq]
    simp [cellOf, hid, hb.items_eq]

end Cells

/-! ## Searching -/

/-- The bucket that the number `x` belongs to: the one in front of the first larger id. -/
def search (stop : Option Ptr) (x : ℕ) : List (Ptr × ℕ) → Option Ptr
  | a :: b :: cs => if x < b.2 then some a.1 else search stop x (b :: cs)
  | _ => stop

/-- The bucket that `bckt_find_best_match` returns. -/
def select (t : Table) (id : Id) : Option Ptr := search t.stop id.val (slots (cells t))

theorem select_congr {t t' : Table} (hstop : t'.stop = t.stop)
    (hslots : slots (cells t') = slots (cells t)) : select t' = select t := by
  funext id
  rw [select, select, hstop, hslots]

theorem findBestMatchLoop_eq {t : Table} (h : Sound t) (id : Id) {cs₁ cs₂ : List Cell} {c : Cell}
    (hc : cells t = cs₁ ++ c :: cs₂) :
    findBestMatchLoop t id cs₂.length (some c.ptr) =
      .ok (search t.stop id.val (slots (c :: cs₂))) := by
  induction cs₂ generalizing cs₁ c with
  | nil => rfl
  | cons d cs₂ ih =>
    have hd : cells t = (cs₁ ++ [c]) ++ d :: cs₂ := by simp [hc]
    obtain ⟨b, prev, hitem, hid, -⟩ := h.item_eq hd
    have hnext : headPtr (d :: cs₂) = some d.ptr := rfl
    rw [List.length_cons, findBestMatchLoop, h.next_eq hc, exec_ok_bind, hnext, hitem, exec_ok_bind,
      ih hd]
    have hm : memcmp id.bytes b.id.bytes = .lt ↔ id.val < d.id.val := by
      rw [Octets.memcmp_lt, hid]
    have hstep : search t.stop id.val (slots (c :: d :: cs₂)) =
      if id.val < d.id.val then some c.ptr else search t.stop id.val (slots (d :: cs₂)) := rfl
    rw [hstep]
    by_cases hlt : id.val < d.id.val
    · rw [if_pos hlt, if_pos (hm.mpr hlt), exec_pure]
    · rw [if_neg hlt, if_neg fun hx => hlt (hm.mp hx)]

/-- `bckt_find_best_match` searches the cells. -/
theorem bcktFindBestMatch_eq {t : Table} (h : Sound t) (id : Id) :
    bcktFindBestMatch t id = .ok (select t id) := by
  have hcount : t.counter = (cells t).length := by rw [h.linked.counter, cells, List.length_map]
  have hstart : t.start = headPtr (cells t) := by rw [h.linked.start, firstPtr_eq_headPtr, cells]
  rw [bcktFindBestMatch, hcount, hstart, select]
  cases hc : cells t with
  | nil => rfl
  | cons c cs =>
    have hc' : cells t = [] ++ c :: cs := hc
    exact findBestMatchLoop_eq h id hc'

theorem findNodeLoop_eq {l : ObjList Node} (id : Id) {ys zs : List (Ptr × Node)}
    (h : Linked l (ys ++ zs)) : findNodeLoop l id zs.length (firstPtr zs none) =
      .ok ((zs.find? fun x => x.2.id = id).map Prod.fst) := by
  induction zs generalizing ys with
  | nil => rfl
  | cons x zs ih =>
    obtain ⟨p, n⟩ := x
    have ht : Linked l ((ys ++ [(p, n)]) ++ zs) := by simpa using h
    rw [List.length_cons, firstPtr_cons, findNodeLoop, h.item_eq, exec_ok_bind, h.next_eq,
      exec_ok_bind, ih ht]
    by_cases hn : n.id = id
    · simp [nodeEqual, Octets.memcmp_eq, hn]
    · simp [nodeEqual, Octets.memcmp_eq, hn]

/-- `bckt_find_node` searches the nodes of the selected cell. -/
theorem bcktFindNode_eq {t : Table} (h : Sound t) {id : Id} {cs₁ cs₂ : List Cell} {c : Cell}
    (hc : cells t = cs₁ ++ c :: cs₂) (hs : select t id = some c.ptr) :
    bcktFindNode t id =
      .ok ((c.nodes.find? fun x => x.2.id = id).map fun x => (c.ptr, x.1)) := by
  obtain ⟨b, prev, hitem, -, hholds⟩ := h.item_eq hc
  have hlinked : Linked b.nodes ([] ++ c.nodes) := hholds.toLinked
  have hloop := findNodeLoop_eq id hlinked
  rw [← hholds.counter, ← hholds.start] at hloop
  rw [bcktFindNode, bcktFindBestMatch_eq h, exec_ok_bind, hs]
  simp only [hitem, exec_ok_bind, hloop, exec_pure, Option.map_map]
  rfl

/-! ## Storing and deleting -/

section Store
variable {t : Table} {cs₁ cs₂ : List Cell} {c : Cell}

theorem Sound.append (h : Sound t) (hc : cells t = cs₁ ++ c :: cs₂) (n : Node) :
    ∃ t' p, t.append (some c.ptr) n = .ok t' ∧ Sound t' ∧ t'.stop = t.stop ∧
      cells t' = cs₁ ++ { c with nodes := c.nodes ++ [(p, n)] } :: cs₂ := by
  obtain ⟨b, prev, hitem, hid, hholds⟩ := h.item_eq hc
  obtain ⟨nodes, hput, hholds'⟩ := hholds.put n
  obtain ⟨t', hset, h'⟩ := h.setVal hc (b := { b with nodes := nodes }) hid hholds'
  refine ⟨t', b.nodes.fresh, ?_, h'⟩
  rw [Table.append, hitem, exec_ok_bind, hput, exec_ok_bind]
  exact hset

/-- Assigning to a node changes nothing else. -/
theorem Sound.setNode (h : Sound t) (hc : cells t = cs₁ ++ c :: cs₂) {ms₁ ms₂ : List (Ptr × Node)}
    {p : Ptr} {n : Node} (hms : c.nodes = ms₁ ++ (p, n) :: ms₂) (f : Node → Node) :
    ∃ t', t.setNode (some c.ptr) (some p) f = .ok t' ∧ Sound t' ∧ t'.stop = t.stop ∧
      cells t' = cs₁ ++ { c with nodes := ms₁ ++ (p, f n) :: ms₂ } :: cs₂ := by
  obtain ⟨b, prev, hitem, hid, hholds⟩ := h.item_eq hc
  rw [hms] at hholds
  obtain ⟨nodes, hset, hholds'⟩ := hholds.setVal (f n)
  obtain ⟨t', hset', h'⟩ := h.setVal hc (b := { b with nodes := nodes }) hid hholds'
  refine ⟨t', ?_, h'⟩
  rw [Table.setNode, hitem, exec_ok_bind, hholds.item_eq, exec_ok_bind, hset, exec_ok_bind]
  exact hset'

variable {n : Node} (hs : select t n.id = some c.ptr)
include hs

/-- A node whose id the selected cell has is not stored again. -/
theorem Sound.put_known (h : Sound t) (hc : cells t = cs₁ ++ c :: cs₂)
    (hn : ∃ x ∈ c.nodes, x.2.id = n.id) : bcktPut t n = .ok t := by
  obtain ⟨y, hy⟩ : ∃ y, c.nodes.find? (fun x => x.2.id = n.id) = some y := by
    rw [← Option.isSome_iff_exists, List.find?_isSome]
    simpa using hn
  simp [bcktPut, bcktFindBestMatch_eq h, hs, bcktFindNode_eq h hc hs, hy]

/-- A new node goes to the end of the selected cell. -/
theorem Sound.put_new (h : Sound t) (hc : cells t = cs₁ ++ c :: cs₂)
    (hn : ∀ x ∈ c.nodes, x.2.id ≠ n.id) :
    ∃ t' p, bcktPut t n = .ok t' ∧ Sound t' ∧ t'.stop = t.stop ∧
      cells t' = cs₁ ++ { c with nodes := c.nodes ++ [(p, n)] } :: cs₂ := by
  obtain ⟨t', p, happ, h'⟩ := h.append hc n
  have hfind : c.nodes.find? (fun x => x.2.id = n.id) = none := by
    rw [List.find?_eq_none]
    simpa using hn
  refine ⟨t', p, ?_, h'⟩
  simp [bcktPut, bcktFindBestMatch_eq h, hs, bcktFindNode_eq h hc hs, hfind, happ]

theorem Sound.del_unknown (h : Sound t) (hc : cells t = cs₁ ++ c :: cs₂)
    (hn : ∀ x ∈ c.nodes, x.2.id ≠ n.id) : bcktDel t n = .ok t := by
  obtain ⟨b, prev, hitem, -⟩ := h.item_eq hc
  have hfind : c.nodes.find? (fun x => x.2.id = n.id) = none := by
    rw [List.find?_eq_none]
    simpa using hn
  simp [bcktDel, bcktFindBestMatch_eq h, hs, bcktFindNode_eq h hc hs, hfind, hitem]

/-- The first node with the id leaves the selected cell. -/
theorem Sound.del_known (h : Sound t) (hc : cells t = cs₁ ++ c :: cs₂)
    {ms₁ ms₂ : List (Ptr × Node)} {x : Ptr × Node} (hms : c.nodes = ms₁ ++ x :: ms₂)
    (hx : x.2.id = n.id) (hn : ∀ y ∈ ms₁, y.2.id ≠ n.id) :
    ∃ t', bcktDel t n = .ok t' ∧ Sound t' ∧ t'.stop = t.stop ∧
      cells t' = cs₁ ++ { c with nodes := ms₁ ++ ms₂ } :: cs₂ := by
  obtain ⟨b, prev, hitem, hid, hholds⟩ := h.item_eq hc
  rw [hms] at hholds
  obtain ⟨nodes, hdel, hholds'⟩ := hholds.del
  obtain ⟨t', hset, h'⟩ := h.setVal hc (b := { b with nodes := nodes }) hid hholds'
  have hfind : c.nodes.find? (fun x => x.2.id = n.id) = some x := by
    rw [hms, List.find?_append, List.find?_cons_of_pos (by simpa using hx), List.find?_eq_none.mpr]
    · rfl
    · simpa using hn
  refine ⟨t', ?_, h'⟩
  simp [bcktDel, bcktFindBestMatch_eq h, hs, bcktFindNode_eq h hc hs, hfind, hitem, hdel, hset]

end Store
end Masala.Routing
