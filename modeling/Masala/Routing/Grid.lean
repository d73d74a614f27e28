import Masala.Routing.Split

/-!
# Tables as tilings of the id space

The buckets that a search can return tile the id space with aligned blocks, and
`stop` is the last of them. Behind it there may be dead buckets: a split of the
last bucket that does not move `stop` leaves one that no search ever returns.
-/
namespace Masala.Routing
open Library Container

/-- The live buckets `xs` tile the id space; the dead ones `ds` all sit at the middle of the last
live one. -/
structure Grid (stop : Option Ptr) (xs ds : List (Ptr × ℕ)) : Prop where
  nonempty : xs ≠ []
  first : nextStart Prod.snd xs 0 = 0
  tiled : Tiled Prod.snd xs (2 ^ 160)
  stop : stop = xs.getLast?.map Prod.fst
  dead : ∀ d ∈ ds, ∃ l k, xs.getLast? = some l ∧ Block (k + 1) l.2 (2 ^ 160) ∧ d.2 = l.2 + 2 ^ k

section Grid
variable {stop : Option Ptr} {xs ys zs ds : List (Ptr × ℕ)} {b d : Ptr × ℕ} {x k : ℕ}

theorem search_below (hy : ∀ y ∈ ys, y.2 ≤ x) (hb : b.2 ≤ x) :
    search stop x (ys ++ b :: zs) = search stop x (b :: zs) := by
  induction ys with
  | nil => rfl
  | cons y ys ih =>
    have hrest := ih fun z hz => hy z (by simp [hz])
    cases ys with
    | nil => rw [List.cons_append, List.nil_append, search, if_neg (Nat.not_lt.mpr hb)]
    | cons z ys =>
      have hz : z.2 ≤ x := hy z (by simp)
      rw [← hrest, List.cons_append, List.cons_append, search, if_neg (Nat.not_lt.mpr hz)]

theorem search_all (hy : ∀ y ∈ ys, y.2 ≤ x) : search stop x ys = stop := by
  rcases List.eq_nil_or_concat' ys with rfl | ⟨ys, b, rfl⟩
  · rfl
  · rw [search_below (fun y hm => hy y (by simp [hm])) (hy b (by simp))]
    rfl

theorem Block.unique {a e j k : ℕ} (hj : Block j a e) (hk : Block k a e) : j = k := by
  have h := hj.1.symm.trans hk.1
  exact Nat.pow_right_injective (le_refl 2) (Nat.add_left_cancel h)

theorem Grid.dead_eq (h : Grid stop xs ds) {d' : Ptr × ℕ} (hd : d ∈ ds) (hd' : d' ∈ ds) :
    d.2 = d'.2 := by
  obtain ⟨l, k, hl, hk, he⟩ := h.dead d hd
  obtain ⟨l', k', hl', hk', he'⟩ := h.dead d' hd'
  rw [hl] at hl'
  obtain rfl := Option.some.inj hl'
  obtain rfl := Nat.succ.inj (Block.unique hk hk')
  rw [he, he']

/-- A search returns the live bucket whose block has the number. -/
theorem Grid.search_eq (h : Grid stop (ys ++ b :: zs) ds) (hb : b.2 ≤ x)
    (hz : ∀ z ∈ zs, x < z.2) : search stop x (ys ++ b :: zs ++ ds) = some b.1 := by
  have hsorted := (List.pairwise_append.mp h.tiled.sorted.1).2.2
  have hy : ∀ y ∈ ys, y.2 ≤ x := fun y hm => (hsorted y hm b (by simp)).le.trans hb
  rw [List.append_assoc, List.cons_append, search_below hy hb]
  cases zs with
  | cons z zs =>
    rw [List.cons_append, search, if_pos (hz z (by simp))]
  | nil =>
    have hstop : stop = some b.1 := by simp [h.stop]
    cases ds with
    | nil => exact hstop
    | cons d ds =>
      rw [List.nil_append, search]
      by_cases hlt : x < d.2
      · rw [if_pos hlt]
      · rw [if_neg hlt, search_all fun e he => ?_, hstop]
        rw [h.dead_eq he (List.mem_cons_self : d ∈ d :: ds)]
        exact Nat.le_of_not_lt hlt

/-- Every number has a live bucket. -/
theorem Grid.owner (h : Grid stop xs ds) (x : ℕ) :
    ∃ ys b zs, xs = ys ++ b :: zs ∧ b.2 ≤ x ∧ ∀ z ∈ zs, x < z.2 := by
  have hx : nextStart Prod.snd xs 0 ≤ x := h.first.le.trans (Nat.zero_le x)
  exact exists_owner h.tiled.sorted.1 h.nonempty hx

/-- Halving a live bucket; behind the last one only if there are no dead ones. -/
theorem Grid.insert (h : Grid stop (ys ++ b :: zs) ds)
    (hk : Block (k + 1) b.2 (nextStart Prod.snd zs (2 ^ 160))) (hd : d.2 = b.2 + 2 ^ k)
    (hz : zs = [] → ds = []) :
    Grid (if zs = [] then some d.1 else stop) (ys ++ b :: d :: zs) ds := by
  have hfirst : nextStart Prod.snd (ys ++ b :: d :: zs) 0 = 0 := by
    have hf := h.first
    rw [nextStart_append] at hf ⊢
    exact hf
  have htiled := h.tiled.insert hk hd
  cases zs with
  | nil =>
    obtain rfl := hz rfl
    exact ⟨by simp, hfirst, htiled, by simp, by simp⟩
  | cons z zs =>
    have hlast : (ys ++ b :: d :: z :: zs).getLast? = (ys ++ b :: z :: zs).getLast? := by
      simp only [List.getLast?_append, List.getLast?_cons_cons]
    refine ⟨by simp, hfirst, htiled, ?_, ?_⟩
    · rw [if_neg (by simp), hlast, h.stop]
    · rw [hlast]
      exact h.dead

/-- A split of the last of several buckets adds a dead one. -/
theorem Grid.stall (h : Grid stop (ys ++ [b]) ds) (hk : Block (k + 1) b.2 (2 ^ 160))
    (hd : d.2 = b.2 + 2 ^ k) : Grid stop (ys ++ [b]) (d :: ds) := by
  refine ⟨h.nonempty, h.first, h.tiled, h.stop, fun e he => ?_⟩
  rcases List.mem_cons.mp he with rfl | he
  · exact ⟨b, k, by simp, hk, hd⟩
  · exact h.dead e he

end Grid

/-! ## Shaped tables -/

/-- A table with the live cells `cs` and the dead cells `ds`. -/
structure Shaped (t : Table) (cs ds : List Cell) : Prop where
  sound : Sound t
  parts : cells t = cs ++ ds
  grid : Grid t.stop (slots cs) (slots ds)

/-- Every node is stored in the bucket that a search for its id returns. -/
def Placed (t : Table) : Prop := ∀ c ∈ cells t, ∀ x ∈ c.nodes, select t x.2.id = some c.ptr

/-- The bucket of an id: where its cell stands, and the bounds of its block. -/
structure Owns (cs cs₁ : List Cell) (c : Cell) (cs₂ : List Cell) (id : Id) : Prop where
  split : cs = cs₁ ++ c :: cs₂
  le : c.id.val ≤ id.val
  lt : ∀ d ∈ cs₂, id.val < d.id.val

section Shaped
variable {t : Table} {cs ds cs₁ cs₂ : List Cell} {c : Cell}

theorem Shaped.owner (h : Shaped t cs ds) (id : Id) :
    ∃ cs₁ c cs₂, Owns cs cs₁ c cs₂ id := by
  obtain ⟨ys, b, zs, hslots, hb, hz⟩ := h.grid.owner id.val
  obtain ⟨cs₁, cs', rfl, rfl, hcs'⟩ := List.map_eq_append_iff.mp hslots
  obtain ⟨c, cs₂, rfl, rfl, rfl⟩ := List.map_eq_cons_iff.mp hcs'
  exact ⟨cs₁, c, cs₂, rfl, hb, fun d hd => hz _ (List.mem_map_of_mem hd)⟩

theorem Shaped.select_eq (h : Shaped t cs ds) {id : Id} (ho : Owns cs cs₁ c cs₂ id) :
    select t id = some c.ptr := by
  have hgrid := h.grid
  rw [ho.split, slots_append, slots_cons] at hgrid
  rw [select, h.parts, ho.split, slots_append, slots_append, slots_cons]
  refine hgrid.search_eq (b := c.slot) ho.le ?_
  intro z hz
  obtain ⟨d, hd, rfl⟩ := List.mem_map.mp hz
  exact ho.lt d hd

theorem Shaped.cells_eq (h : Shaped t cs ds) {id : Id} (ho : Owns cs cs₁ c cs₂ id) :
    cells t = cs₁ ++ c :: (cs₂ ++ ds) := by
  rw [h.parts, ho.split, List.append_assoc, List.cons_append]

theorem Shaped.nodup (h : Shaped t cs ds) : ((cs ++ ds).map Cell.ptr).Nodup :=
  h.parts ▸ h.sound.nodup

/-- A cell that a search returns is the owner of the id. -/
theorem Shaped.owns (h : Shaped t cs ds) {id : Id} (hc : c ∈ cs ++ ds)
    (hs : select t id = some c.ptr) : ∃ cs₁ cs₂, Owns cs cs₁ c cs₂ id := by
  obtain ⟨cs₁, d, cs₂, ho⟩ := h.owner id
  have hptr : c.ptr = d.ptr := Option.some.inj (hs.symm.trans (h.select_eq ho))
  have hd : d ∈ cs ++ ds := by simp [ho.split]
  have hcd : c = d := List.inj_on_of_nodup_map h.nodup hc hd hptr
  exact ⟨cs₁, cs₂, hcd ▸ ho⟩

/-- Other cells have other addresses. -/
theorem Shaped.ptr_ne (h : Shaped t (cs₁ ++ c :: cs₂) ds) :
    ∀ d ∈ cs₁ ++ cs₂ ++ ds, d.ptr ≠ c.ptr := by
  have hn := h.nodup
  rw [List.append_assoc, List.cons_append, List.map_append, List.map_cons, List.nodup_middle,
    ← List.map_append, ← List.append_assoc, List.nodup_cons] at hn
  intro d hd he
  exact hn.1 (List.mem_map.mpr ⟨d, hd, he⟩)

/-- The owner at a known place. -/
theorem Shaped.owns_at (h : Shaped t (cs₁ ++ c :: cs₂) ds) {id : Id}
    (hs : select t id = some c.ptr) : Owns (cs₁ ++ c :: cs₂) cs₁ c cs₂ id := by
  obtain ⟨ds₁, ds₂, ho⟩ := h.owns (by simp) hs
  have hnot : ∀ d ∈ cs₁ ++ cs₂, d ≠ c := fun d hd he =>
    h.ptr_ne d (List.mem_append_left _ hd) (congrArg Cell.ptr he)
  have hleft : c ∉ cs₁ := fun hm => hnot c (List.mem_append_left _ hm) rfl
  have hright : c ∉ cs₂ := fun hm => hnot c (List.mem_append_right _ hm) rfl
  obtain ⟨rfl, -, rfl⟩ := (List.append_cons_inj_of_notMem hleft hright).mp ho.split
  exact ho

/-- The end of the block of a live cell. -/
def endOf (cs₂ : List Cell) : ℕ := nextStart Prod.snd (slots cs₂) (2 ^ 160)

theorem Shaped.block (h : Shaped t (cs₁ ++ c :: cs₂) ds) : ∃ k, Block k c.id.val (endOf cs₂) := by
  have ht := h.grid.tiled
  rw [slots_append, slots_cons] at ht
  exact ht.block

theorem Shaped.endOf_le (h : Shaped t (cs₁ ++ c :: cs₂) ds) : endOf cs₂ ≤ 2 ^ 160 := by
  cases cs₂ with
  | nil => exact le_rfl
  | cons d cs₂ =>
    exact (h.grid.tiled.sorted.2 d.slot (List.mem_map_of_mem (by simp))).le

theorem Owns.lt_end {id : Id} (ho : Owns cs cs₁ c cs₂ id) : id.val < endOf cs₂ := by
  cases cs₂ with
  | nil => exact id.val_lt
  | cons d cs₂ => exact ho.lt d (by simp)

/-! ## Splitting a shaped table -/

/-- The nodes of `c` dealt between its successor `c'` and the new cell `d'`. -/
structure Dealt (c c' d' : Cell) : Prop where
  ptr : c'.ptr = c.ptr
  id : c'.id = c.id
  nodes : (c'.nodes.map Prod.snd ++ d'.nodes.map Prod.snd).Perm (c.nodes.map Prod.snd)

/-- A split of the last of several buckets leaves `stop` in front of the new bucket. -/
def Stalls (cs₁ cs₂ ds : List Cell) : Prop := cs₂ = [] ∧ ¬ (cs₁ = [] ∧ ds = [])

theorem Shaped.stop_of_last (h : Shaped t (cs₁ ++ [c]) ds) : t.stop = some c.ptr := by
  have hstop := h.grid.stop
  simpa [slots, Cell.slot] using hstop

/-- `stop` is the last live bucket. -/
theorem Shaped.stop_iff (h : Shaped t (cs₁ ++ c :: cs₂) ds) : t.stop = some c.ptr ↔ cs₂ = [] := by
  constructor
  · intro hstop
    rcases List.eq_nil_or_concat' cs₂ with rfl | ⟨es, e, rfl⟩
    · rfl
    · have hsplit : cs₁ ++ c :: (es ++ [e]) = (cs₁ ++ c :: es) ++ [e] := by simp
      have hlast : t.stop = some e.ptr := (hsplit ▸ h).stop_of_last
      rw [hlast] at hstop
      exact absurd (Option.some.inj hstop) (h.ptr_ne e (by simp))
  · rintro rfl
    exact h.stop_of_last

theorem Shaped.blockEnd_eq (h : Shaped t (cs₁ ++ c :: cs₂) ds) :
    blockEnd t.stop c (cs₂ ++ ds) = endOf cs₂ := by
  cases cs₂ with
  | nil =>
    rw [blockEnd, if_pos h.stop_of_last]
    rfl
  | cons e cs₂ =>
    rw [blockEnd, if_neg]
    · rfl
    · rw [h.stop_iff]
      simp

/-- The live and dead cells right after the new bucket `d` is linked. -/
theorem Shaped.grid_split (h : Shaped t (cs₁ ++ c :: cs₂) ds) {d : Cell} {k : ℕ}
    (hk : Block (k + 1) c.id.val (endOf cs₂)) (hd : d.id.val = c.id.val + 2 ^ k) :
    (Stalls cs₁ cs₂ ds → Grid t.stop (slots (cs₁ ++ [c])) (slots (d :: ds))) ∧
      (¬ Stalls cs₁ cs₂ ds → Grid (if cs₁ = [] ∧ cs₂ ++ ds = [] then some d.ptr else t.stop)
        (slots (cs₁ ++ c :: d :: cs₂)) (slots ds)) := by
  have hgrid := h.grid
  rw [slots_append, slots_cons] at hgrid
  constructor
  · rintro ⟨rfl, -⟩
    rw [slots_append, slots_cons, slots_cons, slots_nil]
    exact hgrid.stall (d := d.slot) hk hd
  · intro hns
    have hz : slots cs₂ = [] → slots ds = [] := by
      intro hnil
      by_contra hds
      refine hns ⟨slots_eq_nil.mp hnil, fun hall => hds ?_⟩
      rw [hall.2]
      rfl
    have hins := hgrid.insert (d := d.slot) hk hd hz
    have hstop : (if slots cs₂ = [] then some d.slot.1 else t.stop) =
        if cs₁ = [] ∧ cs₂ ++ ds = [] then some d.ptr else t.stop := by
      by_cases hnil : cs₂ = []
      · have hall : cs₁ = [] ∧ ds = [] := by
          by_contra hno
          exact hns ⟨hnil, hno⟩
        rw [hnil, hall.1, hall.2]
        rfl
      · rw [if_neg fun he => hnil (slots_eq_nil.mp he), if_neg]
        exact fun he => hnil (List.append_eq_nil_iff.mp he.2).1
    rw [← hstop, slots_append, slots_cons, slots_cons]
    exact hins

/-- Dead cells hold no nodes. -/
theorem Shaped.dead_nodes (h : Shaped t cs ds) (hp : Placed t) : ∀ d ∈ ds, d.nodes = [] := by
  intro d hd
  by_contra hne
  obtain ⟨x, hx⟩ := List.exists_mem_of_ne_nil _ hne
  have hmem : d ∈ cs ++ ds := List.mem_append_right _ hd
  obtain ⟨cs₁, cs₂, ho⟩ := h.owns hmem (hp d (h.parts ▸ hmem) x hx)
  have hd' : d ∈ cs₁ ++ cs₂ ++ ds := List.mem_append_right _ hd
  exact (ho.split ▸ h).ptr_ne d hd' rfl

/-- After the new bucket `d` is linked, an id of the block of `c` belongs to `c` or `d`. -/
theorem Shaped.search_split (h : Shaped t (cs₁ ++ c :: cs₂) ds) {d : Cell} {k : ℕ} {id : Id}
    (hk : Block (k + 1) c.id.val (endOf cs₂)) (hd : d.id.val = c.id.val + 2 ^ k)
    (ho : Owns (cs₁ ++ c :: cs₂) cs₁ c cs₂ id) :
    let found := search (if cs₁ = [] ∧ cs₂ ++ ds = [] then some d.ptr else t.stop) id.val
      (slots (cs₁ ++ c :: d :: (cs₂ ++ ds)))
    found = some c.ptr ∨ ¬ Stalls cs₁ cs₂ ds ∧ found = some d.ptr := by
  intro found
  obtain ⟨hstall, hlive⟩ := h.grid_split hk hd
  have hlt : ∀ z ∈ slots cs₂, id.val < z.2 := by
    intro z hz
    obtain ⟨e, he, rfl⟩ := List.mem_map.mp hz
    exact ho.lt e he
  by_cases hst : Stalls cs₁ cs₂ ds
  · have hgrid := hstall hst
    obtain ⟨rfl, hne⟩ := hst
    rw [slots_append, slots_cons, slots_nil] at hgrid
    have hfound := hgrid.search_eq (b := c.slot) ho.le (List.forall_mem_nil _)
    refine .inl (Eq.trans ?_ hfound)
    simp [found, hne]
  · have hgrid := hlive hst
    by_cases hid : id.val < d.id.val
    · rw [slots_append, slots_cons] at hgrid
      have hlt' : ∀ z ∈ slots (d :: cs₂), id.val < z.2 := by
        intro z hz
        rcases List.mem_cons.mp hz with rfl | hz
        · exact hid
        · exact hlt z hz
      refine .inl (Eq.trans ?_ (hgrid.search_eq (b := c.slot) ho.le hlt'))
      simp [found]
    · have hsplit : cs₁ ++ c :: d :: cs₂ = (cs₁ ++ [c]) ++ d :: cs₂ := by simp
      rw [hsplit, slots_append, slots_cons] at hgrid
      have hfound := hgrid.search_eq (b := d.slot) (Nat.le_of_not_lt hid) hlt
      refine .inr ⟨hst, Eq.trans ?_ hfound⟩
      simp [found]

/-- The nodes of a bucket are dealt between two cells if each selects one of them. -/
theorem Receives.dealt {sel : Node → Option Ptr} {c' d d' : Cell}
    (hc : Receives sel (c.nodes.map Prod.snd) { c with nodes := [] } c')
    (hd : Receives sel (c.nodes.map Prod.snd) d d') (hempty : d.nodes = [])
    (hne : c.ptr ≠ d.ptr)
    (htarget : ∀ x ∈ c.nodes, sel x.2 = some c.ptr ∨ sel x.2 = some d.ptr) : Dealt c c' d' := by
  refine ⟨hc.ptr, hc.id, ?_⟩
  rw [hc.nodes_eq rfl, hd.nodes_eq hempty]
  have hother : (c.nodes.map Prod.snd).filter (fun n => sel n = some d.ptr) =
      (c.nodes.map Prod.snd).filter (fun n => ! decide (sel n = some c.ptr)) := by
    refine List.filter_congr fun n hn => ?_
    obtain ⟨x, hx, rfl⟩ := List.mem_map.mp hn
    rcases htarget x hx with hx | hx
    · simp [hx, hne]
    · simp [hx, Ne.symm hne]
  rw [hother]
  exact List.filter_append_perm _ _

/-- A node that goes to `c` or to a new cell goes to no other one. -/
theorem Shaped.not_target (h : Shaped t (cs₁ ++ c :: cs₂) ds) {e : Cell}
    (he : e ∈ cs₁ ++ (cs₂ ++ ds)) {found : Option Ptr}
    (hfound : found = some c.ptr ∨ found = some t.fresh) : found ≠ some e.ptr := by
  rcases hfound with rfl | rfl
  · rw [← List.append_assoc] at he
    exact fun heq => h.ptr_ne e he (Option.some.inj heq).symm
  · have hmem : e ∈ cells t := by
      rw [h.parts]
      simp only [List.mem_append, List.mem_cons] at he ⊢
      tauto
    exact fun heq => (h.sound.ptr_lt hmem).ne (Option.some.inj heq).symm

/-- What `bckt_split` does to a bucket that it can halve. -/
theorem Shaped.split_full (h : Shaped t (cs₁ ++ c :: cs₂) ds) (hp : Placed t) {own : Id}
    (hs : select t own = some c.ptr) (hlen : 8 < c.nodes.length) {k : ℕ}
    (hk : Block (k + 1) c.id.val (endOf cs₂)) :
    ∃ t' c' d', bcktSplit t own = .ok (t', true) ∧ Dealt c c' d' ∧
      d'.id.val = c.id.val + 2 ^ k ∧ cells t' = cs₁ ++ c' :: d' :: (cs₂ ++ ds) ∧
      (Stalls cs₁ cs₂ ds → d'.nodes = [] ∧ Shaped t' (cs₁ ++ [c']) (d' :: ds)) ∧
      (¬ Stalls cs₁ cs₂ ds → Shaped t' (cs₁ ++ c' :: d' :: cs₂) ds) ∧
      (∀ e, e = c' ∨ e = d' → ∀ x ∈ e.nodes, select t' x.2.id = some e.ptr) := by
  have hcells : cells t = cs₁ ++ c :: (cs₂ ++ ds) := by simp [h.parts]
  have hlast : cs₂ ++ ds = [] → t.stop = some c.ptr := by
    intro hnil
    obtain ⟨rfl, rfl⟩ := List.append_eq_nil_iff.mp hnil
    exact h.stop_of_last
  have hend := h.blockEnd_eq
  rcases bcktComputeId_eq h.sound hcells hlast (hend.symm ▸ hk) (hend.symm ▸ h.endOf_le) with
    ⟨hk₀, -⟩ | ⟨j, id_new, hj, hcomp, hnew⟩
  · exact absurd hk₀ (Nat.succ_ne_zero k)
  obtain rfl := Nat.succ.inj hj
  let d : Cell := ⟨t.fresh, id_new, []⟩
  let stop := if cs₁ = [] ∧ cs₂ ++ ds = [] then some t.fresh else t.stop
  let cs := cs₁ ++ { c with nodes := [] } :: d :: (cs₂ ++ ds)
  let sel : Node → Option Ptr := fun n => search stop n.id.val (slots cs)
  have hfresh : c.ptr ≠ t.fresh := (h.sound.ptr_lt (by simp [hcells])).ne
  have hslots : slots cs = slots (cs₁ ++ c :: d :: (cs₂ ++ ds)) := by
    simp [cs, Cell.slot]
  have htarget : ∀ x ∈ c.nodes, sel x.2 = some c.ptr ∨
      ¬ Stalls cs₁ cs₂ ds ∧ sel x.2 = some t.fresh := by
    intro x hx
    have ho := h.owns_at (hp c (by simp [hcells]) x hx)
    have hfound := h.search_split (d := d) hk hnew ho
    rw [← hslots] at hfound
    exact hfound
  have hfound : ∀ x ∈ c.nodes, ∃ e ∈ slots cs, sel x.2 = some e.1 := by
    intro x hx
    rcases htarget x hx with hc | ⟨-, hd⟩
    · exact ⟨c.slot, by simp [cs, Cell.slot], hc⟩
    · exact ⟨d.slot, by simp [cs], hd⟩
  obtain ⟨t', hsplit, hsound, hstop, hrec⟩ := bcktSplit_cells h.sound hcells hs hlen hcomp
    (rfl : stop = _) (rfl : cs = _) (fun n => rfl) hfound
  have hkeep : ∀ e ∈ cs₁ ++ (cs₂ ++ ds), ∀ n ∈ c.nodes.map Prod.snd, sel n ≠ some e.ptr := by
    intro e he n hn
    obtain ⟨x, hx, rfl⟩ := List.mem_map.mp hn
    exact h.not_target he ((htarget x hx).imp_right And.right)
  obtain ⟨c', d', hbs', hc', hd'⟩ := receives_pair hrec hkeep
  have hsel : ∀ id, select t' id = search stop id.val (slots cs) := by
    intro id
    rw [select, hstop, receives_slots hrec]
  have hslotc : c'.slot = c.slot := hc'.slot_eq
  have hslotd : d'.slot = d.slot := hd'.slot_eq
  have hidd : d'.id.val = c.id.val + 2 ^ k := by rw [hd'.id]; exact hnew
  have hdealt : Dealt c c' d' := hc'.dealt hd' rfl hfresh fun x hx =>
    (htarget x hx).imp_right And.right
  obtain ⟨hstall, hlive⟩ := h.grid_split (d := d) hk hnew
  refine ⟨t', c', d', hsplit, hdealt, hidd, hbs', fun hst => ?_, fun hns => ?_, ?_⟩
  · -- No node reaches the new bucket, which `stop` cuts off.
    have hnone : ∀ n ∈ c.nodes.map Prod.snd, sel n ≠ some d.ptr := by
      intro n hn
      obtain ⟨x, hx, rfl⟩ := List.mem_map.mp hn
      rw [(htarget x hx).resolve_right fun hd => hd.1 hst]
      exact fun he => hfresh (Option.some.inj he)
    have hgrid := hstall hst
    obtain ⟨rfl, hne⟩ := hst
    have hst' : t'.stop = t.stop := by
      rw [hstop]
      simp [stop, hne]
    refine ⟨by rw [hd'.eq_of_none hnone], hsound, by rw [hbs']; simp, ?_⟩
    rw [slots_append, slots_cons, slots_cons, hslotc, hslotd, hst']
    rwa [slots_append, slots_cons, slots_cons] at hgrid
  · have hgrid := hlive hns
    refine ⟨hsound, by rw [hbs']; simp, ?_⟩
    rw [slots_append, slots_cons, slots_cons, hslotc, hslotd, hstop]
    rwa [slots_append, slots_cons, slots_cons] at hgrid
  · rintro e (rfl | rfl) x hx
    · rw [hsel]
      exact hc'.selected rfl hx
    · rw [hsel]
      exact hd'.selected rfl hx

end Shaped
end Masala.Routing
