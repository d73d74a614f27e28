import Masala.Routing.Routed
import Masala.Library.Ensures

/-!
# The buckets as a partition of the id space

Runs of puts, deletions and splits from `bckt_init` on. The table stays well
formed as long as no split halves the last of several buckets: `list_ins` does
not move `stop` then, and the new bucket is out of reach of every search.
-/
namespace Masala.Routing
open Library Container

inductive TableOp
  | put (n : Node)
  | del (n : Node)
  | split

def tableStep (own : Id) (t : Table) : TableOp → Exec Table
  | .put n => bcktPut t n
  | .del n => bcktDel t n
  | .split => do
    let (t, _) ← bcktSplit t own
    return t

def tableRun (own : Id) (ops : List TableOp) : Exec Table := do
  let t ← bcktInit
  ops.foldlM (tableStep own) t

theorem tableRun_snoc (own : Id) (ops : List TableOp) (op : TableOp) :
    tableRun own (ops ++ [op]) = tableRun own ops >>= fun t => tableStep own t op := by
  rw [tableRun, tableRun, bind_assoc]
  congr 1
  funext t
  exact foldlM_snoc (tableStep own) t ops op

/-- The bucket list is a chain up to `stop`, its ids start at zero and increase, and every node is
in the bucket with the greatest id that is not above its own. -/
structure WellFormed (t : Table) : Prop where
  chain : Holds t t.items
  nodes : ∀ x ∈ t.items, Holds x.2.nodes x.2.nodes.items
  first : (t.items.head?.map fun x => x.2.id) = some (Octets.replicate SHA_DIGEST_LENGTH 0)
  increasing : t.items.Pairwise fun x y => x.2.id.val < y.2.id.val
  stored : ∀ x ∈ t.items, ∀ n ∈ x.2.nodes.items, x.2.id.val ≤ n.2.id.val ∧
    ∀ y ∈ t.items, y.2.id.val ≤ n.2.id.val → y.2.id.val ≤ x.2.id.val

/-- The own id selects the bucket at `stop`, which is not alone and has more than eight nodes. -/
def Overfull (own : Id) (t : Table) : Prop :=
  2 ≤ t.counter ∧ ∃ q b, bcktFindBestMatch t own = .ok (some q) ∧ t.stop = some q ∧
    t.item (some q) = .ok b ∧ 8 < b.val.nodes.counter

section Routed
variable {t : Table} {cs ds : List Cell}

theorem Shaped.stop_eq (h : Shaped t cs ds) : t.stop = cs.getLast?.map Cell.ptr := by
  rw [h.grid.stop, slots, List.getLast?_map, Option.map_map]
  rfl

/-- Dead buckets stand behind `stop`. -/
theorem Shaped.dead_nil (h : Shaped t cs ds) (hc : Holds t t.items) : ds = [] := by
  rcases List.eq_nil_or_concat' ds with rfl | ⟨es, e, rfl⟩
  · rfl
  rcases List.eq_nil_or_concat' cs with rfl | ⟨as, l, rfl⟩
  · exact absurd rfl h.grid.nonempty
  have hlast := hc.stop
  have hcells : t.items.map cellOf = as ++ [l] ++ (es ++ [e]) := h.parts
  have hptrs : t.items.map Prod.fst = (t.items.map cellOf).map Cell.ptr := by
    rw [List.map_map]
    rfl
  rw [lastPtr_eq, hptrs, hcells, h.stop_of_last, ← List.append_assoc, List.map_append,
    List.map_singleton, List.getLast?_concat] at hlast
  exact absurd (Option.some.inj hlast).symm (h.ptr_ne e (by simp))

theorem Routed.wellFormed (h : Routed t cs []) : WellFormed t := by
  have hcells : t.items.map cellOf = cs := by
    have hp := h.parts
    rwa [List.append_nil] at hp
  have hsorted := h.grid.tiled.sorted.1
  rw [slots, List.pairwise_map] at hsorted
  refine ⟨⟨h.sound.linked, ?_⟩, h.sound.nodes, ?_, ?_, ?_⟩
  · rw [lastPtr_eq, h.stop_eq, ← List.getLast?_map, ← hcells, List.map_map]
    rfl
  · have hfirst := h.grid.first
    have hne := h.grid.nonempty
    rw [← hcells] at hfirst hne
    cases hitems : t.items with
    | nil => simp [hitems] at hne
    | cons x xs =>
      rw [hitems] at hfirst
      have hzero : x.2.id.val = (Octets.replicate SHA_DIGEST_LENGTH 0).val :=
        Eq.trans hfirst (beNat_zeros _).symm
      simp [Octets.val_injective.mp hzero]
  · rw [← hcells, List.pairwise_map] at hsorted
    exact hsorted
  · intro x hx n hn
    have hmem : cellOf x ∈ cs ++ [] := by
      rw [List.append_nil, ← hcells]
      exact List.mem_map_of_mem hx
    obtain ⟨cs₁, cs₂, ho⟩ := h.owns hmem (h.placed _ (h.parts ▸ hmem) n hn)
    refine ⟨ho.le, fun y hy hyn => ?_⟩
    have hymem : cellOf y ∈ cs := hcells ▸ List.mem_map_of_mem hy
    rw [ho.split] at hsorted hymem
    rcases List.mem_append.mp hymem with hy₁ | hy₂
    · exact ((List.pairwise_append.mp hsorted).2.2 _ hy₁ (cellOf x) (by simp)).le
    rcases List.mem_cons.mp hy₂ with heq | hy₂
    · exact (congrArg (fun c => c.id.val) heq).le
    · exact absurd hyn (Nat.not_le.mpr (ho.lt _ hy₂))

theorem Routed.wellFormed_iff (h : Routed t cs ds) : WellFormed t ↔ ds = [] := by
  constructor
  · exact fun hw => h.dead_nil hw.chain
  · rintro rfl
    exact h.wellFormed

theorem Routed.overfull_iff {cs₁ cs₂ : List Cell} {c : Cell} (h : Routed t (cs₁ ++ c :: cs₂) ds)
    {own : Id} (hsel : select t own = some c.ptr) :
    Overfull own t ↔ Stalls cs₁ cs₂ ds ∧ 8 < c.nodes.length := by
  have hcells : cells t = cs₁ ++ c :: (cs₂ ++ ds) := by simp [h.parts]
  obtain ⟨b, prev, hitem, -, hholds⟩ := h.sound.item_eq hcells
  have hcount : t.counter = cs₁.length + (cs₂.length + ds.length + 1) := by
    have hlen := congrArg List.length hcells
    rw [cells, List.length_map, ← h.sound.linked.counter] at hlen
    simpa using hlen
  have hstop := h.stop_iff
  constructor
  · rintro ⟨htwo, q, b', hbest, hq, hitem', hlen⟩
    rw [bcktFindBestMatch_eq h.sound, hsel] at hbest
    obtain rfl := Option.some.inj (Except.ok.inj hbest)
    obtain rfl := hstop.mp hq
    rw [hitem] at hitem'
    obtain rfl := Except.ok.inj hitem'
    rw [hholds.counter] at hlen
    refine ⟨⟨rfl, ?_⟩, hlen⟩
    rintro ⟨rfl, rfl⟩
    simp [hcount] at htwo
  · rintro ⟨⟨rfl, hne⟩, hlen⟩
    refine ⟨?_, c.ptr, _, by rw [bcktFindBestMatch_eq h.sound, hsel], hstop.mpr rfl, hitem, ?_⟩
    · rw [hcount]
      by_contra hlt
      refine hne ⟨List.length_eq_zero_iff.mp ?_, List.length_eq_zero_iff.mp ?_⟩
      · omega
      · omega
    · rw [hholds.counter]
      exact hlen

/-- One step: only a split of an overfull last bucket makes dead buckets. -/
theorem Routed.step (h : Routed t cs ds) (own : Id) (op : TableOp) :
    ∃ t' cs' ds', tableStep own t op = .ok t' ∧ Routed t' cs' ds' ∧
      (ds' = [] ↔ ds = [] ∧ (op = .split → ¬ Overfull own t)) := by
  cases op with
  | put n =>
    obtain ⟨cs₁, c, cs₂, ho, ⟨-, hput⟩ | ⟨-, t', p, hput, h'⟩⟩ := h.put n
    · exact ⟨t, cs, ds, hput, h, by simp⟩
    · exact ⟨t', _, ds, hput, h', by simp⟩
  | del n =>
    obtain ⟨cs₁, c, cs₂, ho, ⟨-, hdel⟩ | ⟨ms₁, x, ms₂, t', -, -, hdel, h'⟩⟩ := h.del n
    · exact ⟨t, cs, ds, hdel, h, by simp⟩
    · exact ⟨t', _, ds, hdel, h', by simp⟩
  | split =>
    obtain ⟨cs₁, c, cs₂, ho⟩ := h.owner own
    have hsel := h.select_eq ho
    obtain rfl := ho.split
    have hover := h.overfull_iff hsel
    rcases h.split hsel with ⟨hlen, hsplit⟩ |
      ⟨hlen, t', c', d', k, hsplit, -, -, -, -, hstall, hlive⟩
    · have hno : ¬ Overfull own t := by
        rw [hover]
        omega
      exact ⟨t, _, ds, by rw [tableStep, hsplit]; rfl, h, by simp [hno]⟩
    · have hstep : tableStep own t .split = .ok t' := by
        rw [tableStep, hsplit]
        rfl
      by_cases hst : Stalls cs₁ cs₂ ds
      · refine ⟨t', _, _, hstep, (hstall hst).2, ?_⟩
        simp [hover, hst, hlen]
      · refine ⟨t', _, _, hstep, hlive hst, ?_⟩
        simp [hover, hst]

/-- No run faults. -/
theorem tableRun_routed (own : Id) (ops : List TableOp) :
    ∃ t cs ds, tableRun own ops = .ok t ∧ Routed t cs ds := by
  obtain ⟨t₀, hinit, h₀⟩ := bcktInit_routed
  have hstep : ∀ (pre : List TableOp) op t, (∃ cs ds, Routed t cs ds) →
      ∃ t', tableStep own t op = .ok t' ∧ ∃ cs ds, Routed t' cs ds := by
    rintro pre op t ⟨cs, ds, h⟩
    obtain ⟨t', cs', ds', hstep, h', -⟩ := h.step own op
    exact ⟨t', hstep, cs', ds', h'⟩
  obtain ⟨t, hrun, cs, ds, h⟩ := foldlM_total hstep ⟨_, _, h₀⟩ ops
  exact ⟨t, cs, ds, by rw [tableRun, hinit, exec_ok_bind, hrun], h⟩

end Routed

/-- Every table of a run is well formed exactly when no split of the run meets an overfull last
bucket. -/
theorem tableRun_wellFormed_iff (own : Id) (ops : List TableOp) :
    (∀ pre, pre <+: ops → ∃ t, tableRun own pre = .ok t ∧ WellFormed t) ↔
      ∀ pre t, pre ++ [.split] <+: ops → tableRun own pre = .ok t → ¬ Overfull own t := by
  constructor
  · intro hall pre t hpre hrun hover
    obtain ⟨t₁, cs, ds, hrun₁, h⟩ := tableRun_routed own pre
    rw [hrun] at hrun₁
    obtain rfl := Except.ok.inj hrun₁
    obtain ⟨t', cs', ds', hstep, h', hds⟩ := h.step own .split
    obtain ⟨t₂, hrun₂, hw⟩ := hall _ hpre
    rw [tableRun_snoc, hrun, exec_ok_bind, hstep] at hrun₂
    obtain rfl := Except.ok.inj hrun₂
    exact (hds.mp (h'.wellFormed_iff.mp hw)).2 rfl hover
  · intro hall pre hpre
    suffices hclean : ∃ t cs, tableRun own pre = .ok t ∧ Routed t cs [] by
      obtain ⟨t, cs, hrun, h⟩ := hclean
      exact ⟨t, hrun, h.wellFormed⟩
    induction pre using List.reverseRecOn with
    | nil =>
      obtain ⟨t, hinit, h⟩ := bcktInit_routed
      exact ⟨t, _, by rw [tableRun, hinit]; rfl, h⟩
    | append_singleton pre op ih =>
      obtain ⟨t, cs, hrun, h⟩ := ih ((List.prefix_append _ _).trans hpre)
      obtain ⟨t', cs', ds', hstep, h', hds⟩ := h.step own op
      obtain rfl : ds' = [] := by
        refine hds.mpr ⟨rfl, ?_⟩
        rintro rfl
        exact hall pre t hpre hrun
      exact ⟨t', cs', by rw [tableRun_snoc, hrun, exec_ok_bind, hstep], h'⟩

/-! ## A run into the overfull last bucket -/

/-- Nine nodes with the highest bit set, then two splits for such an own id. -/
def stallingOps : List TableOp :=
  [0x80, 0x81, 0x82, 0x83, 0x84, 0x85, 0x86, 0x87, 0x88].map (fun c => .put (newNode (headId c))) ++
    [.split, .split]

theorem stallingOps_shape : (tableRun (headId 0xff) stallingOps).map
    (fun t => (t.stop, t.items.map Prod.fst)) = .ok (some 1, [0, 1, 2]) := by rfl

/-- The second split leaves `stop` in front of the last bucket. -/
theorem tableRun_stalls : ¬ ∀ own ops, ∃ t, tableRun own ops = .ok t ∧ WellFormed t := by
  intro hall
  obtain ⟨t, hrun, hw⟩ := hall (headId 0xff) stallingOps
  have hshape := stallingOps_shape
  rw [hrun] at hshape
  injection hshape with hshape
  injection hshape with hstop hitems
  have hlast := hw.chain.stop
  rw [lastPtr_eq, hitems, hstop] at hlast
  cases hlast

end Masala.Routing
