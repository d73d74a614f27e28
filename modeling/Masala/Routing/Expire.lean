import Masala.Routing.Partition
import Masala.Routing.Directory
import Masala.Library.Sweep

/-!
# The sweep of `nbhd_expire`

The inner loop ends at the live counter of the list it deletes from. So it
stops early once it has deleted a node, and bad nodes near the end of a bucket
survive unless enough good ones stand behind them.
-/
namespace Masala.Routing
open Library Container

/-- A node that has not answered four pings. -/
abbrev Bad (x : Ptr × Node) : Prop := 4 ≤ x.2.pinged

/-- Each bucket of the second table has the nodes of the first one that are not bad, in order, and
no bad node is left. -/
structure Expired (t t' : Table) : Prop where
  sound : Sound t'
  cells : cells t' = (cells t).map fun c => { c with nodes := c.nodes.filter fun x => ¬ Bad x }
  good : ∀ n ∈ allNodes t', n.pinged < 4

section Expire
variable {t : Table} {cs₁ cs₂ : List Cell} {c : Cell}

/-- The nodes of a cell are where a search looks for them, each id once. -/
structure Tidy (t : Table) (c : Cell) : Prop where
  placed : ∀ x ∈ c.nodes, select t x.2.id = some c.ptr
  unique : c.ids.Nodup

theorem Tidy.erase {ys zs : List (Ptr × Node)} {x : Ptr × Node} {t' : Table}
    (h : Tidy t { c with nodes := ys ++ x :: zs }) (hsel : select t' = select t) :
    Tidy t' { c with nodes := ys ++ zs } ∧ ∀ y ∈ ys, y.2.id ≠ x.2.id := by
  have hmem : ∀ y ∈ ys ++ zs, y ∈ ys ++ x :: zs := by
    intro y hy
    rw [List.mem_append, List.mem_cons]
    exact (List.mem_append.mp hy).imp_right .inr
  have hn := h.unique
  rw [Cell.ids, List.map_append, List.map_cons] at hn
  refine ⟨⟨fun y hy => hsel ▸ h.placed y (hmem y hy), ?_⟩, fun y hy he => ?_⟩
  · rw [List.nodup_middle, ← List.map_append] at hn
    exact (List.nodup_cons.mp hn).2
  · exact (List.nodup_append.mp hn).2.2 _ (List.mem_map_of_mem hy) x.2.id (by simp) he

/-- The walk stands in front of the nodes `zs` and has kept `ys`; `j` counts its rounds. -/
theorem expireNodes_eq (ys zs : List (Ptr × Node)) (fuel j : ℕ) (h : Sound t)
    (hc : cells t = cs₁ ++ { c with nodes := ys ++ zs } :: cs₂)
    (ht : Tidy t { c with nodes := ys ++ zs }) (hj : ys.length ≤ j)
    (hf : (ys ++ zs).length - j < fuel) :
    ∃ t', expireNodes (some c.ptr) fuel j (firstPtr zs none) t = .ok t' ∧ Sound t' ∧
      t'.stop = t.stop ∧ cells t' =
        cs₁ ++ { c with nodes := ys ++ sweep Bad ((ys ++ zs).length - j) zs } :: cs₂ := by
  induction zs generalizing t ys fuel j with
  | nil =>
    obtain ⟨b, prev, hitem, -, hholds⟩ := h.item_eq hc
    obtain ⟨fuel, rfl⟩ := Nat.exists_eq_add_one_of_ne_zero (Nat.ne_zero_of_lt hf)
    have hcount : ¬ j < b.nodes.counter := by
      rw [hholds.counter, List.append_nil]
      exact Nat.not_lt.mpr hj
    refine ⟨t, ?_, h, rfl, ?_⟩
    · dsimp only at hitem
      rw [expireNodes, hitem, exec_ok_bind, if_neg hcount, exec_pure]
    · have hnil : sweep Bad ((ys ++ []).length - j) [] = [] := by
        cases (ys ++ []).length - j <;> rfl
      rw [hnil, hc]
  | cons x zs ih =>
    obtain ⟨p, n⟩ := x
    obtain ⟨b, prev, hitem, -, hholds⟩ := h.item_eq hc
    obtain ⟨fuel, rfl⟩ := Nat.exists_eq_add_one_of_ne_zero (Nat.ne_zero_of_lt hf)
    dsimp only at hitem hholds
    rw [expireNodes, hitem, exec_ok_bind, hholds.counter]
    have hlen : (ys ++ (p, n) :: zs).length = ys.length + zs.length + 1 := by simp; omega
    by_cases hlt : j < (ys ++ (p, n) :: zs).length
    · obtain ⟨k, hk⟩ : ∃ k, (ys ++ (p, n) :: zs).length - j = k + 1 :=
        Nat.exists_eq_add_one_of_ne_zero (by omega)
      rw [if_pos hlt, firstPtr_cons, hholds.item_eq, exec_ok_bind, hholds.next_eq, exec_ok_bind,
        hk, sweep]
      by_cases hbad : n.pinged ≥ 4
      · -- a deleted node costs the walk a round and one of the counter
        rw [if_pos hbad, if_pos hbad]
        obtain ⟨t₁, hdel, h₁, hstop, hcells⟩ := h.del_known
          (ht.placed (p, n) (by simp)) hc rfl rfl (ht.erase rfl).2
        have hsel : select t₁ = select t := select_congr hstop (by
          rw [hcells, hc]
          simp [Cell.slot])
        have hk' : (ys ++ zs).length - (j + 1) = k - 1 := by
          rw [List.length_append]
          omega
        obtain ⟨t', hexp, h', hstop', hcells'⟩ := ih ys fuel (j + 1) h₁ hcells
          (ht.erase hsel).1 (by omega) (by omega)
        rw [hk'] at hcells'
        refine ⟨t', ?_, h', hstop'.trans hstop, hcells'⟩
        rw [hdel, exec_ok_bind]
        exact hexp
      · rw [if_neg hbad, if_neg hbad]
        have hsplit : ys ++ (p, n) :: zs = (ys ++ [(p, n)]) ++ zs := by simp
        rw [hsplit] at hc ht hk hf
        obtain ⟨t', hexp, h', hstop', hcells'⟩ := ih _ fuel (j + 1) h hc ht
          (by simp; omega) (by omega)
        rw [show (ys ++ [(p, n)] ++ zs).length - (j + 1) = k by omega] at hcells'
        refine ⟨t', ?_, h', hstop', by simpa using hcells'⟩
        rw [exec_pure, exec_ok_bind]
        exact hexp
    · have hk : (ys ++ (p, n) :: zs).length - j = 0 := Nat.sub_eq_zero_of_le (Nat.not_lt.mp hlt)
      rw [if_neg hlt, hk]
      exact ⟨t, exec_pure t, h, rfl, hc⟩

/-- A cell after the sweep over it. -/
def Cell.swept (c : Cell) : Cell := { c with nodes := sweep Bad c.nodes.length c.nodes }

theorem expireBuckets_eq (h : Sound t) (hc : cells t = cs₁ ++ cs₂) (ht : ∀ c ∈ cs₂, Tidy t c) :
    ∃ t', expireBuckets cs₂.length (headPtr cs₂) t = .ok t' ∧ Sound t' ∧
      cells t' = cs₁ ++ cs₂.map Cell.swept := by
  induction cs₂ generalizing t cs₁ with
  | nil => exact ⟨t, rfl, h, by simpa using hc⟩
  | cons c cs₂ ih =>
    obtain ⟨b, prev, hitem, -, hholds⟩ := h.item_eq hc
    obtain ⟨t₁, hexp, h₁, hstop, hcells⟩ := expireNodes_eq [] _ (b.nodes.counter + 1) 0
      h hc (ht c (by simp)) (Nat.zero_le _) (by rw [hholds.counter]; simp)
    have hsel : select t₁ = select t := select_congr hstop (by
      rw [hcells, hc]
      simp [Cell.slot])
    have hswept : cells t₁ = cs₁ ++ c.swept :: cs₂ := hcells
    have hhead : headPtr (c :: cs₂) = some c.ptr := rfl
    have hnext : listNext t₁ (some c.swept.ptr) = .ok (headPtr cs₂) := h₁.next_eq hswept
    have hptr : c.swept.ptr = c.ptr := rfl
    rw [hptr] at hnext
    rw [← hholds.start] at hexp
    have hrow : cells t₁ = (cs₁ ++ [c.swept]) ++ cs₂ := by rw [hswept, List.append_cons]
    obtain ⟨t', hrest, h', hcells'⟩ := ih h₁ hrow
      fun d hd =>
        ⟨fun x hx => hsel ▸ (ht d (by simp [hd])).placed x hx, (ht d (by simp [hd])).unique⟩
    refine ⟨t', ?_, h', by simpa using hcells'⟩
    rw [List.length_cons, hhead, expireBuckets, hitem, exec_ok_bind, hexp, exec_ok_bind, hnext,
      exec_ok_bind, hrest]

/-- `nbhd_expire` ends, and every bucket is swept by itself. -/
theorem nbhdExpire_eq (h : Sound t) (ht : ∀ c ∈ cells t, Tidy t c) :
    ∃ t', nbhdExpire t = .ok t' ∧ Sound t' ∧ cells t' = (cells t).map Cell.swept := by
  have hcount : t.counter = (cells t).length := by rw [h.linked.counter, cells, List.length_map]
  have hstart : t.start = headPtr (cells t) := by rw [h.linked.start, firstPtr_eq_headPtr, cells]
  rw [nbhdExpire, hcount, hstart]
  exact expireBuckets_eq h (List.nil_append _).symm ht

theorem tidy_of_unique (hp : Placed t) (hu : ((allNodes t).map Node.id).Nodup) :
    ∀ c ∈ cells t, Tidy t c := by
  intro c hc
  refine ⟨hp c hc, ?_⟩
  rw [allNodes, List.map_flatMap, List.nodup_flatMap] at hu
  have hids := hu.1 c hc
  rwa [List.map_map] at hids

end Expire

/-- In a table of unique and findable nodes the sweep removes the bad nodes and no others exactly
if behind each bad node of a bucket stand at least as many nodes as bad ones in front of it. -/
theorem nbhdExpire_expired_iff (t : Table) (h : Sound t) (hp : Placed t)
    (hu : ((allNodes t).map Node.id).Nodup) :
    (∃ t', nbhdExpire t = .ok t' ∧ Expired t t') ↔
      ∀ c ∈ cells t, ∀ ys x zs, c.nodes = ys ++ x :: zs → Bad x → ys.countP Bad ≤ zs.length := by
  obtain ⟨t', hexp, hs, hcells⟩ := nbhdExpire_eq h (tidy_of_unique hp hu)
  have hiff : ∀ c : Cell, c.swept = { c with nodes := c.nodes.filter fun x => ¬ Bad x } ↔
      ∀ ys x zs, c.nodes = ys ++ x :: zs → Bad x → ys.countP Bad ≤ zs.length := by
    intro c
    rw [← visits_length, ← sweep_eq_filter_iff, Cell.swept]
    simp
  constructor
  · rintro ⟨t₁, hexp₁, hexpired⟩ c hc
    obtain rfl := Except.ok.inj (hexp.symm.trans hexp₁)
    have hmap := hexpired.cells
    rw [hcells] at hmap
    exact (hiff c).mp (List.map_inj_left.mp hmap c hc)
  · intro hvisits
    have hmap := hcells.trans (List.map_congr_left fun c hc => (hiff c).mpr (hvisits c hc))
    refine ⟨t', hexp, hs, hmap, fun n hn => ?_⟩
    obtain ⟨d, hd, hnd⟩ := List.mem_flatMap.mp hn
    rw [hmap] at hd
    obtain ⟨c, -, rfl⟩ := List.mem_map.mp hd
    obtain ⟨x, hx, rfl⟩ := List.mem_map.mp hnd
    simpa using (List.mem_filter.mp hx).2

/-- Nodes with these first id bytes and numbers of unanswered pings, put into an empty table. -/
def pingedOps (xs : List (UInt8 × ℕ)) : List TableOp :=
  xs.map fun x => .put { newNode (headId x.1) with pinged := x.2 }

theorem tableRun_tidy (own : Id) (ops : List TableOp) : ∃ t, tableRun own ops = .ok t ∧ Sound t ∧
    Placed t ∧ ((allNodes t).map Node.id).Nodup := by
  obtain ⟨t, cs, ds, hrun, h⟩ := tableRun_routed own ops
  exact ⟨t, hrun, h.sound, h.placed, h.nodup_ids⟩

/-- A bad node with a good one behind it is removed. -/
theorem nbhdExpire_expired_iff_pair : ∃ t t',
    tableRun (headId 0) (pingedOps [(1, 4), (2, 0)]) = .ok t ∧
    nbhdExpire t = .ok t' ∧ Expired t t' := by
  obtain ⟨t, hrun, h, hp, hu⟩ := tableRun_tidy (headId 0) (pingedOps [(1, 4), (2, 0)])
  have hall : (tableRun (headId 0) (pingedOps [(1, 4), (2, 0)])).map (fun t =>
      (cells t).all fun c =>
        sweep Bad c.nodes.length c.nodes = c.nodes.filter fun x => ¬ Bad x) = .ok true := by
    decide +kernel
  rw [hrun] at hall
  have hswept := List.all_eq_true.mp (Except.ok.inj hall)
  obtain ⟨t', hexp, hexpired⟩ := (nbhdExpire_expired_iff t h hp hu).mpr fun c hc =>
    visits_length.mp (sweep_eq_filter_iff.mp (of_decide_eq_true (hswept c hc)))
  exact ⟨t, t', hrun, hexp, hexpired⟩

/-- The second of two bad nodes survives. -/
theorem nbhdExpire_leaves_bad : ¬ ∀ t, Sound t → Placed t → ((allNodes t).map Node.id).Nodup →
    ∃ t', nbhdExpire t = .ok t' ∧ Expired t t' := by
  intro hall
  obtain ⟨t, hrun, h, hp, hu⟩ := tableRun_tidy (headId 0) (pingedOps [(1, 4), (2, 4)])
  obtain ⟨t', hexp, hexpired⟩ := hall t h hp hu
  have hleft : (tableRun (headId 0) (pingedOps [(1, 4), (2, 4)]) >>= nbhdExpire).map
      (fun t => (allNodes t).map Node.pinged) = .ok [4] := by decide +kernel
  rw [hrun, exec_ok_bind, hexp] at hleft
  have hpings : (allNodes t').map Node.pinged = [4] := Except.ok.inj hleft
  have hmem : 4 ∈ (allNodes t').map Node.pinged := hpings ▸ List.mem_singleton_self 4
  obtain ⟨n, hn, hpinged⟩ := List.mem_map.mp hmem
  exact (hexpired.good n hn).ne hpinged

end Masala.Routing
