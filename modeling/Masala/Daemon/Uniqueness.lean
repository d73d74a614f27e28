import Masala.Daemon.Runs

/-!
# Unique and findable nodes

Runs of `nbhd_put`, `bckt_del` and single steps of `bckt_split`, after which a
bucket may be dead. In all their tables a node stands where a search for it
looks, so the table is a directory without duplicates and without the own id.
-/
namespace Masala.Daemon
open Library Container Routing

inductive TableCall
  | put (id : Id) (sa : Ip)
  | del (n : Routing.Node)
  | split

def Main.call (m : Main) : TableCall → Exec Main
  | .put id sa => nbhdPut id sa m
  | .del n => do
    let nbhd ← bcktDel m.nbhd n
    return { m with nbhd := nbhd }
  | .split => do
    let (nbhd, _) ← bcktSplit m.nbhd m.conf.node_id
    return { m with nbhd := nbhd }

/-- The node after `main_init` and these calls. -/
def tableCalls (conf : Conf) (udp : Udp) (time_now : ℤ) (urandom : ℕ → Option Id)
    (random : ℕ → ℕ) (calls : List TableCall) : Exec Main := do
  let m ← mainInit conf udp time_now urandom random
  calls.foldlM Main.call m

/-- `bckt_find_node` returns a node with the id if some bucket has one, and NULL otherwise. -/
def Findable (t : Table) (x : Id) : Prop :=
  (bcktFindNode t x = .ok none ∧ ∀ n ∈ allNodes t, n.id ≠ x) ∨
    ∃ item_b item_n b n, bcktFindNode t x = .ok (some (item_b, item_n)) ∧
      t.item (some item_b) = .ok b ∧ b.val.nodes.item (some item_n) = .ok n ∧
      n.val ∈ allNodes t ∧ n.val.id = x

theorem findable_of_routed {t : Table} {cs ds : List Cell} (h : Routed t cs ds) (x : Id) :
    Findable t x := by
  rcases h.findNode x with hnone | ⟨c, p, n, hfind, hc, hp, hid⟩
  · exact .inl hnone
  · obtain ⟨cs₁, cs₂, hcells⟩ := List.append_of_mem hc
    obtain ⟨b, prev, hitem, -, hholds⟩ := h.sound.item_eq hcells
    obtain ⟨ys, zs, hnodes⟩ := List.append_of_mem hp
    rw [hnodes] at hholds
    refine .inr ⟨c.ptr, p, _, _, hfind, hitem, hholds.item_eq, ?_, hid⟩
    exact mem_allNodes.mpr ⟨c, hc, List.mem_map_of_mem hp⟩

theorem ordered_split {own : Id} {t : Table} (h : Ordered own t) :
    ∃ t' b, bcktSplit t own = .ok (t', b) ∧ Ordered own t' ∧ (allNodes t').Perm (allNodes t) := by
  obtain ⟨⟨cs, ds, hr⟩, hown⟩ := h
  obtain ⟨t', cs', ds', b, hsplit, hr', hperm⟩ := hr.split_perm own
  exact ⟨t', b, hsplit, ⟨⟨cs', ds', hr'⟩, fun n hn => hown n (hperm.mem_iff.mp hn)⟩, hperm⟩

theorem call_inOrder {conf : Conf} (m : Main) (c : TableCall) (h : m.conf = conf ∧ InOrder m) :
    Ensures (m.call c) fun m' => m'.conf = conf ∧ InOrder m' := by
  obtain ⟨rfl, hm⟩ := h
  cases c with
  | put id sa => exact (nbhdPut_moved hm id sa).mono fun m' h => ⟨h.conf, h.inOrder hm⟩
  | del n =>
    have hdel : Ensures (bcktDel m.nbhd n) (Change m.conf.node_id m.nbhd) := fun t' ht => .del n ht
    exact hdel.bind fun t' ht => ensures_ok.mpr ⟨rfl, ht.ordered hm⟩
  | split =>
    obtain ⟨t', b, hsplit, h', -⟩ := ordered_split hm
    rw [Main.call, hsplit, exec_ok_bind]
    exact ensures_ok.mpr ⟨rfl, h'⟩

/-- In every state the own id is not stored, no id is stored twice, exactly the stored ids are
found, and a split only moves nodes. -/
theorem tableCalls_directory (conf : Conf) (udp : Udp) (time_now : ℤ) (urandom : ℕ → Option Id)
    (random : ℕ → ℕ) (calls : List TableCall) (m : Main)
    (hrun : tableCalls conf udp time_now urandom random calls = .ok m) :
    (∀ n ∈ allNodes m.nbhd, n.id ≠ conf.node_id) ∧
      ((allNodes m.nbhd).map Node.id).Nodup ∧
      (∀ x, Findable m.nbhd x) ∧
      ∃ t' split, bcktSplit m.nbhd conf.node_id = .ok (t', split) ∧
        (allNodes t').Perm (allNodes m.nbhd) := by
  have hinit := mainInit_ensures conf udp time_now urandom random
  have hall : Ensures (tableCalls conf udp time_now urandom random calls) fun m =>
      m.conf = conf ∧ InOrder m :=
    hinit.bind fun m₀ h₀ => ensures_foldlM call_inOrder ⟨h₀.1, h₀.2.1⟩ calls
  obtain ⟨rfl, hm⟩ := hall m hrun
  obtain ⟨cs, ds, hr⟩ := hm.routed
  obtain ⟨t', split, hsplit, -, hperm⟩ := ordered_split hm
  exact ⟨hm.foreign, hr.nodup_ids, findable_of_routed hr, t', split, hsplit, hperm⟩

/-- Nine nodes, a split and the removal of one of them. -/
def nineCalls : List TableCall :=
  [1, 2, 3, 4, 5, 6, 7, 8, 0x80].map (fun c => .put (headId c) (newNode (headId c)).c_addr) ++
    [.split, .del (newNode (headId 3))]

theorem tableCalls_directory_nine : ∃ m,
    tableCalls ⟨headId 0, headId 0, none, none⟩ ⟨3, true⟩ 0 (fun k => some (headId k.toUInt8))
      (fun k => k) nineCalls = .ok m ∧
    (allNodes m.nbhd).map Node.id = [1, 2, 4, 5, 6, 7, 8, 0x80].map headId ∧
    Findable m.nbhd (headId 3) := by
  have hids : (do
      let m ← tableCalls ⟨headId 0, headId 0, none, none⟩ ⟨3, true⟩ 0
        (fun k => some (headId k.toUInt8)) (fun k => k) nineCalls
      return (allNodes m.nbhd).map Node.id) =
      .ok ([1, 2, 4, 5, 6, 7, 8, 0x80].map headId) := by decide +kernel
  obtain ⟨m, hrun, hm⟩ := exec_bind_eq_ok.mp hids
  obtain ⟨-, -, hfind, -⟩ := tableCalls_directory _ _ _ _ _ _ m hrun
  exact ⟨m, hrun, Except.ok.inj hm, hfind _⟩

end Masala.Daemon
