import Masala.Daemon.Moved

/-!
# Asking nodes

What lookups and announcements have in common: a set of the nodes they have
asked, a first round over the nodes of a bucket, and one message to each node
that they ask.
-/
namespace Masala.Daemon
open Library Container Bencode Routing Session

/-! ## The nodes that have been asked -/

/-- List and hash of the set hold these ids, in the order in which they were asked. -/
def Asks (asked : Asked) (ids : List Id) : Prop :=
  ∃ xs, Registered idKey asked xs ∧ xs.map Prod.snd = ids

def askedIds (asked : Asked) : List Id := asked.list.items.map Prod.snd

section Asked
variable {asked : Asked} {ids : List Id} {x : Id}

theorem Asks.askedIds_eq (h : Asks asked ids) : askedIds asked = ids := by
  obtain ⟨xs, hreg, rfl⟩ := h
  rw [askedIds, hreg.items_eq]

theorem asks_init : Asks ⟨listInit, hashInit 100⟩ [] := ⟨[], registered_init 100, rfl⟩

theorem idKey_ne_of_not_mem {xs : List (Ptr × Id)} (hx : x ∉ xs.map Prod.snd) :
    ∀ y ∈ xs, idKey y.2 ≠ idKey x := by
  intro y hy he
  rw [← Octets.bytes_injective.mp he] at hx
  exact hx (List.mem_map_of_mem hy)

theorem Asks.exists_eq (h : Asks asked ids) (x : Id) :
    hashExists (asked.list.look idKey) asked.hash x.bytes = .ok (decide (x ∈ ids)) := by
  obtain ⟨xs, hreg, rfl⟩ := h
  by_cases hx : x ∈ xs.map Prod.snd
  · obtain ⟨y, hy, rfl⟩ := List.mem_map.mp hx
    have hget : hashGet (asked.list.look idKey) asked.hash y.2.bytes = .ok (some y.1) :=
      hreg.get_present hy
    rw [hashExists, hget, decide_eq_true hx]
    rfl
  · have hget : hashGet (asked.list.look idKey) asked.hash x.bytes = .ok none :=
      hreg.get_absent (idKey_ne_of_not_mem hx)
    rw [hashExists, hget, decide_eq_false hx]
    rfl

/-- A node that has not been asked is remembered behind the others. -/
theorem Asks.remember (h : Asks asked ids) (hx : x ∉ ids) :
    ∃ asked', remember asked x = .ok asked' ∧ Asks asked' (ids ++ [x]) := by
  obtain ⟨xs, hreg, rfl⟩ := h
  obtain ⟨list, hash, hlist, hhash, hreg'⟩ := hreg.put (idKey_ne_of_not_mem hx)
  have hsize : (idKey x).length = SHA_DIGEST_LENGTH := x.size_eq
  rw [hsize] at hhash
  refine ⟨⟨list, hash⟩, ?_, _, hreg', by rw [List.map_append, List.map_singleton]⟩
  rw [Daemon.remember, hlist, exec_ok_bind]
  dsimp only
  rw [hhash]
  rfl

/-- Remembering a node in a record of a list. -/
theorem Asks.remember_at {ρ : Type} {keyOf : ρ → Bytes} {r : Registry ρ} {ys zs : List (Ptr × ρ)}
    {p : Ptr} {v : ρ} (h : Registered keyOf r (ys ++ (p, v) :: zs)) (ha : Asks asked ids)
    (hx : x ∉ ids) (update : Asked → ρ) (hkey : ∀ asked, keyOf (update asked) = keyOf v) :
    ∃ asked' list, Daemon.remember asked x = .ok asked' ∧
      r.list.setVal (some p) (update asked') = .ok list ∧ Asks asked' (ids ++ [x]) ∧
      Registered keyOf ⟨list, r.hash⟩ (ys ++ (p, update asked') :: zs) ∧
      list.fresh = r.list.fresh := by
  obtain ⟨asked', hrem, hasked⟩ := ha.remember hx
  obtain ⟨list, hset, hreg⟩ := h.setVal (hkey asked')
  exact ⟨asked', list, hrem, hset, hasked, hreg, setVal_fresh hset⟩

end Asked

/-! ## The first nodes -/

/-- The nodes that are asked at once: the first eight of the bucket for an id. -/
def firstNodes (m : Main) (id : Id) : List Routing.Node :=
  match bcktFindAnyMatch m.nbhd id with
  | .ok (some item_b) =>
    match m.nbhd.item (some item_b) with
    | .ok b => (b.val.nodes.items.map Prod.snd).take 8
    | .error _ => []
  | _ => []

section FirstNodes
variable {m : Main} {id : Id}

theorem askNodes_eq {nodes : ObjList Routing.Node} {ys zs : List (Ptr × Routing.Node)}
    (h : Linked nodes (ys ++ zs)) (ask : Routing.Node → Main → Exec Main) {k : ℕ}
    (hk : k ≤ zs.length) (m : Main) : askNodes nodes ask k (firstPtr zs none) m =
      ((zs.map Prod.snd).take k).foldlM (fun m n => ask n m) m := by
  induction k generalizing ys zs m with
  | zero => rfl
  | succ k ih =>
    cases zs with
    | nil => simp at hk
    | cons z zs =>
      obtain ⟨p, n⟩ := z
      have hrest : Linked nodes ((ys ++ [(p, n)]) ++ zs) := by simpa using h
      rw [firstPtr_cons, askNodes, h.item_eq, exec_ok_bind, List.map_cons, List.take_succ_cons,
        List.foldlM_cons]
      refine congrArg (ask n m >>= ·) (funext fun m' => ?_)
      rw [h.next_eq, exec_ok_bind]
      exact ih hrest (Nat.le_of_succ_le_succ hk) m'

/-- `askBucket` asks the first nodes, one after the other. -/
theorem InOrder.askBucket_eq (hm : InOrder m) (ask : Routing.Node → Main → Exec Main) {m' : Main}
    (h : askBucket id ask m = .ok m') :
    (firstNodes m id).foldlM (fun m n => ask n m) m = .ok m' := by
  obtain ⟨cs, ds, hr⟩ := hm.routed
  rw [askBucket] at h
  obtain ⟨r, hany, h⟩ := exec_bind_eq_ok.mp h
  rw [firstNodes, hany]
  cases r with
  | none => exact h
  | some item_b =>
    obtain ⟨cs₁, c, cs₂, hcells, rfl, -⟩ := hr.findAny id _ hany item_b rfl
    obtain ⟨b, prev, hitem, -, hholds⟩ := hr.sound.item_eq hcells
    dsimp only at h ⊢
    rw [hitem] at h ⊢
    rw [exec_ok_bind] at h
    have hlinked : Linked b.nodes ([] ++ c.nodes) := hholds.toLinked
    have hwalk := askNodes_eq hlinked ask (Nat.min_le_right 8 c.nodes.length) m
    have hmax : (if b.nodes.counter < 8 then b.nodes.counter else 8) = min 8 c.nodes.length := by
      rw [hholds.counter]
      split <;> omega
    dsimp only at h ⊢
    rw [hmax, hholds.start, hwalk] at h
    rwa [hholds.items_eq, List.take_eq_take_min, List.length_map]

theorem InOrder.firstNodes_sublist (hm : InOrder m) (id : Id) :
    (firstNodes m id).Sublist (allNodes m.nbhd) := by
  obtain ⟨cs, ds, hr⟩ := hm.routed
  rw [firstNodes]
  split
  · rename_i item_b hany
    obtain ⟨cs₁, c, cs₂, hcells, rfl, -⟩ := hr.findAny id _ hany item_b rfl
    obtain ⟨b, prev, hitem, -, hholds⟩ := hr.sound.item_eq hcells
    rw [hitem]
    dsimp only
    rw [hholds.items_eq, allNodes, hcells, List.flatMap_append, List.flatMap_cons]
    refine (List.take_sublist 8 _).trans (List.Sublist.trans ?_ (List.sublist_append_right _ _))
    exact List.sublist_append_left _ _
  · exact List.nil_sublist _

theorem InOrder.firstNodes_nodup (hm : InOrder m) (id : Id) :
    ((firstNodes m id).map Node.id).Nodup := by
  obtain ⟨cs, ds, hr⟩ := hm.routed
  exact hr.nodup_ids.sublist ((hm.firstNodes_sublist id).map Node.id)

theorem InOrder.firstNodes_foreign (hm : InOrder m) (id : Id) :
    m.conf.node_id ∉ (firstNodes m id).map Node.id := by
  intro hme
  obtain ⟨n, hn, hid⟩ := List.mem_map.mp hme
  exact hm.foreign n ((hm.firstNodes_sublist id).subset hn) hid

end FirstNodes

/-! ## Messages that leave -/

/-- The datagram carries a message of the node to the address. -/
def Carries (node_id : Id) (d : Ip × Bytes) (msg : Ip × Body) : Prop :=
  d.1 = msg.1 ∧ ∃ session_id, d.2 = Message.datagram ⟨node_id, session_id, msg.2⟩

/-- These messages have left, none of them if the socket is closed. -/
structure Sent (m m' : Main) (msgs : List (Ip × Body)) : Prop where
  conf : m'.conf = m.conf
  udp : m'.udp = m.udp
  calls : m'.calls = m.calls
  out : ∃ ds, m'.out = m.out ++ ds ∧
    if m.udp.sockfd < 0 then ds = [] else List.Forall₂ (Carries m.conf.node_id) ds msgs

section Sent
variable {m m' m'' : Main} {msgs msgs' : List (Ip × Body)}

theorem Sent.none (hconf : m'.conf = m.conf) (hudp : m'.udp = m.udp) (hcalls : m'.calls = m.calls)
    (hout : m'.out = m.out) : Sent m m' [] := by
  refine ⟨hconf, hudp, hcalls, [], by rw [hout, List.append_nil], ?_⟩
  by_cases hs : m.udp.sockfd < 0
  · rw [if_pos hs]
  · rw [if_neg hs]
    exact .nil

theorem Sent.refl (m : Main) : Sent m m [] := .none rfl rfl rfl rfl

theorem Sent.trans (h : Sent m m' msgs) (h' : Sent m' m'' msgs') : Sent m m'' (msgs ++ msgs') := by
  obtain ⟨ds, hout, hds⟩ := h.out
  obtain ⟨ds', hout', hds'⟩ := h'.out
  refine ⟨h'.conf.trans h.conf, h'.udp.trans h.udp, h'.calls.trans h.calls, ds ++ ds', ?_, ?_⟩
  · rw [hout', hout, List.append_assoc]
  · rw [h.udp, h.conf] at hds'
    by_cases hs : m.udp.sockfd < 0
    · rw [if_pos hs] at hds hds' ⊢
      rw [hds, hds', List.append_nil]
    · rw [if_neg hs] at hds hds' ⊢
      exact List.rel_append hds hds'

theorem request_sent (sa : Ip) (type : ℤ) (body : Body) (format : String) (args : List LogArg)
    (m : Main) : Ensures (do
      let (session_id, m) ← newSession type m
      return (m.emit sa (Message.datagram ⟨m.conf.node_id, session_id, body⟩)).logInfo format args)
      fun m' => Sent m m' [(sa, body)] := by
  refine (newSession_ensures type m).bind ?_
  rintro ⟨session_id, m₁⟩ ⟨-, cache, rfl⟩
  refine ensures_ok.mpr ?_
  dsimp only [Main.emit, Main.logInfo]
  by_cases hs : m.udp.sockfd < 0
  · rw [if_pos hs]
    exact ⟨rfl, rfl, rfl, [], (List.append_nil _).symm, by rw [if_pos hs]⟩
  · rw [if_neg hs]
    refine ⟨rfl, rfl, rfl, _, rfl, ?_⟩
    rw [if_neg hs]
    exact .cons ⟨rfl, session_id, rfl⟩ .nil

theorem sendLookup_sent (sa : Ip) (node_id lkp_id : Id) (m : Main) :
    Ensures (sendLookup sa node_id lkp_id m) fun m' =>
      Sent m m' [(sa, .lookup lkp_id node_id)] := by
  rw [sendLookup_eq]
  exact request_sent sa SEND_UNICAST _ _ _ m

theorem sendAnnounce_sent (sa : Ip) (lkp_id host_id : Id) (m : Main) :
    Ensures (sendAnnounce sa lkp_id host_id m) fun m' =>
      Sent m m' [(sa, .announce lkp_id host_id)] := by
  rw [sendAnnounce_eq]
  exact request_sent sa SEND_UNICAST _ _ _ m

end Sent

/-! ## The first round -/

/-- Asking the first nodes: each of them is remembered and gets one message. `R` says in which
states a lookup or announcement has asked exactly some ids. -/
theorem InOrder.askBucket_round {m : Main} (hm : InOrder m) (id : Id) {body : Body}
    {R : List Id → Main → Prop} {rem : Id → Main → Exec Main} {send : Ip → Main → Exec Main}
    (hrem : ∀ ids x m, R ids m → x ∉ ids → Ensures (rem x m) fun m' =>
      R (ids ++ [x]) m' ∧ Sent m m' [])
    (hsend : ∀ ids sa m, R ids m → Ensures (send sa m) fun m' =>
      R ids m' ∧ Sent m m' [(sa, body)]) (h : R [] m) :
    Ensures (askBucket id (fun n m => do
      let m ← rem n.id m
      send n.c_addr m) m) fun m' => R ((firstNodes m id).map Node.id) m' ∧
        Sent m m' ((firstNodes m id).map fun n => (n.c_addr, body)) := by
  intro m' hm'
  have hstep : ∀ (done : List Routing.Node) n rest m₁, firstNodes m id = done ++ n :: rest →
      R (done.map Node.id) m₁ ∧ Sent m m₁ (done.map fun n => (n.c_addr, body)) →
      Ensures (do
        let m ← rem n.id m₁
        send n.c_addr m) fun m₂ => R ((done ++ [n]).map Node.id) m₂ ∧
          Sent m m₂ ((done ++ [n]).map fun n => (n.c_addr, body)) := by
    rintro done n rest m₁ hsplit ⟨hR, hsent⟩
    have hnew : n.id ∉ done.map Node.id := by
      have hn := hm.firstNodes_nodup id
      rw [hsplit, List.map_append, List.map_cons] at hn
      exact fun hmem => (List.nodup_append.mp hn).2.2 _ hmem _ List.mem_cons_self rfl
    refine (hrem _ n.id m₁ hR hnew).bind fun m₂ h₂ => (hsend _ n.c_addr m₂ h₂.1).mono ?_
    rintro m₃ ⟨hR₃, hsent₃⟩
    rw [List.map_append, List.map_append]
    exact ⟨hR₃, hsent.trans (h₂.2.trans hsent₃)⟩
  exact ensures_foldlM_history hstep ⟨h, .refl m⟩ m' (hm.askBucket_eq _ hm')

end Masala.Daemon
