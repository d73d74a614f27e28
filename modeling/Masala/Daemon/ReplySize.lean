import Masala.Daemon.Runs
import Masala.Daemon.Delivery

/-!
# The size of NODES replies

A receiver reads at most `UDP_BUF` bytes of a datagram. `send_node` names every
node of the bucket that is not questionable, and no function bounds their
number, so a reply fits exactly if there are at most 24 of them.
-/
namespace Masala.Daemon
open Library Container Bencode Routing Session

/-- The state in which the handler of a request runs: after some events, `p2p_decode` has put the
sender of the packet. -/
def requestState (conf : Conf) (udp : Udp) (time_now : ℤ) (urandom : ℕ → Option Id)
    (random : ℕ → ℕ) (events : List Event) (now : ℤ) (node_id : Id) (sender : Ip) : Exec Main := do
  let m ← nodeRun conf udp time_now urandom random events
  nbhdPut node_id sender (m.tick now)

/-- The bucket that `nbhd_send` chooses for a target. -/
def Chosen (m : Main) (target : Id) (b : Buck) : Prop :=
  ∃ item_b it, bcktFindAnyMatch m.nbhd target = .ok (some item_b) ∧
    m.nbhd.item (some item_b) = .ok it ∧ it.val = b

/-- The datagram that `send_node` builds for the chosen bucket reaches a receiver whole, and
`ben_validate` accepts it there. -/
def ReplyFits (m : Main) (target session_id lkp_id : Id) (reply_type : ReplyType) : Prop :=
  ∀ b, Chosen m target b → ∃ dict raw,
    nodeDict m.conf.node_id b session_id (if reply_type = .F then none else some lkp_id)
      reply_type = .ok dict ∧
    benEnc dict = .ok (some raw) ∧ raw.size ≤ UDP_BUF ∧
    ∃ p, benValidate (udpBuffer raw.code) raw.size = .ok (some p)

/-- The nodes of a bucket that are not questionable. -/
def goodNodes (b : Buck) : List Routing.Node :=
  (b.nodes.items.map Prod.snd).filter fun n => n.pinged = 0

section Reply
variable {m : Main}

/-- The chosen bucket is a cell of the table. -/
theorem InOrder.chosen_cell (hm : InOrder m) {target : Id} {b : Buck} (h : Chosen m target b) :
    ∃ c ∈ cells m.nbhd, Holds b.nodes c.nodes := by
  obtain ⟨cs, ds, hr⟩ := hm.routed
  obtain ⟨item_b, it, hany, hitem, rfl⟩ := h
  obtain ⟨cs₁, c, cs₂, hcells, rfl, -⟩ := hr.findAny target _ hany item_b rfl
  obtain ⟨b, prev, hitem', -, hholds⟩ := hr.sound.item_eq hcells
  obtain rfl := Except.ok.inj (hitem'.symm.trans hitem)
  exact ⟨c, by simp [hcells], hholds⟩

theorem InOrder.chosen_holds (hm : InOrder m) {target : Id} {b : Buck} (h : Chosen m target b) :
    Holds b.nodes b.nodes.items := by
  obtain ⟨c, -, hholds⟩ := hm.chosen_cell h
  exact hholds.items_eq.symm ▸ hholds

theorem InOrder.replyFits_iff (hm : InOrder m) (target session_id lkp_id : Id)
    (reply_type : ReplyType) : ReplyFits m target session_id lkp_id reply_type ↔
      ∀ b, Chosen m target b → (goodNodes b).length ≤ 24 := by
  have hlkp : reply_type = .F ∨ (if reply_type = .F then none else some lkp_id) = some lkp_id := by
    by_cases hF : reply_type = .F
    · exact .inl hF
    · exact .inr (if_neg hF)
  refine forall_congr' fun b => forall_congr' fun hb => ?_
  have hdict := nodeDict_eq (hm.chosen_holds hb) m.conf.node_id session_id lkp_id reply_type hlkp
  let msg : Message := ⟨m.conf.node_id, session_id,
    nodesBody lkp_id (contacts (b.nodes.items.map Prod.snd)) reply_type⟩
  have henc : benEnc msg.tree = .ok (some ⟨msg.datagram, benEncSize msg.tree⟩) := benEnc_eq _
  have hsize : benEncSize msg.tree = msg.datagram.length := benEncSize_eq _
  have hlen : msg.datagram.length = (if reply_type = .F then 65 else 91) +
      57 * (goodNodes b).length := by
    rw [nodes_length, contacts, List.length_map, goodNodes]
  have hfit : msg.datagram.length ≤ UDP_BUF ↔ (goodNodes b).length ≤ 24 := by
    rw [hlen, UDP_BUF]
    by_cases hF : reply_type = .F
    · rw [if_pos hF]
      omega
    · rw [if_neg hF]
      omega
  rw [← hfit]
  constructor
  · rintro ⟨dict, raw, hd, hr, hle, -⟩
    obtain rfl := Except.ok.inj (hdict.symm.trans hd)
    obtain rfl := Option.some.inj (Except.ok.inj (henc.symm.trans hr))
    exact hsize ▸ hle
  · intro hle
    refine ⟨_, _, hdict, henc, hsize.trans_le hle, msg.datagram.length, ?_⟩
    dsimp only
    rw [hsize]
    exact msg.validates

theorem requestState_inOrder (conf : Conf) (udp : Udp) (time_now : ℤ) (urandom : ℕ → Option Id)
    (random : ℕ → ℕ) (events : List Event) (now : ℤ) (node_id : Id) (sender : Ip) :
    Ensures (requestState conf udp time_now urandom random events now node_id sender) InOrder := by
  have hrun := nodeRun_inOrder conf udp time_now urandom random events
  refine hrun.bind fun m hm => ?_
  have htick : Moved m (m.tick now) := ⟨rfl, .refl⟩
  exact (nbhdPut_moved (htick.inOrder hm) node_id sender).mono fun m' h =>
    (htick.trans h).inOrder hm

end Reply

/-- In every run and for every request the reply fits exactly if the chosen bucket has at most 24
nodes that are not questionable. -/
theorem request_replyFits_iff (conf : Conf) (udp : Udp) (time_now : ℤ) (urandom : ℕ → Option Id)
    (random : ℕ → ℕ) (events : List Event) (now : ℤ) (node_id : Id) (sender : Ip) (m : Main)
    (hrun : requestState conf udp time_now urandom random events now node_id sender = .ok m)
    (target session_id lkp_id : Id) (reply_type : ReplyType) :
    ReplyFits m target session_id lkp_id reply_type ↔
      ∀ b, Chosen m target b → (goodNodes b).length ≤ 24 :=
  (requestState_inOrder conf udp time_now urandom random events now node_id sender m
    hrun).replyFits_iff target session_id lkp_id reply_type

/-! ## A crowded neighbourhood -/

/-- `n` PONGs to one multicast PING, from as many nodes. -/
def crowd (n : ℕ) : List Event :=
  .cron 1 ⟨.ok [⟨AF_INET6, Octets.replicate 2 0, 0, Octets.replicate 16 0xff, 0⟩], true, fun _ => 1,
    true⟩ :: (List.range n).map fun k => .packet 1
      (Message.datagram ⟨headId (k + 1).toUInt8, headId 0, .pong⟩) (newNode (headId 0)).c_addr

/-- A node with the last id and given random numbers, after a crowd of `n` and when node `c`
asks. -/
def crowdState (n : ℕ) (c : UInt8) : Exec Main :=
  requestState ⟨headId 0xff, headId 0, none, none⟩ ⟨3, true⟩ 0 (fun k => some (headId k.toUInt8))
    (fun _ => 0) (crowd n) 1 (headId c) (newNode (headId 0)).c_addr

/-- The number of contacts in the reply for a target. -/
def chosenGood (m : Main) (target : Id) : Exec ℕ := do
  let item_b ← bcktFindAnyMatch m.nbhd target
  let b ← m.nbhd.item item_b
  return (goodNodes b.val).length

theorem chosen_of_good {m : Main} {target : Id} {n : ℕ} (h : chosenGood m target = .ok n) :
    (∃ b, Chosen m target b) ∧ ∀ b, Chosen m target b → (goodNodes b).length = n := by
  obtain ⟨item_b, hany, hrest⟩ := exec_bind_eq_ok.mp h
  obtain ⟨it, hitem, hlen⟩ := exec_bind_eq_ok.mp hrest
  constructor
  · cases item_b with
    | none => cases hitem
    | some item_b => exact ⟨it.val, item_b, it, hany, hitem, rfl⟩
  · rintro b ⟨item_b', it', hany', hitem', rfl⟩
    obtain rfl := Except.ok.inj (hany.symm.trans hany')
    obtain rfl := Except.ok.inj (hitem.symm.trans hitem')
    exact Except.ok.inj hlen

/-- A reply with three contacts fits. -/
theorem request_replyFits_three : ∃ m, crowdState 3 0x70 = .ok m ∧
    ReplyFits m (headId 0) (headId 9) (headId 8) .A := by
  have hgood : (do
      let m ← crowdState 3 0x70
      chosenGood m (headId 0)) = .ok 3 := by decide +kernel
  obtain ⟨m, hrun, hm⟩ := exec_bind_eq_ok.mp hgood
  refine ⟨m, hrun, (request_replyFits_iff _ _ _ _ _ _ _ _ _ m hrun _ _ _ _).mpr fun b hb => ?_⟩
  rw [(chosen_of_good hm).2 b hb]
  decide

/-- A reply with twenty-five contacts does not. -/
theorem request_overflow :
    ¬ ∀ conf udp time_now urandom random events now node_id sender m,
      requestState conf udp time_now urandom random events now node_id sender = .ok m →
        ∀ target session_id lkp_id reply_type,
          ReplyFits m target session_id lkp_id reply_type := by
  intro hall
  have hgood : (do
      let m ← crowdState 25 0x70
      chosenGood m (headId 0)) = .ok 25 := by decide +kernel
  obtain ⟨m, hrun, hm⟩ := exec_bind_eq_ok.mp hgood
  have hord := requestState_inOrder _ _ _ _ _ _ _ _ _ m hrun
  have hfits := hall _ _ _ _ _ _ _ _ _ m hrun (headId 0) (headId 9) (headId 8) .F
  obtain ⟨⟨b, hb⟩, hcount⟩ := chosen_of_good hm
  have hle := (hord.replyFits_iff _ _ _ _).mp hfits b hb
  rw [hcount b hb] at hle
  exact absurd hle (by decide)

end Masala.Daemon
