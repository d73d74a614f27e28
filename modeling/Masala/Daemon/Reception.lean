import Masala.Daemon.Confirmation

/-!
# What a receiver reads in the datagram of another node

A message that fits into the buffer is read as it was meant, and one that is
cut off, by the buffer or on its way, is never taken for another message: no
proper part at the front of a message is accepted.
-/
namespace Masala.Daemon
open Library Container Bencode Routing Session

section Cut
variable (msg : Message)

theorem Message.datagram_head : msg.datagram.head? = some (ch 'd') := by
  rw [Message.datagram, Message.tree, encode]
  rfl

/-- Of all that a message starts with, the validator only accepts the whole message. -/
theorem Message.whole_of_valid {n p : ℕ}
    (h : benValidate (udpBuffer (msg.datagram.take n)) (msg.datagram.take n).length =
      .ok (some p)) : msg.datagram.length ≤ n := by
  let cut := msg.datagram.take n
  have hcut : cut.length ≤ (udpBuffer cut).length := by simp [udpBuffer]
  -- what stands in front of the packet stands in front of the message
  have hfront : ∀ {bs : Bytes}, At (udpBuffer cut) 0 bs → bs.length ≤ cut.length →
      bs <+: msg.datagram := fun hat hle =>
    (List.prefix_of_prefix_length_le (At.zero_iff.mp hat) (List.prefix_append _ _) hle).trans
      (List.take_prefix n _)
  rcases benValidate_sound hcut h with ⟨bs, t, value, hat, hp, hle⟩ | ⟨hle, ds, htrunc, hat, hlen⟩
  · have hwhole := (value_unique (hfront hat (by omega)) List.prefix_rfl value
      (encode_value msg.tree msg.inRange)).1
    have hsame : bs.length = msg.datagram.length := congrArg List.length hwhole
    have htake : cut.length ≤ n := List.length_take_le n _
    omega
  · -- a bare token does not start like a dictionary
    have hhead : ds.head? = some (ch 'd') := by
      obtain ⟨c, rest, rfl⟩ := List.exists_cons_of_length_pos htrunc.length_pos
      obtain ⟨behind, hbehind⟩ := hfront hat (by omega)
      have hc := msg.datagram_head
      rw [← hbehind] at hc
      exact hc
    exact absurd htrunc (not_truncated_of_container (.inl hhead))

/-- A datagram with a message in it decodes to the tree of the message, if it arrives whole. -/
theorem Message.decodes_iff {packet : ObjBen} :
    Decodes msg.datagram packet ↔ msg.datagram.length ≤ UDP_BUF ∧ packet = msg.tree := by
  constructor
  · rintro ⟨-, ⟨p, hvalid⟩, ⟨n, hdec⟩, -⟩
    have hlen := msg.whole_of_valid hvalid
    rw [List.take_of_length_le hlen, msg.decodes (Nat.lt_succ_self _)] at hdec
    simp only [Except.ok.injEq, Prod.mk.injEq, Option.some.injEq] at hdec
    exact ⟨hlen, hdec.1.symm⟩
  · rintro ⟨hlen, rfl⟩
    exact msg.decodes_datagram hlen

/-- A message that has lost any of its last bytes on the way or in the buffer changes nothing but
clock and log. -/
theorem Message.cut_dropped {n : ℕ} (hn : min n UDP_BUF < msg.datagram.length) (now : ℤ)
    (sender : Ip) (m : Main) : ∃ format, udpInput now (msg.datagram.take n) sender m =
      .ok (m.logInfo format []) ∨ udpInput now (msg.datagram.take n) sender m =
      .ok ((m.tick now).logInfo format []) := by
  rw [udpInput, List.take_take]
  by_cases hlen : (msg.datagram.take (min UDP_BUF n)).length = 0
  · exact ⟨_, .inl (if_pos hlen)⟩
  · refine ⟨"UDP packet contains broken bencode", .inr ?_⟩
    have hsize : ¬ (msg.datagram.take (min UDP_BUF n)).length < 1 := by omega
    have hbuffer : (msg.datagram.take (min UDP_BUF n)).length ≤
        (udpBuffer (msg.datagram.take (min UDP_BUF n))).length := by simp [udpBuffer]
    obtain ⟨r, hvalid⟩ := benValidate_total hbuffer
    have hnone : r = none := by
      cases r with
      | none => rfl
      | some p =>
        have hwhole := msg.whole_of_valid hvalid
        omega
    rw [hnone] at hvalid
    rw [if_neg hlen, p2pParse, if_neg hsize, hvalid]
    rfl

end Cut

/-- A PING without its last byte. -/
theorem Message.cut_dropped_ping : ∃ m, mainInit ⟨headId 0xff, headId 0, none, none⟩ ⟨3, true⟩ 0
      (fun k => some (headId k.toUInt8)) (fun _ => 0) = .ok m ∧ ∃ format,
    (udpInput 1 ((Message.datagram ⟨headId 1, headId 9, .ping⟩).take 59)
      (newNode (headId 0)).c_addr m = .ok (m.logInfo format []) ∨
    udpInput 1 ((Message.datagram ⟨headId 1, headId 9, .ping⟩).take 59)
      (newNode (headId 0)).c_addr m = .ok ((m.tick 1).logInfo format [])) :=
  ⟨_, rfl, Message.cut_dropped ⟨headId 1, headId 9, .ping⟩ (by decide) 1 _ _⟩

/-! ## What a message names -/

/-- The nodes that a reply lists. -/
def Body.contacts : Body → List Contact
  | .nodesFind nodes | .nodesAnnounce _ nodes | .nodesLookup _ nodes => nodes
  | _ => []

/-- The address under which a listed node is stored. -/
def Contact.address (c : Contact) : Ip := ⟨AF_INET6, c.port, 0, c.addr, 0⟩

section Names
variable {msg : Message} {m : Main} {now : ℤ} {sender : Ip}

theorem readContacts_trees (nodes : List Contact) :
    readContacts (nodes.map Contact.tree) = nodes.map fun c => (c.id, c.address) := by
  induction nodes with
  | nil => rfl
  | cons c nodes ih =>
    have hread := readContact_tree c
    simp only [readContact, bind, Option.bind_eq_some_iff, pure, Option.some.injEq] at hread
    obtain ⟨id, hid, ip, hip, po, hpo, rfl⟩ := hread
    rw [List.map_cons, readContacts, if_neg (by simp [Contact.tree, benIsDict]), hid, hip, hpo,
      List.map_cons, ih]
    rfl

theorem Message.search_nodes {nodes : List ObjBen}
    (h : benSearchDictStr msg.tree 'n' = some (.list nodes)) :
    nodes = msg.body.contacts.map Contact.tree := by
  obtain ⟨node_id, session_id, body⟩ := msg
  cases body <;>
    simp [Message.tree, Body.fields, Body.query, Body.contacts, contactsField, field,
      benSearchDictStr, benSearchDictKey, searchTuple] at h ⊢
  all_goals exact h.symm

/-- A node that hears a message reads its fields. -/
theorem Heard.message {packet : ObjBen} {id key : Id} {sa : Ip} {m₁ : Main}
    (h : Heard m (.packet now msg.datagram sender) packet id key sa m₁) :
    packet = msg.tree ∧ id = msg.node_id ∧ key = msg.session_id ∧ sa = sender := by
  cases h with
  | packet hdec hid hforeign hkey hput =>
    obtain ⟨-, rfl⟩ := msg.decodes_iff.mp hdec
    have hread := msg.readIn_tree
    exact ⟨rfl, Option.some.inj (hid.symm.trans hread.node_id),
      Option.some.inj (hkey.symm.trans hread.session_id), rfl⟩

/-- A message names its sender and the nodes that it lists. -/
theorem Names.message {id : Id} {sa : Ip} (h : Names m (.packet now msg.datagram sender) id sa) :
    id = msg.node_id ∧ sa = sender ∨ ∃ c ∈ msg.body.contacts, id = c.id ∧ sa = c.address := by
  cases h with
  | sender h =>
    obtain ⟨-, rfl, -, rfl⟩ := h.message
    exact .inl ⟨rfl, rfl⟩
  | reply h hcache hq hnodes hn hmem =>
    obtain ⟨rfl, -⟩ := h.message
    rw [Message.search_nodes hn, readContacts_trees] at hmem
    obtain ⟨c, hc, heq⟩ := List.mem_map.mp hmem
    obtain ⟨rfl, rfl⟩ := Prod.mk.inj heq
    exact .inr ⟨c, hc, rfl, rfl⟩

end Names
end Masala.Daemon
