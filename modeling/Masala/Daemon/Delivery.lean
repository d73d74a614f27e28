import Masala.Daemon.Message
import Masala.Bencode.Packet

/-!
# Delivery of messages

What a message does at its receiver, in terms of its typed fields, and that the
byte-level path through `udp_input`, `p2p_parse`, `p2p_decode` and the handlers
does exactly this with every datagram of `send_p2p.c`.
-/
namespace Masala.Daemon
open Library Container Bencode Routing Session

/-! ## What a receiver does -/

/-- The contacts of a NODES reply one after the other: `visit`, then `nbhd_put`. -/
def storeContacts (visit : Id → Ip → Main → Exec Main) : List Contact → Main → Exec Main
  | [], m => .ok m
  | c :: nodes, m => do
    let sin : Ip := ⟨AF_INET6, c.port, 0, c.addr, 0⟩
    let m ← visit c.id sin m
    let m ← nbhdPut c.id sin m
    storeContacts visit nodes m

/-- The effect of a body, once the sender of the message is in the table. -/
def Body.handle (node_id session_id : Id) (sender : Ip) : Body → Main → Exec Main
  | .ping => sendPong sender session_id
  | .pong => ifExpected "Unexpected reply! Many answers to one multicast request?" session_id
      (nbhdPonged node_id sender)
  | .find find_id => nbhdSend sender find_id none session_id .F
  | .announce lkp_id host_id => fun m => do
    let m ← dbPut host_id sender m
    nbhdSend sender host_id (some lkp_id) session_id .A m
  | .lookup lkp_id find_id => fun m => do
    let (m, sent) ← dbSend sender find_id lkp_id session_id m
    if sent then return m else nbhdSend sender find_id (some lkp_id) session_id .L m
  | .nodesFind nodes => ifExpected "Unexpected reply!" session_id
      (storeContacts (fun _ _ m => .ok m) nodes)
  | .nodesAnnounce lkp_id nodes => ifExpected "Unexpected reply!" session_id fun m => do
    let m ← announceMyself lkp_id node_id sender m
    storeContacts (announceMyself lkp_id) nodes m
  | .nodesLookup lkp_id nodes => ifExpected "Unexpected reply!" session_id fun m => do
    let m ← lkpResolve lkp_id node_id sender m
    storeContacts (lkpResolve lkp_id) nodes m
  | .value lkp_id address => ifExpected "Unexpected reply!" session_id
      (lkpSuccess lkp_id node_id address)

/-- The effect of a message from another node. -/
def Message.deliver (msg : Message) (sender : Ip) (m : Main) : Exec Main := do
  let m ← nbhdPut msg.node_id sender m
  msg.body.handle msg.node_id msg.session_id sender m

/-! ## Reading the fields -/

section Read

@[simp] theorem p2pIsString_bytes {n : ℕ} (a : Octets n) :
    p2pIsString n (some (.str a.bytes)) = some a := by
  simp [p2pIsString, a.size_eq]

@[simp] theorem p2pIsHash_bytes (id : Id) : p2pIsHash (some (.str id.bytes)) = some id :=
  p2pIsString_bytes id

@[simp] theorem p2pIsIp_bytes (addr : Octets 16) :
    p2pIsIp (some (.str addr.bytes)) = some addr := p2pIsString_bytes addr

@[simp] theorem p2pIsPort_bytes (port : Octets 2) :
    p2pIsPort (some (.str port.bytes)) = some port := p2pIsString_bytes port

/-- The checks of the loop over a NODES reply on one node. -/
def readContact (node : ObjBen) : Option Contact := do
  let id ← p2pIsHash (benSearchDictStr node 'i')
  let ip ← p2pIsIp (benSearchDictStr node 'a')
  let po ← p2pIsPort (benSearchDictStr node 'p')
  return ⟨id, ip, po⟩

@[simp] theorem readContact_tree (c : Contact) : readContact c.tree = some c := by
  simp [readContact, Contact.tree, field, benSearchDictStr, benSearchDictKey, searchTuple]

/-- The checks of the handler of a body succeed and give its fields. -/
def Body.ReadIn (packet : ObjBen) : Body → Prop
  | .ping | .pong => True
  | .find find_id => p2pIsHash (benSearchDictStr packet 'f') = some find_id
  | .announce lkp_id host_id => p2pIsHash (benSearchDictStr packet 'f') = some host_id ∧
      p2pIsHash (benSearchDictStr packet 'l') = some lkp_id
  | .lookup lkp_id find_id => p2pIsHash (benSearchDictStr packet 'f') = some find_id ∧
      p2pIsHash (benSearchDictStr packet 'l') = some lkp_id
  | .nodesFind nodes => ∃ l, benSearchDictStr packet 'n' = some (.list l) ∧
      l.map readContact = nodes.map some
  | .nodesAnnounce lkp_id nodes | .nodesLookup lkp_id nodes =>
      (∃ l, benSearchDictStr packet 'n' = some (.list l) ∧ l.map readContact = nodes.map some) ∧
      p2pIsHash (benSearchDictStr packet 'l') = some lkp_id
  | .value lkp_id address => p2pIsIp (benSearchDictStr packet 'a') = some address ∧
      p2pIsHash (benSearchDictStr packet 'l') = some lkp_id

/-- A decoded packet with exactly the fields of a message. -/
structure Message.ReadIn (msg : Message) (packet : ObjBen) : Prop where
  dict : benIsDict (some packet) = true
  node_id : p2pIsHash (benSearchDictStr packet 'i') = some msg.node_id
  session_id : p2pIsHash (benSearchDictStr packet 'k') = some msg.session_id
  query : benSearchDictStr packet 'q' = some (.str [ch msg.body.query])
  body : msg.body.ReadIn packet

theorem Message.readIn_tree (msg : Message) : msg.ReadIn msg.tree := by
  obtain ⟨node_id, session_id, body⟩ := msg
  refine ⟨rfl, ?_, ?_, ?_, ?_⟩
  · simp [Message.tree, field, benSearchDictStr, benSearchDictKey, searchTuple]
  · simp [Message.tree, field, benSearchDictStr, benSearchDictKey, searchTuple]
  · cases body <;>
      simp [Message.tree, Body.fields, Body.query, contactsField, field, benSearchDictStr,
        benSearchDictKey, searchTuple]
  · cases body <;>
      simp [Body.ReadIn, Message.tree, Body.fields, Body.query, contactsField, field,
        benSearchDictStr, benSearchDictKey, searchTuple, Function.comp_def]

theorem readContact_dict {node : ObjBen} {c : Contact} (h : readContact node = some c) :
    benIsDict (some node) = true := by
  cases node with
  | dict d => rfl
  | _ => cases h

/-- The walk over nodes that all read well. -/
theorem storeNodes_eq (visit : Id → Ip → Main → Exec Main) {l : List ObjBen}
    {nodes : List Contact} (h : l.map readContact = nodes.map some) (m : Main) :
    storeNodes visit l m = storeContacts visit nodes m := by
  induction l generalizing nodes m with
  | nil =>
    obtain rfl := List.map_eq_nil_iff.mp h.symm
    rfl
  | cons node l ih =>
    obtain ⟨c, nodes, rfl, hc, hl⟩ := List.map_eq_cons_iff.mp h.symm
    have hdict := readContact_dict hc.symm
    have hread : readContact node = some c := hc.symm
    simp only [readContact, bind, Option.bind_eq_some_iff, pure, Option.some.injEq] at hread
    obtain ⟨id, hid, ip, hip, po, hpo, rfl⟩ := hread
    rw [storeNodes, if_neg (by simp [hdict]), hid, hip, hpo, storeContacts]
    simp only [ih hl.symm]

variable {msg : Message} {packet : ObjBen}

/-- The dispatcher calls the handler of the body, which reads its fields. -/
theorem Message.ReadIn.dispatch_eq (h : msg.ReadIn packet) (sender : Ip) (m : Main) :
    dispatch (ch msg.body.query) packet msg.node_id msg.session_id sender m =
      msg.body.handle msg.node_id msg.session_id sender m := by
  obtain ⟨node_id, session_id, body⟩ := msg
  have hbody := h.body
  cases body with
  | ping => rfl
  | pong => rfl
  | find find_id =>
    change p2pFind packet session_id sender m = _
    rw [p2pFind, hbody]
    rfl
  | announce lkp_id host_id =>
    change p2pAnnounce packet session_id sender m = _
    rw [p2pAnnounce, hbody.1, hbody.2]
    rfl
  | lookup lkp_id find_id =>
    change p2pLookup packet session_id sender m = _
    rw [p2pLookup, hbody.1, hbody.2]
    rfl
  | nodesFind nodes =>
    obtain ⟨l, hl, hnodes⟩ := hbody
    change p2pNodeFind packet session_id m = _
    rw [p2pNodeFind, hl, Body.handle]
    simp only [storeNodes_eq _ hnodes]
  | nodesAnnounce lkp_id nodes =>
    obtain ⟨⟨l, hl, hnodes⟩, hlkp⟩ := hbody
    change p2pNodeAnnounce packet node_id session_id sender m = _
    rw [p2pNodeAnnounce, hl, hlkp, Body.handle]
    simp only [storeNodes_eq _ hnodes]
  | nodesLookup lkp_id nodes =>
    obtain ⟨⟨l, hl, hnodes⟩, hlkp⟩ := hbody
    change p2pNodeLookup packet node_id session_id sender m = _
    rw [p2pNodeLookup, hl, hlkp, Body.handle]
    simp only [storeNodes_eq _ hnodes]
  | value lkp_id address =>
    change p2pValue packet node_id session_id m = _
    rw [p2pValue, hbody.1, hbody.2]
    rfl

theorem Message.ReadIn.handle_eq (h : msg.ReadIn packet) (sender : Ip) {m : Main}
    (hown : m.conf.node_id ≠ msg.node_id) : handle packet sender m = msg.deliver sender m := by
  have hme : nodeMe m msg.node_id = false := by
    simpa [nodeMe, nodeEqual, Octets.memcmp_eq] using hown.symm
  rw [handle, h.node_id]
  simp only [hme, h.session_id, h.query, h.dispatch_eq]
  rfl

end Read

/-! ## The wire -/

section Wire
variable (msg : Message)

theorem field_inRange {key : Char} {val : Bytes} (h : StrInRange val)
    {d : List (Bytes × ObjBen)} (hd : InRangeD d) : InRangeD (field key val :: d) := by
  simp [field, InRangeD, InRange, StrInRange, BEN_STR_MAXSIZE] at h ⊢
  exact ⟨h, hd⟩

theorem octets_inRange {n : ℕ} (a : Octets n) (hpos : 0 < n) (hle : n ≤ BEN_STR_MAXSIZE) :
    StrInRange a.bytes := by
  rw [StrInRange, a.size_eq]
  exact ⟨hpos, hle⟩

theorem id_inRange (id : Id) : StrInRange id.bytes :=
  octets_inRange id (by decide) (by decide)

theorem contact_inRange (c : Contact) : InRange c.tree := by
  rw [Contact.tree, InRange]
  refine field_inRange (id_inRange _) (field_inRange ?_ (field_inRange ?_ trivial))
  · exact octets_inRange _ (by decide) (by decide)
  · exact octets_inRange _ (by decide) (by decide)

theorem contacts_inRange (nodes : List Contact) : InRangeL (nodes.map Contact.tree) := by
  induction nodes with
  | nil => trivial
  | cons c nodes ih => exact ⟨contact_inRange c, ih⟩

theorem contactsField_inRange (nodes : List Contact) {d : List (Bytes × ObjBen)}
    (hd : InRangeD d) : InRangeD (contactsField nodes :: d) := by
  rw [contactsField, InRangeD]
  exact ⟨⟨by decide, by decide⟩, contacts_inRange nodes, hd⟩

theorem Message.inRange : InRange msg.tree := by
  obtain ⟨node_id, session_id, body⟩ := msg
  have hq : ∀ c : UInt8, InRangeD [field 'q' [c]] := fun c =>
    field_inRange ⟨by simp, by simp [BEN_STR_MAXSIZE]⟩ trivial
  rw [Message.tree, InRange]
  refine field_inRange (id_inRange _) (field_inRange (id_inRange _) ?_)
  cases body with
  | ping => exact hq _
  | pong => exact hq _
  | find find_id => exact field_inRange (id_inRange _) (hq _)
  | announce lkp_id host_id =>
    exact field_inRange (id_inRange _) (field_inRange (id_inRange _) (hq _))
  | lookup lkp_id find_id =>
    exact field_inRange (id_inRange _) (field_inRange (id_inRange _) (hq _))
  | nodesFind nodes => exact contactsField_inRange nodes (hq _)
  | nodesAnnounce lkp_id nodes =>
    exact field_inRange (id_inRange _) (contactsField_inRange nodes (hq _))
  | nodesLookup lkp_id nodes =>
    exact field_inRange (id_inRange _) (contactsField_inRange nodes (hq _))
  | value lkp_id address =>
    refine field_inRange (id_inRange _) (field_inRange ?_ (hq _))
    exact octets_inRange _ (by decide) (by decide)

theorem Message.validates : benValidate (udpBuffer msg.datagram) msg.datagram.length =
    .ok (some msg.datagram.length) :=
  benValidate_value (encode_value msg.tree msg.inRange) (List.prefix_append _ _) le_rfl

theorem Message.decodes {fuel : ℕ} (hf : msg.datagram.length < fuel) :
    benDec fuel (udpBuffer msg.datagram) = .ok (some msg.tree, msg.datagram.length) :=
  benDec_value (encode_value msg.tree msg.inRange) (List.prefix_append _ _) hf

/-- A datagram that fits into the buffer has the effect of its message. -/
theorem Message.udpInput_eq (hlen : msg.datagram.length ≤ UDP_BUF) (now : ℤ) (sender : Ip)
    {m : Main} (hown : m.conf.node_id ≠ msg.node_id) :
    udpInput now msg.datagram sender m = msg.deliver sender (m.tick now) := by
  have hpos : msg.datagram.length ≠ 0 := by
    rw [Ne, List.length_eq_zero_iff]
    exact encode_ne_nil msg.tree
  have hdict := msg.readIn_tree.dict
  rw [udpInput, List.take_of_length_le hlen, if_neg hpos, p2pParse, if_neg (by omega),
    msg.validates, exec_ok_bind]
  dsimp only
  rw [p2pDecode, msg.decodes (Nat.lt_succ_self _), exec_ok_bind]
  dsimp only
  rw [if_neg (by simp [hdict])]
  exact msg.readIn_tree.handle_eq sender hown

end Wire

/-! ## Every sent message arrives -/

/-- The calls of `send_p2p.c` with their arguments. `p2p_find` passes NULL for the lookup id. -/
inductive Sending
  | ping (type : ℤ)
  | pong (session_id : Id)
  | announce (lkp_id host_id : Id)
  | find (node_id : Id)
  | lookup (node_id lkp_id : Id)
  | node (b : Buck) (session_id lkp_id : Id) (reply_type : ReplyType)
  | value (value : Ip) (session_id lkp_id : Id)

namespace Sending

def send (sa : Ip) (m : Main) : Sending → Exec Main
  | ping type => sendPing sa type m
  | pong session_id => sendPong sa session_id m
  | announce lkp_id host_id => sendAnnounce sa lkp_id host_id m
  | find node_id => sendFind sa node_id m
  | lookup node_id lkp_id => sendLookup sa node_id lkp_id m
  | node b session_id lkp_id reply_type =>
      sendNode sa b session_id (if reply_type = .F then none else some lkp_id) reply_type m
  | value val session_id lkp_id => sendValue sa val session_id lkp_id m

/-- The bucket of a NODES reply has a well-formed list of nodes. -/
def WellFormed : Sending → Prop
  | node b _ _ _ => Holds b.nodes b.nodes.items
  | _ => True

/-- The session of a reply is given, that of a request is read from `/dev/urandom`. -/
def session (m : Main) : Sending → Option Id
  | pong session_id | node _ session_id _ _ | value _ session_id _ => some session_id
  | _ => m.urandom m.reads

def body : Sending → Body
  | ping _ => .ping
  | pong _ => .pong
  | announce lkp_id host_id => .announce lkp_id host_id
  | find node_id => .find node_id
  | lookup node_id lkp_id => .lookup lkp_id node_id
  | node b _ lkp_id reply_type =>
      nodesBody lkp_id (contacts (b.nodes.items.map Prod.snd)) reply_type
  | value val _ lkp_id => .value lkp_id val.addr

variable {s : Sending} {sa : Ip} {m m' : Main}

/-- A request: a new session, a datagram and a line in the log. -/
theorem request_out {type : ℤ} {body : Body} {format : String} {args : List LogArg}
    (hsock : 0 ≤ m.udp.sockfd) (hsend : (do
      let (session_id, m) ← newSession type m
      return (m.emit sa (Message.datagram ⟨m.conf.node_id, session_id, body⟩)).logInfo
        format args) = .ok m') :
    ∃ session_id, m.urandom m.reads = some session_id ∧
      m'.out = m.out ++ [(sa, Message.datagram ⟨m.conf.node_id, session_id, body⟩)] := by
  obtain ⟨⟨session_id, m₁⟩, hnew, hrest⟩ := exec_bind_eq_ok.mp hsend
  obtain ⟨hread, cache, rfl⟩ := newSession_ensures _ _ _ hnew
  obtain rfl := Except.ok.inj hrest
  refine ⟨session_id, hread, ?_⟩
  simp [Main.emit, Main.logInfo, not_lt.mpr hsock]

/-- What each call puts on the wire. -/
theorem send_out (hs : s.WellFormed) (hsock : 0 ≤ m.udp.sockfd) (hsend : s.send sa m = .ok m') :
    ∃ session_id, s.session m = some session_id ∧
      m'.out = m.out ++ [(sa, Message.datagram ⟨m.conf.node_id, session_id, s.body⟩)] := by
  cases s with
  | ping type =>
    rw [send, sendPing_eq] at hsend
    exact request_out hsock hsend
  | pong session_id =>
    rw [send, sendPong_eq] at hsend
    obtain rfl := Except.ok.inj hsend
    exact ⟨session_id, rfl, by simp [Main.emit, Main.logInfo, not_lt.mpr hsock, body]⟩
  | announce lkp_id host_id =>
    rw [send, sendAnnounce_eq] at hsend
    exact request_out hsock hsend
  | find node_id =>
    rw [send, sendFind_eq] at hsend
    exact request_out hsock hsend
  | lookup node_id lkp_id =>
    rw [send, sendLookup_eq] at hsend
    exact request_out hsock hsend
  | node b session_id lkp_id reply_type =>
    have hlkp : reply_type = .F ∨
        (if reply_type = .F then none else some lkp_id) = some lkp_id := by
      by_cases hF : reply_type = .F
      · exact .inl hF
      · exact .inr (if_neg hF)
    rw [send, sendNode_eq sa m hs _ _ _ hlkp] at hsend
    obtain rfl := Except.ok.inj hsend
    exact ⟨session_id, rfl, by simp [Main.emit, Main.logInfo, not_lt.mpr hsock, body]⟩
  | value val session_id lkp_id =>
    rw [send, sendValue_eq] at hsend
    obtain rfl := Except.ok.inj hsend
    exact ⟨session_id, rfl, by simp [Main.emit, Main.logInfo, not_lt.mpr hsock, body]⟩

end Sending

/-- Every call sends one datagram, and a node with another id that receives it unmodified accepts
it, reads exactly the sender's fields and does with them what the kind of message asks for. -/
theorem send_delivered (s : Sending) (hs : s.WellFormed) (sa : Ip) (m m' : Main)
    (hsock : 0 ≤ m.udp.sockfd) (hsend : s.send sa m = .ok m') :
    ∃ msg : Message, msg.node_id = m.conf.node_id ∧ s.session m = some msg.session_id ∧
      msg.body = s.body ∧ m'.out = m.out ++ [(sa, msg.datagram)] ∧
      (msg.datagram.length ≤ UDP_BUF → ∀ (r : Main) (now : ℤ) (sender : Ip),
        r.conf.node_id ≠ m.conf.node_id →
        benValidate (udpBuffer msg.datagram) msg.datagram.length =
          .ok (some msg.datagram.length) ∧
        (∃ packet n, benDec (msg.datagram.length + 1) (udpBuffer msg.datagram) =
          .ok (some packet, n) ∧ msg.ReadIn packet) ∧
        udpInput now msg.datagram sender r = msg.deliver sender (r.tick now)) := by
  obtain ⟨session_id, hsession, hout⟩ := Sending.send_out hs hsock hsend
  refine ⟨⟨m.conf.node_id, session_id, s.body⟩, rfl, hsession, rfl, hout, ?_⟩
  intro hlen r now sender hown
  exact ⟨Message.validates _, ⟨_, _, Message.decodes _ (Nat.lt_succ_self _), Message.readIn_tree _⟩,
    Message.udpInput_eq _ hlen now sender hown⟩

/-- The open socket and the sources of random numbers of a test node. -/
def testMain (node_id : Id) : Exec Main :=
  mainInit ⟨node_id, node_id, none, none⟩ ⟨3, true⟩ 0 (fun k => some (headId k.toUInt8)) fun _ => 0

/-- A bucket of three nodes, of which the second one has not answered a ping yet. -/
theorem exists_testBuck : ∃ b : Buck, Holds b.nodes b.nodes.items ∧
    b.nodes.items.map Prod.snd = [{ newNode (headId 3) with pinged := 0 }, newNode (headId 4),
      { newNode (headId 5) with pinged := 0 }] := by
  obtain ⟨l₁, -, h₁⟩ := holds_init.put { newNode (headId 3) with pinged := 0 }
  obtain ⟨l₂, -, h₂⟩ := h₁.put (newNode (headId 4))
  obtain ⟨l₃, -, h₃⟩ := h₂.put { newNode (headId 5) with pinged := 0 }
  have hitems := h₃.items_eq
  exact ⟨⟨headId 0, l₃⟩, hitems ▸ h₃, by rw [hitems]; rfl⟩

/-- A NODES reply from node 1 to node 2. -/
theorem send_delivered_nodes : ∃ m m' r b, testMain (headId 1) = .ok m ∧
    testMain (headId 2) = .ok r ∧
    b.nodes.items.map (fun x => x.2.id) = [headId 3, headId 4, headId 5] ∧
    (Sending.node b (headId 7) (headId 8) .L).send (newNode (headId 2)).c_addr m = .ok m' ∧
    ∃ msg : Message, msg.body = .nodesLookup (headId 8)
        [contactOf (newNode (headId 3)), contactOf (newNode (headId 5))] ∧
      m'.out = m.out ++ [((newNode (headId 2)).c_addr, msg.datagram)] ∧
      udpInput 5 msg.datagram (newNode (headId 1)).c_addr r =
        msg.deliver (newNode (headId 1)).c_addr (r.tick 5) := by
  have hm : ∀ id, ∃ m, testMain id = .ok m ∧ m.conf.node_id = id ∧ m.udp.sockfd = 3 :=
    fun id => ⟨_, rfl, rfl, rfl⟩
  obtain ⟨m, hinit, hid, hsock⟩ := hm (headId 1)
  obtain ⟨r, hinit', hid', -⟩ := hm (headId 2)
  obtain ⟨b, hb, hnodes⟩ := exists_testBuck
  have hsend : (Sending.node b (headId 7) (headId 8) .L).send (newNode (headId 2)).c_addr m = _ :=
    sendNode_eq _ _ hb (headId 7) (headId 8) .L (.inr rfl)
  obtain ⟨msg, -, -, hbody, hout, hdeliver⟩ := send_delivered
    (.node b (headId 7) (headId 8) .L) hb _ m _ (by rw [hsock]; decide) hsend
  rw [Sending.body, hnodes] at hbody
  have hlen : msg.datagram.length ≤ UDP_BUF := by
    rw [Message.length_eq, hbody]
    decide +kernel
  refine ⟨m, _, r, b, hinit, hinit', ?_, hsend, msg, hbody, hout, ?_⟩
  · have hids := congrArg (List.map Node.id) hnodes
    rwa [List.map_map] at hids
  · exact (hdeliver hlen r 5 _ (by rw [hid, hid']; decide)).2.2

end Masala.Daemon
