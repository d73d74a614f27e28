import Masala.Daemon.Packets
import Masala.Bencode.RoundTrip
import Masala.Library.Ensures

/-!
# Messages by their meaning

The protocol above the wire: a message carries the ids of its sender and of the
session and a body with typed fields. Each function of `send_p2p.c` sends the
encoding of one such message.
-/
namespace Masala.Daemon
open Library Container Bencode Routing Session

/-- A node as NODES replies name it. -/
structure Contact where
  id : Id
  addr : Octets 16
  port : Octets 2
deriving DecidableEq

inductive Body
  | ping
  | pong
  | find (find_id : Id)
  | announce (lkp_id host_id : Id)
  | lookup (lkp_id find_id : Id)
  | nodesFind (nodes : List Contact)
  | nodesAnnounce (lkp_id : Id) (nodes : List Contact)
  | nodesLookup (lkp_id : Id) (nodes : List Contact)
  | value (lkp_id : Id) (address : Octets 16)

structure Message where
  node_id : Id
  session_id : Id
  body : Body

/-! ## Trees -/

/-- A tuple with a one-letter key and a string. -/
def field (key : Char) (val : Bytes) : Bytes × ObjBen := ([ch key], .str val)

def Contact.tree (c : Contact) : ObjBen :=
  .dict [field 'i' c.id.bytes, field 'a' c.addr.bytes, field 'p' c.port.bytes]

/-- The list under the key `n`. -/
def contactsField (nodes : List Contact) : Bytes × ObjBen :=
  ([ch 'n'], .list (nodes.map Contact.tree))

def Body.query : Body → Char
  | .ping => 'p'
  | .pong => 'o'
  | .find _ => 'f'
  | .announce _ _ => 'a'
  | .lookup _ _ => 'l'
  | .nodesFind _ => 'F'
  | .nodesAnnounce _ _ => 'A'
  | .nodesLookup _ _ => 'L'
  | .value _ _ => 'V'

/-- The tuples between session key and query type. -/
def Body.fields : Body → List (Bytes × ObjBen)
  | .ping | .pong => []
  | .find find_id => [field 'f' find_id.bytes]
  | .announce lkp_id host_id => [field 'l' lkp_id.bytes, field 'f' host_id.bytes]
  | .lookup lkp_id find_id => [field 'l' lkp_id.bytes, field 'f' find_id.bytes]
  | .nodesFind nodes => [contactsField nodes]
  | .nodesAnnounce lkp_id nodes => [field 'l' lkp_id.bytes, contactsField nodes]
  | .nodesLookup lkp_id nodes => [field 'l' lkp_id.bytes, contactsField nodes]
  | .value lkp_id address => [field 'l' lkp_id.bytes, field 'a' address.bytes]

def Message.tree (msg : Message) : ObjBen :=
  .dict (field 'i' msg.node_id.bytes :: field 'k' msg.session_id.bytes ::
    (msg.body.fields ++ [field 'q' [ch msg.body.query]]))

/-- The datagram of a message. -/
def Message.datagram (msg : Message) : Bytes := encode msg.tree

/-! ## Sending -/

/-- The datagram leaves if the socket is open. -/
def Main.emit (m : Main) (sa : Ip) (datagram : Bytes) : Main :=
  if m.udp.sockfd < 0 then m else { m with out := m.out ++ [(sa, datagram)] }

section Build
variable {n : ℕ}

theorem Octets.bytes_ne_nil (h : 0 < n) (a : Octets n) : a.bytes ≠ [] := by
  have hlen := a.size_eq
  rintro he
  rw [he] at hlen
  exact h.ne hlen

@[simp] theorem id_ne_nil (id : Id) : id.bytes ≠ [] := Octets.bytes_ne_nil (by decide) id

@[simp] theorem addr_ne_nil (addr : Octets 16) : addr.bytes ≠ [] :=
  Octets.bytes_ne_nil (by decide) addr

@[simp] theorem port_ne_nil (port : Octets 2) : port.bytes ≠ [] :=
  Octets.bytes_ne_nil (by decide) port

theorem benStr_whole {s : Bytes} (h : s ≠ []) : benStr s 0 s.length = .ok (.str s) := by
  simp [benStr, copyFrom, h]

theorem putStr_dict {d : List (Bytes × ObjBen)} {key : Char} {val : Bytes} (h : val ≠ []) :
    putStr (.dict d) key val = .ok (.dict (d ++ [field key val])) := by
  have hkey : benStr [ch key] 0 1 = .ok (.str [ch key]) := benStr_whole (List.cons_ne_nil _ _)
  rw [putStr, hkey, exec_ok_bind, benStr_whole h, exec_ok_bind, benDict_dict, field]

theorem putStrs_dict {fields : List (Char × Bytes)} (d : List (Bytes × ObjBen))
    (h : ∀ f ∈ fields, f.2 ≠ []) :
    putStrs (.dict d) fields = .ok (.dict (d ++ fields.map fun f => field f.1 f.2)) := by
  rw [putStrs]
  induction fields generalizing d with
  | nil => simp
  | cons f fields ih =>
    rw [List.foldlM_cons, putStr_dict (h f (by simp)), exec_ok_bind,
      ih _ fun g hg => h g (by simp [hg])]
    simp

theorem sendDict_eq (sa : Ip) (dict : ObjBen) (m : Main) :
    sendDict sa dict m = .ok (m.emit sa (encode dict)) := by
  rw [sendDict, benEnc_eq, exec_ok_bind, sendExec, Main.emit]
  by_cases hs : m.udp.sockfd < 0
  · rw [if_pos hs, if_pos hs]
  · rw [if_neg hs, if_neg hs]
    simp [copyFrom, benEncSize_eq]

end Build

/-- A new session id is read, and the cache learns it. -/
theorem newSession_ensures (type : ℤ) (m : Main) : Ensures (newSession type m) fun r =>
    m.urandom m.reads = some r.1 ∧
      ∃ cache, r.2 = { m with reads := m.reads + 1, cache := cache } := by
  rw [newSession, randUrandom]
  cases hread : m.urandom m.reads with
  | none => exact ensures_error
  | some session_id =>
    rw [exec_ok_bind]
    exact ensures_then fun cache => ensures_ok.mpr ⟨rfl, cache, rfl⟩

section Send
variable (sa : Ip) (m : Main)

theorem sendPing_eq (type : ℤ) : sendPing sa type m = (do
    let (session_id, m) ← newSession type m
    return (m.emit sa (Message.datagram ⟨m.conf.node_id, session_id, .ping⟩)).logInfo
      "PING %s" [.addr sa]) := by
  simp [sendPing, putStrs_dict, sendDict_eq, Message.datagram, Message.tree, Body.fields,
    Body.query]

theorem sendPong_eq (session_id : Id) : sendPong sa session_id m =
    .ok ((m.emit sa (Message.datagram ⟨m.conf.node_id, session_id, .pong⟩)).logInfo
      "PONG %s" [.addr sa]) := by
  simp [sendPong, putStrs_dict, sendDict_eq, Message.datagram, Message.tree, Body.fields,
    Body.query]

theorem sendAnnounce_eq (lkp_id host_id : Id) : sendAnnounce sa lkp_id host_id m = (do
    let (session_id, m) ← newSession SEND_UNICAST m
    return (m.emit sa (Message.datagram
      ⟨m.conf.node_id, session_id, .announce lkp_id host_id⟩)).logInfo
      "ANNOUNCE to %s" [.addr sa]) := by
  simp [sendAnnounce, putStrs_dict, sendDict_eq, Message.datagram, Message.tree, Body.fields,
    Body.query]

theorem sendFind_eq (node_id : Id) : sendFind sa node_id m = (do
    let (session_id, m) ← newSession SEND_UNICAST m
    return (m.emit sa (Message.datagram ⟨m.conf.node_id, session_id, .find node_id⟩)).logInfo
      "FIND %s at %s" [.id node_id, .addr sa]) := by
  simp [sendFind, putStrs_dict, sendDict_eq, Message.datagram, Message.tree, Body.fields,
    Body.query]

theorem sendLookup_eq (node_id lkp_id : Id) : sendLookup sa node_id lkp_id m = (do
    let (session_id, m) ← newSession SEND_UNICAST m
    return (m.emit sa (Message.datagram
      ⟨m.conf.node_id, session_id, .lookup lkp_id node_id⟩)).logInfo
      "LOOKUP %s at %s" [.id node_id, .addr sa]) := by
  simp [sendLookup, putStrs_dict, sendDict_eq, Message.datagram, Message.tree, Body.fields,
    Body.query]

theorem sendValue_eq (value : Ip) (session_id lkp_id : Id) :
    sendValue sa value session_id lkp_id m =
    .ok ((m.emit sa (Message.datagram
      ⟨m.conf.node_id, session_id, .value lkp_id value.addr⟩)).logInfo
      "VALUE via LOOKUP to %s" [.addr sa]) := by
  simp [sendValue, putStrs_dict, sendDict_eq, Message.datagram, Message.tree, Body.fields,
    Body.query]

/-! ## NODES replies -/

def contactOf (n : Routing.Node) : Contact := ⟨n.id, n.c_addr.addr, n.c_addr.port⟩

/-- The contacts of a list of nodes, without the questionable ones. -/
def contacts (ns : List Routing.Node) : List Contact :=
  (ns.filter fun n => n.pinged = 0).map contactOf

theorem insertNodes_eq {l : ObjList Routing.Node} {ys zs : List (Ptr × Routing.Node)} {fuel : ℕ}
    (h : Linked l (ys ++ zs)) (hf : zs.length ≤ fuel) (ts : List ObjBen) :
    insertNodes l fuel (firstPtr zs none) (.list ts) =
      .ok (.list (ts ++ (contacts (zs.map Prod.snd)).map Contact.tree)) := by
  induction zs generalizing ys fuel ts with
  | nil => simp [insertNodes, contacts]
  | cons x zs ih =>
    obtain ⟨p, n⟩ := x
    cases fuel with
    | zero => simp at hf
    | succ fuel =>
      have hrest : Linked l ((ys ++ [(p, n)]) ++ zs) := by simpa using h
      have hf' : zs.length ≤ fuel := Nat.le_of_succ_le_succ hf
      rw [firstPtr_cons, insertNodes, h.item_eq, exec_ok_bind, h.next_eq, exec_ok_bind]
      by_cases hn : n.pinged > 0
      · rw [if_pos hn, ih hrest hf']
        have hne : n.pinged ≠ 0 := by omega
        simp [contacts, hne]
      · have hz : n.pinged = 0 := by omega
        rw [if_neg hn, putStrs_dict _ (by simp), exec_ok_bind, benList_list, exec_ok_bind,
          ih hrest hf']
        simp [contacts, hz, contactOf, Contact.tree]

/-- The body of a NODES reply; the reply to FIND has no lookup id. -/
def nodesBody (lkp_id : Id) (nodes : List Contact) : ReplyType → Body
  | .F => .nodesFind nodes
  | .A => .nodesAnnounce lkp_id nodes
  | .L => .nodesLookup lkp_id nodes

theorem nodeDict_eq {b : Buck} {xs : List (Ptr × Routing.Node)} (hb : Holds b.nodes xs)
    (node_id session_id lkp_id : Id) (reply_type : ReplyType) {lkp : Option Id}
    (hlkp : reply_type = .F ∨ lkp = some lkp_id) :
    nodeDict node_id b session_id lkp reply_type = .ok (Message.tree
      ⟨node_id, session_id, nodesBody lkp_id (contacts (xs.map Prod.snd)) reply_type⟩) := by
  have hlinked : Linked b.nodes ([] ++ xs) := hb.toLinked
  have hins := insertNodes_eq hlinked (Nat.le_of_eq hb.counter.symm) []
  rw [← hb.start, List.nil_append] at hins
  have hkey : benStr [ch 'n'] 0 1 = .ok (.str [ch 'n']) := benStr_whole (List.cons_ne_nil _ _)
  have htail : ∀ d, (do
      let key ← benStr [ch 'n'] 0 1
      let list_id ← insertNodes b.nodes b.nodes.counter b.nodes.start (.list [])
      let dict ← benDict (.dict d) (some key) (some list_id)
      putStr dict 'q' [ch reply_type.letter]) =
      .ok (.dict (d ++ [contactsField (contacts (xs.map Prod.snd)),
        field 'q' [ch reply_type.letter]])) := by
    intro d
    rw [hkey, exec_ok_bind, hins, exec_ok_bind, benDict_dict, exec_ok_bind,
      putStr_dict (List.cons_ne_nil _ _), List.append_assoc]
    rfl
  rw [nodeDict, putStrs_dict _ (by simp), exec_ok_bind]
  cases reply_type with
  | F =>
    rw [putLookupId, exec_ok_bind, htail]
    rfl
  | A =>
    obtain rfl := hlkp.resolve_left (by decide)
    rw [putLookupId, putStr_dict (id_ne_nil _), exec_ok_bind, htail]
    rfl
  | L =>
    obtain rfl := hlkp.resolve_left (by decide)
    rw [putLookupId, putStr_dict (id_ne_nil _), exec_ok_bind, htail]
    rfl

theorem sendNode_eq {b : Buck} {xs : List (Ptr × Routing.Node)} (hb : Holds b.nodes xs)
    (session_id lkp_id : Id) (reply_type : ReplyType) {lkp : Option Id}
    (hlkp : reply_type = .F ∨ lkp = some lkp_id) :
    sendNode sa b session_id lkp reply_type m =
      .ok ((m.emit sa (Message.datagram ⟨m.conf.node_id, session_id,
        nodesBody lkp_id (contacts (xs.map Prod.snd)) reply_type⟩)).logInfo
        (nodeFormat reply_type) [.addr sa]) := by
  rw [sendNode, nodeDict_eq hb _ _ _ _ hlkp, exec_ok_bind, sendDict_eq, exec_ok_bind]
  rfl

end Send

/-! ## Sizes -/

section Size

theorem encodeStr_length {s : Bytes} {n k : ℕ} (hs : s.length = n) (hk : (decimal n).length = k) :
    (encodeStr s).length = k + (n + 1) := by
  rw [encodeStr, List.length_append, List.length_cons, hs, hk]

@[simp] theorem encodeStr_one (c : UInt8) : (encodeStr [c]).length = 3 := encodeStr_length rfl rfl

@[simp] theorem encodeStr_id (id : Id) : (encodeStr id.bytes).length = 23 :=
  encodeStr_length id.size_eq rfl

@[simp] theorem encodeStr_addr (addr : Octets 16) : (encodeStr addr.bytes).length = 19 :=
  encodeStr_length addr.size_eq rfl

@[simp] theorem encodeStr_port (port : Octets 2) : (encodeStr port.bytes).length = 4 :=
  encodeStr_length port.size_eq rfl

@[simp] theorem encodeD_field (key : Char) (val : Bytes) (d : List (Bytes × ObjBen)) :
    (encodeD (field key val :: d)).length = 3 + ((encodeStr val).length + (encodeD d).length) := by
  rw [field, encodeD, List.length_append, List.length_append, encodeStr_one, encode]

@[simp] theorem encodeD_nil : (encodeD []).length = 0 := by rw [encodeD, List.length_nil]

theorem contact_length (c : Contact) : (encode c.tree).length = 57 := by
  rw [Contact.tree, encode, List.length_cons, List.length_append]
  simp

theorem contacts_length (nodes : List Contact) :
    (encodeL (nodes.map Contact.tree)).length = 57 * nodes.length := by
  induction nodes with
  | nil => rw [List.map_nil, encodeL, List.length_nil, List.length_nil, Nat.mul_zero]
  | cons c nodes ih =>
    rw [List.map_cons, encodeL, List.length_append, contact_length, ih, List.length_cons]
    omega

@[simp] theorem encodeD_contacts (nodes : List Contact) (d : List (Bytes × ObjBen)) :
    (encodeD (contactsField nodes :: d)).length =
      5 + (57 * nodes.length + (encodeD d).length) := by
  rw [contactsField, encodeD, List.length_append, List.length_append, encodeStr_one, encode,
    List.length_cons, List.length_append, contacts_length]
  simp only [List.length_singleton]
  omega

theorem Message.length_eq (msg : Message) : msg.datagram.length =
    2 + (26 + (26 + (encodeD (msg.body.fields ++ [field 'q' [ch msg.body.query]])).length)) := by
  rw [Message.datagram, Message.tree, encode, List.length_cons, List.length_append, encodeD_field,
    encodeD_field, encodeStr_id, encodeStr_id, List.length_singleton]
  omega

/-- Each contact takes 57 bytes. -/
theorem nodes_length (node_id session_id lkp_id : Id) (nodes : List Contact)
    (reply_type : ReplyType) :
    (Message.datagram ⟨node_id, session_id, nodesBody lkp_id nodes reply_type⟩).length =
      (if reply_type = .F then 65 else 91) + 57 * nodes.length := by
  rw [Message.length_eq]
  cases reply_type with
  | F =>
    simp only [nodesBody, Body.fields, List.cons_append, List.nil_append, encodeD_contacts,
      encodeD_field, encodeStr_one, encodeD_nil, if_true]
    omega
  | A =>
    simp only [nodesBody, Body.fields, List.cons_append, List.nil_append, encodeD_contacts,
      encodeD_field, encodeStr_one, encodeStr_id, encodeD_nil, reduceCtorEq, if_false]
    omega
  | L =>
    simp only [nodesBody, Body.fields, List.cons_append, List.nil_append, encodeD_contacts,
      encodeD_field, encodeStr_one, encodeStr_id, encodeD_nil, reduceCtorEq, if_false]
    omega

end Size
end Masala.Daemon
