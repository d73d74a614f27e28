import Masala.Daemon.Main

/-!
# Building and sending messages

The functions of `send_p2p.c`. Each message is a dictionary whose keys are put
in the order of the comment at the top of its function.
-/
namespace Masala.Daemon
open Library Container Bencode Routing Session

/-- The three kinds of NODES replies, as the letter of the query type. -/
inductive ReplyType
  | A
  | F
  | L
deriving DecidableEq

def ReplyType.letter : ReplyType → Char
  | .A => 'A'
  | .F => 'F'
  | .L => 'L'

/-- A key of one letter and a string value, put into a dictionary. -/
def putStr (dict : ObjBen) (key : Char) (val : Bytes) : Exec ObjBen := do
  let k ← benStr [ch key] 0 1
  let v ← benStr val 0 val.length
  benDict dict (some k) (some v)

/-- Several keys with string values, put one after the other. -/
def putStrs (dict : ObjBen) (fields : List (Char × Bytes)) : Exec ObjBen :=
  fields.foldlM (fun dict f => putStr dict f.1 f.2) dict

def sendDict (sa : Ip) (dict : ObjBen) (m : Main) : Exec Main := do
  let raw ← benEnc dict
  sendExec sa raw m

/-- `rand_urandom` and `cache_put` for a request that waits for an answer. -/
def newSession (type : ℤ) (m : Main) : Exec (Id × Main) := do
  let (session_id, m) ← randUrandom m
  let cache ← cachePut m.p2p.time_now m.cache session_id type
  return (session_id, { m with cache := cache })

def sendPing (sa : Ip) (type : ℤ) (m : Main) : Exec Main := do
  let (session_id, m) ← newSession type m
  let dict ← putStrs (.dict [])
    [('i', m.conf.node_id.bytes), ('k', session_id.bytes), ('q', [ch 'p'])]
  let m ← sendDict sa dict m
  return m.logInfo "PING %s" [.addr sa]

def sendPong (sa : Ip) (session_id : Id) (m : Main) : Exec Main := do
  let dict ← putStrs (.dict [])
    [('i', m.conf.node_id.bytes), ('k', session_id.bytes), ('q', [ch 'o'])]
  let m ← sendDict sa dict m
  return m.logInfo "PONG %s" [.addr sa]

def sendAnnounce (sa : Ip) (lkp_id host_id : Id) (m : Main) : Exec Main := do
  let (session_id, m) ← newSession SEND_UNICAST m
  let dict ← putStrs (.dict [])
    [('i', m.conf.node_id.bytes), ('k', session_id.bytes), ('l', lkp_id.bytes),
      ('f', host_id.bytes), ('q', [ch 'a'])]
  let m ← sendDict sa dict m
  return m.logInfo "ANNOUNCE to %s" [.addr sa]

def sendFind (sa : Ip) (node_id : Id) (m : Main) : Exec Main := do
  let (session_id, m) ← newSession SEND_UNICAST m
  let dict ← putStrs (.dict [])
    [('i', m.conf.node_id.bytes), ('k', session_id.bytes), ('f', node_id.bytes), ('q', [ch 'f'])]
  let m ← sendDict sa dict m
  return m.logInfo "FIND %s at %s" [.id node_id, .addr sa]

def sendLookup (sa : Ip) (node_id lkp_id : Id) (m : Main) : Exec Main := do
  let (session_id, m) ← newSession SEND_UNICAST m
  let dict ← putStrs (.dict [])
    [('i', m.conf.node_id.bytes), ('k', session_id.bytes), ('l', lkp_id.bytes),
      ('f', node_id.bytes), ('q', [ch 'l'])]
  let m ← sendDict sa dict m
  return m.logInfo "LOOKUP %s at %s" [.id node_id, .addr sa]

/-- The `while( item_n )` of `send_node`, which leaves out questionable nodes. -/
def insertNodes (nodes : ObjList Routing.Node) : ℕ → Option Ptr → ObjBen → Exec ObjBen
  | _, none, list_id => .ok list_id
  | 0, some _, _ => .error .fuel
  | fuel + 1, some item_n, list_id => do
    let n ← nodes.item (some item_n)
    let next ← listNext nodes (some item_n)
    if n.val.pinged > 0 then insertNodes nodes fuel next list_id
    else
      let dict_node ← putStrs (.dict [])
        [('i', n.val.id.bytes), ('a', n.val.c_addr.addr.bytes), ('p', n.val.c_addr.port.bytes)]
      let list_id ← benList list_id (some dict_node)
      insertNodes nodes fuel next list_id

/-- The lookup id is only read for the replies to ANNOUNCE and LOOKUP. -/
def putLookupId (dict : ObjBen) (lkp_id : Option Id) : ReplyType → Exec ObjBen
  | .F => .ok dict
  | .A | .L =>
    match lkp_id with
    | none => .error (.fatal "ben_str( 3)")
    | some lkp_id => putStr dict 'l' lkp_id.bytes

/-- The dictionary of `send_node`. -/
def nodeDict (node_id : Id) (b : Buck) (session_id : Id) (lkp_id : Option Id)
    (reply_type : ReplyType) : Exec ObjBen := do
  let dict ← putStrs (.dict []) [('i', node_id.bytes), ('k', session_id.bytes)]
  let dict ← putLookupId dict lkp_id reply_type
  let key ← benStr [ch 'n'] 0 1
  let list_id ← insertNodes b.nodes b.nodes.counter b.nodes.start (.list [])
  let dict ← benDict dict (some key) (some list_id)
  putStr dict 'q' [ch reply_type.letter]

def nodeFormat : ReplyType → String
  | .A => "NODES via ANNOUNCE to %s"
  | .F => "NODES via FIND to %s"
  | .L => "NODES via LOOKUP to %s"

def sendNode (sa : Ip) (b : Buck) (session_id : Id) (lkp_id : Option Id) (reply_type : ReplyType)
    (m : Main) : Exec Main := do
  let dict ← nodeDict m.conf.node_id b session_id lkp_id reply_type
  let m ← sendDict sa dict m
  return m.logInfo (nodeFormat reply_type) [.addr sa]

def sendValue (sa value : Ip) (session_id lkp_id : Id) (m : Main) : Exec Main := do
  let dict ← putStrs (.dict [])
    [('i', m.conf.node_id.bytes), ('k', session_id.bytes), ('l', lkp_id.bytes),
      ('a', value.addr.bytes), ('q', [ch 'V'])]
  let m ← sendDict sa dict m
  return m.logInfo "VALUE via LOOKUP to %s" [.addr sa]

end Masala.Daemon
