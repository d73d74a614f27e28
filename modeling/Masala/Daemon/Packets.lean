import Masala.Daemon.Requests
import Masala.Bencode.Packet

/-!
# Receiving packets

`p2p_parse`, `p2p_decode` and the handlers of `p2p.c`. The decoder looks at
every byte at most once, so the size of the packet is fuel enough unless it
waits for a byte forever.
-/
namespace Masala.Daemon
open Library Container Bencode Routing Session

/-- `p2p_is_hash`, `p2p_is_ip` and `p2p_is_port`: `ben_is_str` and a size of `n` bytes, which the
caller then reads. -/
def p2pIsString (n : ℕ) (node : Option ObjBen) : Option (Octets n) :=
  match node with
  | some (.str s) => if h : s.length = n then some ⟨s, h⟩ else none
  | _ => none

def p2pIsHash : Option ObjBen → Option Id := p2pIsString SHA_DIGEST_LENGTH
def p2pIsIp : Option ObjBen → Option (Octets 16) := p2pIsString 16
def p2pIsPort : Option ObjBen → Option (Octets 2) := p2pIsString 2

/-! ## Requests -/

def p2pPing (session_id : Id) (sender : Ip) (m : Main) : Exec Main := sendPong sender session_id m

def p2pFind (packet : ObjBen) (session_id : Id) (sender : Ip) (m : Main) : Exec Main :=
  match p2pIsHash (benSearchDictStr packet 'f') with
  | none => .ok (m.logInfo "Missing or broken target node" [])
  | some find_id => nbhdSend sender find_id none session_id .F m

def p2pAnnounce (packet : ObjBen) (session_id : Id) (sender : Ip) (m : Main) : Exec Main :=
  match p2pIsHash (benSearchDictStr packet 'f') with
  | none => .ok (m.logInfo "Missing or broken target node" [])
  | some host_id =>
    match p2pIsHash (benSearchDictStr packet 'l') with
    | none => .ok (m.logInfo "Missing or broken lookup ID" [])
    | some lkp_id => do
      let m ← dbPut host_id sender m
      nbhdSend sender host_id (some lkp_id) session_id .A m

def p2pLookup (packet : ObjBen) (session_id : Id) (sender : Ip) (m : Main) : Exec Main :=
  match p2pIsHash (benSearchDictStr packet 'f') with
  | none => .ok (m.logInfo "Missing or broken target node" [])
  | some find_id =>
    match p2pIsHash (benSearchDictStr packet 'l') with
    | none => .ok (m.logInfo "Missing or broken lookup ID" [])
    | some lkp_id => do
      let (m, sent) ← dbSend sender find_id lkp_id session_id m
      if sent then return m else nbhdSend sender find_id (some lkp_id) session_id .L m

/-! ## Replies -/

/-- A reply is only handled if `cache_validate` knows its session. -/
def ifExpected (unexpected : String) (session_id : Id) (handle : Main → Exec Main) (m : Main) :
    Exec Main := do
  let (cache, valid) ← cacheValidate m.cache session_id
  let m := { m with cache := cache }
  if valid then handle m else return m.logInfo unexpected []

def p2pPong (node_id session_id : Id) (sender : Ip) (m : Main) : Exec Main :=
  ifExpected "Unexpected reply! Many answers to one multicast request?" session_id
    (nbhdPonged node_id sender) m

/-- The loop over the nodes of a NODES reply; `visit` is what a handler does before it stores a
node. The first broken node ends the loop. -/
def storeNodes (visit : Id → Ip → Main → Exec Main) : List ObjBen → Main → Exec Main
  | [], m => .ok m
  | node :: nodes, m =>
    if ¬ benIsDict (some node) then .ok (m.logInfo "Node key broken or missing" [])
    else
      match p2pIsHash (benSearchDictStr node 'i') with
      | none => .ok (m.logInfo "ID key broken or missing" [])
      | some id =>
        match p2pIsIp (benSearchDictStr node 'a') with
        | none => .ok (m.logInfo "IP key broken or missing" [])
        | some ip =>
          match p2pIsPort (benSearchDictStr node 'p') with
          | none => .ok (m.logInfo "Port key broken or missing" [])
          | some po => do
            let sin : Ip := ⟨AF_INET6, po, 0, ip, 0⟩
            let m ← visit id sin m
            let m ← nbhdPut id sin m
            storeNodes visit nodes m

def p2pNodeFind (packet : ObjBen) (session_id : Id) (m : Main) : Exec Main :=
  ifExpected "Unexpected reply!" session_id (fun m =>
    match benSearchDictStr packet 'n' with
    | some (.list nodes) => storeNodes (fun _ _ m => .ok m) nodes m
    | _ => .ok (m.logInfo "NODE FIND: Nodes key broken or missing" [])) m

/-- `if( _main->conf->hostname != NULL ) announce_resolve( ... )`. -/
def announceMyself (lkp_id node_id : Id) (c_addr : Ip) (m : Main) : Exec Main :=
  if m.conf.hostname ≠ none then announceResolve lkp_id node_id c_addr m else .ok m

def p2pNodeAnnounce (packet : ObjBen) (node_id session_id : Id) (sender : Ip) (m : Main) :
    Exec Main :=
  ifExpected "Unexpected reply!" session_id (fun m =>
    match benSearchDictStr packet 'n' with
    | some (.list nodes) =>
      match p2pIsHash (benSearchDictStr packet 'l') with
      | none => .ok (m.logInfo "Missing or broken lookup ID" [])
      | some lkp_id => do
        let m ← announceMyself lkp_id node_id sender m
        storeNodes (announceMyself lkp_id) nodes m
    | _ => .ok (m.logInfo "NODE ANNOUNCE: Nodes key broken or missing" [])) m

def p2pNodeLookup (packet : ObjBen) (node_id session_id : Id) (sender : Ip) (m : Main) :
    Exec Main :=
  ifExpected "Unexpected reply!" session_id (fun m =>
    match benSearchDictStr packet 'n' with
    | some (.list nodes) =>
      match p2pIsHash (benSearchDictStr packet 'l') with
      | none => .ok (m.logInfo "Missing or broken lookup ID" [])
      | some lkp_id => do
        let m ← lkpResolve lkp_id node_id sender m
        storeNodes (lkpResolve lkp_id) nodes m
    | _ => .ok (m.logInfo "LOOKUP: Nodes key broken or missing" [])) m

def p2pValue (packet : ObjBen) (node_id session_id : Id) (m : Main) : Exec Main :=
  ifExpected "Unexpected reply!" session_id (fun m =>
    match p2pIsIp (benSearchDictStr packet 'a') with
    | none => .ok (m.logInfo "Missing or broken lookup address" [])
    | some address =>
      match p2pIsHash (benSearchDictStr packet 'l') with
      | none => .ok (m.logInfo "Missing or broken lookup ID" [])
      | some lkp_id => lkpSuccess lkp_id node_id address m) m

/-! ## Dispatch -/

/-- The `switch` of `p2p_decode`. -/
def dispatch (q : UInt8) (packet : ObjBen) (id key : Id) (sender : Ip) (m : Main) : Exec Main :=
  if q = ch 'p' then p2pPing key sender m
  else if q = ch 'f' then p2pFind packet key sender m
  else if q = ch 'a' then p2pAnnounce packet key sender m
  else if q = ch 'l' then p2pLookup packet key sender m
  else if q = ch 'o' then p2pPong id key sender m
  else if q = ch 'F' then p2pNodeFind packet key m
  else if q = ch 'A' then p2pNodeAnnounce packet id key sender m
  else if q = ch 'L' then p2pNodeLookup packet id key sender m
  else if q = ch 'V' then p2pValue packet id key m
  else .ok (m.logInfo "Unknown query type" [])

/-- `p2p_decode` after `ben_dec`. -/
def handle (packet : ObjBen) (sender : Ip) (m : Main) : Exec Main :=
  match p2pIsHash (benSearchDictStr packet 'i') with
  | none => .ok (m.logInfo "Node ID missing or broken" [])
  | some id =>
    if nodeMe m id then do
      let empty ← nbhdEmpty m.nbhd
      return if empty then m else m.logInfo "WARNING: Received a packet from myself..." []
    else
      match p2pIsHash (benSearchDictStr packet 'k') with
      | none => .ok (m.logInfo "Session key missing or broken" [])
      | some key => do
        let m ← nbhdPut id sender m
        match benSearchDictStr packet 'q' with
        | some (.str [q]) => dispatch q packet id key sender m
        | _ => return m.logInfo "Query type missing or broken" []

def p2pDecode (bencode : Bytes) (bensize : ℕ) (sender : Ip) (m : Main) : Exec Main := do
  let (packet, _) ← benDec (bensize + 1) bencode
  match packet with
  | none => return m.logInfo "Decoding UDP packet failed" []
  | some packet =>
    if ¬ benIsDict (some packet) then return m.logInfo "UDP packet is not a dictionary" []
    else handle packet sender m

def p2pParse (now : ℤ) (bencode : Bytes) (bensize : ℕ) (sender : Ip) (m : Main) : Exec Main := do
  let m := m.tick now
  if bensize < 1 then return m.logInfo "UDP packet too small" []
  else
    match ← benValidate bencode bensize with
    | none => return m.logInfo "UDP packet contains broken bencode" []
    | some _ => p2pDecode bencode bensize sender m

/-- One datagram in `udp_input`, which receives at most `UDP_BUF` bytes of it. -/
def udpInput (now : ℤ) (datagram : Bytes) (sender : Ip) (m : Main) : Exec Main :=
  let bytes := datagram.take UDP_BUF
  if bytes.length = 0 then .ok (m.logInfo "UDP error 0 bytes" [])
  else p2pParse now (udpBuffer bytes) bytes.length sender m

end Masala.Daemon
