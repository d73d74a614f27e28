import Masala.Daemon.Send

/-!
# The neighbourhood

The functions of `neighborhood.c` that look at the clock or send messages.
Those that only work on the table are with the table. A `LOOKUP` or `ANNOUNCE`
argument is given by its item in the list of `_main`.
-/
namespace Masala.Daemon
open Library Container Bencode Routing Session

/-- `nbhd_put`. A known node only gets the new address, a new one is also pinged and asked. -/
def nbhdPut (id : Id) (sa : Ip) (m : Main) : Exec Main :=
  if nodeMe m id then .ok m
  else do
    match ← bcktFindNode m.nbhd id with
    | some (item_b, item_n) =>
      let nbhd ← m.nbhd.setNode (some item_b) (some item_n) fun n => { n with c_addr := sa }
      return { m with nbhd := nbhd }
    | none =>
      let (time_ping, m) := timeAdd5MinApprox m
      let (time_find, m) := timeAdd5MinApprox m
      let nbhd ← bcktPut m.nbhd ⟨sa, id, time_ping, time_find, 1⟩
      let m ← sendPing sa SEND_UNICAST { m with nbhd := nbhd }
      sendFind sa m.conf.node_id m

def nbhdSend (sa : Ip) (node_id : Id) (lkp_id : Option Id) (session_id : Id)
    (reply_type : ReplyType) (m : Main) : Exec Main := do
  match ← bcktFindAnyMatch m.nbhd node_id with
  | none => return m
  | some i =>
    let b ← m.nbhd.item (some i)
    sendNode sa b.val session_id lkp_id reply_type m

def nbhdPinged (id : Id) (m : Main) : Exec Main := do
  match ← bcktFindNode m.nbhd id with
  | none => return m
  | some (item_b, item_n) =>
    let (time_ping, m) := timeAdd5MinApprox m
    let nbhd ← m.nbhd.setNode (some item_b) (some item_n) fun n =>
      { n with pinged := n.pinged + 1, time_ping := time_ping }
    return { m with nbhd := nbhd }

def nbhdPonged (id : Id) (sa : Ip) (m : Main) : Exec Main := do
  match ← bcktFindNode m.nbhd id with
  | none => return m
  | some (item_b, item_n) =>
    let (time_ping, m) := timeAdd5MinApprox m
    let nbhd ← m.nbhd.setNode (some item_b) (some item_n) fun n =>
      { n with pinged := 0, time_ping := time_ping, c_addr := sa }
    return { m with nbhd := nbhd }

/-- The inner loop of `nbhd_ping` at node `j` with `k` nodes to go. -/
def pingNodes (item_b : Option Ptr) : ℕ → ℕ → Option Ptr → Main → Exec Main
  | 0, _, _, m => .ok m
  | k + 1, j, item_n, m => do
    let b ← m.nbhd.item item_b
    let n ← b.val.nodes.item item_n
    let m ← if m.p2p.time_now > n.val.time_ping then do
        -- only the first eight are asked, but all of them are counted as pinged
        let m ← if j < 8 then sendPing n.val.c_addr SEND_UNICAST m else pure m
        nbhdPinged n.val.id m
      else pure m
    let b ← m.nbhd.item item_b
    let item_n ← listNext b.val.nodes item_n
    pingNodes item_b k (j + 1) item_n m

def pingBuckets : ℕ → Option Ptr → Main → Exec Main
  | 0, _, m => .ok m
  | k + 1, item_b, m => do
    let b ← m.nbhd.item item_b
    let m ← pingNodes item_b b.val.nodes.counter 0 b.val.nodes.start m
    let item_b ← listNext m.nbhd item_b
    pingBuckets k item_b m

def nbhdPing (m : Main) : Exec Main := pingBuckets m.nbhd.counter m.nbhd.start m

/-- The loop of `nbhd_find`. -/
def findNodes (find_id : Id) (item_b : Option Ptr) : ℕ → Option Ptr → Main → Exec Main
  | 0, _, m => .ok m
  | k + 1, item_n, m => do
    let b ← m.nbhd.item item_b
    let n ← b.val.nodes.item item_n
    let m ← if m.p2p.time_now > n.val.time_find then do
        let m ← sendFind n.val.c_addr find_id m
        let (time_find, m) := timeAdd5MinApprox m
        let nbhd ← m.nbhd.setNode item_b item_n fun n => { n with time_find := time_find }
        pure { m with nbhd := nbhd }
      else pure m
    let b ← m.nbhd.item item_b
    let item_n ← listNext b.val.nodes item_n
    findNodes find_id item_b k item_n m

def nbhdFind (find_id : Id) (m : Main) : Exec Main := do
  match ← bcktFindAnyMatch m.nbhd find_id with
  | none => return m
  | some item_b =>
    let b ← m.nbhd.item (some item_b)
    findNodes find_id (some item_b) b.val.nodes.counter b.val.nodes.start m

def nbhdFindMyself (m : Main) : Exec Main := nbhdFind m.conf.node_id m

def nbhdFindRandom (m : Main) : Exec Main := do
  let (node_id, m) ← randUrandom m
  nbhdFind node_id m

/-! ## Lookups and announcements -/

/-- `lkp_remember` and `announce_remember` on the set of asked nodes. -/
def remember (asked : Asked) (node_id : Id) : Exec Asked := do
  let (list, buffer) ← listPut asked.list node_id
  let hash ← hashPut (list.look idKey) asked.hash buffer SHA_DIGEST_LENGTH buffer
  return ⟨list, hash⟩

def lkpRemember (i : Ptr) (node_id : Id) (m : Main) : Exec Main := do
  let l ← m.lkps.list.item (some i)
  let asked ← remember l.val.asked node_id
  let list ← m.lkps.list.setVal (some i) { l.val with asked := asked }
  return { m with lkps.list := list }

def announceRemember (i : Ptr) (node_id : Id) (m : Main) : Exec Main := do
  let a ← m.announce.list.item (some i)
  let asked ← remember a.val.asked node_id
  let list ← m.announce.list.setVal (some i) { a.val with asked := asked }
  return { m with announce.list := list }

/-- The walk over the first nodes of a bucket that both functions below make. -/
def askNodes (nodes : ObjList Routing.Node) (ask : Routing.Node → Main → Exec Main) :
    ℕ → Option Ptr → Main → Exec Main
  | 0, _, m => .ok m
  | k + 1, item_n, m => do
    let n ← nodes.item item_n
    let m ← ask n.val m
    let item_n ← listNext nodes item_n
    askNodes nodes ask k item_n m

/-- The first eight nodes of the bucket for an id. -/
def askBucket (id : Id) (ask : Routing.Node → Main → Exec Main) (m : Main) : Exec Main := do
  match ← bcktFindAnyMatch m.nbhd id with
  | none => return m
  | some item_b =>
    let b ← m.nbhd.item (some item_b)
    let nodes := b.val.nodes
    askNodes nodes ask (if nodes.counter < 8 then nodes.counter else 8) nodes.start m

def nbhdLookup (i : Ptr) (m : Main) : Exec Main := do
  let l ← m.lkps.list.item (some i)
  askBucket l.val.find_id (fun n m => do
    let m ← lkpRemember i n.id m
    sendLookup n.c_addr l.val.find_id l.val.lkp_id m) m

def nbhdAnnounce (i : Ptr) (host_id : Id) (m : Main) : Exec Main := do
  let a ← m.announce.list.item (some i)
  askBucket host_id (fun n m => do
    let m ← announceRemember i n.id m
    sendAnnounce n.c_addr a.val.lkp_id host_id m) m

end Masala.Daemon
