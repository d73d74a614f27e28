import Masala.Container.LinkedList
import Masala.Routing.Identifier

/-!
# The routing table

The functions of `bucket.c` and the table part of `neighborhood.c`. The table
is a list of buckets, each with a list of nodes. A node found in the table is
given by the item of its bucket and its own item.
-/
namespace Masala.Routing
open Library Container

/-- `struct sockaddr_in6`. -/
structure Ip where
  family : UInt16
  port : Octets 2
  flowinfo : UInt32
  addr : Octets 16
  scope_id : UInt32
deriving DecidableEq

structure Node where
  c_addr : Ip
  id : Id
  time_ping : ℤ
  time_find : ℤ
  pinged : ℕ
deriving DecidableEq

/-- A node with this id and otherwise empty fields. -/
def newNode (id : Id) : Node :=
  ⟨⟨10, Octets.replicate 2 0, 0, Octets.replicate 16 0, 0⟩, id, 0, 0, 1⟩

structure Buck where
  id : Id
  nodes : ObjList Node

abbrev Table := ObjList Buck

def nodeEqual (node_a node_b : Id) : Bool := memcmp node_a.bytes node_b.bytes = .eq

/-- The table of `bckt_init` has one empty bucket, whose id is zero. -/
def bcktInit : Exec Table := do
  let (l, _) ← listPut listInit ⟨Octets.replicate _ 0, listInit⟩
  return l

/-- The loop of `bckt_find_best_match` with `i` rounds to go. -/
def findBestMatchLoop (thislist : Table) (id : Id) : ℕ → Option Ptr → Exec (Option Ptr)
  | 0, _ => .ok thislist.stop
  | i + 1, item => do
    let next ← listNext thislist item
    let b ← thislist.item next
    if memcmp id.bytes b.val.id.bytes = .lt then return item
    else findBestMatchLoop thislist id i next

def bcktFindBestMatch (thislist : Table) (id : Id) : Exec (Option Ptr) :=
  findBestMatchLoop thislist id (thislist.counter - 1) thislist.start

def findAnyMatchLoop (thislist : Table) : ℕ → Option Ptr → Exec (Option Ptr)
  | 0, _ => .ok none
  | j + 1, i => do
    let b ← thislist.item i
    if b.val.nodes.counter > 0 then return i
    else findAnyMatchLoop thislist j (listPrev thislist i)

def bcktFindAnyMatch (thislist : Table) (id : Id) : Exec (Option Ptr) := do
  let i ← bcktFindBestMatch thislist id
  let b ← thislist.item i
  if b.val.nodes.counter > 0 then return i
  else findAnyMatchLoop thislist thislist.counter i

def findNodeLoop (list_n : ObjList Node) (id : Id) : ℕ → Option Ptr → Exec (Option Ptr)
  | 0, _ => .ok none
  | i + 1, item_n => do
    let n ← list_n.item item_n
    if nodeEqual n.val.id id then return item_n
    else
      let item_n ← listNext list_n item_n
      findNodeLoop list_n id i item_n

/-- `bckt_find_node`, with the bucket item in front of the node item. -/
def bcktFindNode (thislist : Table) (id : Id) : Exec (Option (Ptr × Ptr)) := do
  match ← bcktFindBestMatch thislist id with
  | none => return none
  | some item_b =>
    let b ← thislist.item (some item_b)
    let list_n := b.val.nodes
    let item_n ← findNodeLoop list_n id list_n.counter list_n.start
    return item_n.map fun p => (item_b, p)

/-- `list_put( b->nodes, n )` for the bucket at an item. -/
def Table.append (l : Table) (item_b : Option Ptr) (n : Node) : Exec Table := do
  let b ← l.item item_b
  let (nodes, _) ← listPut b.val.nodes n
  l.setVal item_b { b.val with nodes := nodes }

/-- Assign to fields of the node behind a bucket item and a node item. -/
def Table.setNode (l : Table) (item_b item_n : Option Ptr) (f : Node → Node) : Exec Table := do
  let b ← l.item item_b
  let n ← b.val.nodes.item item_n
  let nodes ← b.val.nodes.setVal item_n (f n.val)
  l.setVal item_b { b.val with nodes := nodes }

def broken : Fault :=
  .fatal "Something is terribly broken: No appropriate bucket found for ID"

def bcktPut (l : Table) (n : Node) : Exec Table := do
  match ← bcktFindBestMatch l n.id with
  | none => .error broken
  | some i =>
    match ← bcktFindNode l n.id with
    | some _ => return l
    | none => l.append (some i) n

def bcktDel (l : Table) (n : Node) : Exec Table := do
  match ← bcktFindBestMatch l n.id with
  | none => .error broken
  | some item_b =>
    let b ← l.item (some item_b)
    match ← bcktFindNode l n.id with
    | none => return l
    | some (_, item_n) =>
      let (nodes, _) ← listDel b.val.nodes (some item_n)
      l.setVal (some item_b) { b.val with nodes := nodes }

/-- `bit2` of `bckt_compute_id`: only a bucket that is not at `stop` has a next one. -/
def bitOfNext (thislist : Table) (item_b : Option Ptr) : Exec ℤ :=
  if item_b ≠ thislist.stop then do
    let item_next ← listNext thislist item_b
    let b_next ← thislist.item item_next
    return bcktSignificantBit b_next.val.id
  else return -1

/-- `bckt_compute_id`: the id in the middle of a bucket, `none` for its -1. -/
def bcktComputeId (thislist : Table) (item_b : Option Ptr) : Exec (Option Id) := do
  let b ← thislist.item item_b
  let bit1 := bcktSignificantBit b.val.id
  let bit2 ← bitOfNext thislist item_b
  let bit := (if bit1 ≥ bit2 then bit1 else bit2) + 1
  if bit ≥ SHA_DIGEST_LENGTH * 8 then return none
  else return some (b.val.id.setBit bit.toNat)

/-- The walk of `bckt_split` over the nodes of the bucket it splits. -/
def splitLoop (list_n : ObjList Node) : ℕ → Option Ptr → Table → Exec Table
  | 0, _, thislist => .ok thislist
  | i + 1, item_n, thislist => do
    let n ← list_n.item item_n
    let item_s ← bcktFindBestMatch thislist n.val.id
    let thislist ← thislist.append item_s n.val
    let item_n ← listNext list_n item_n
    splitLoop list_n i item_n thislist

def bcktSplit (thislist : Table) (id : Id) : Exec (Table × Bool) := do
  match ← bcktFindBestMatch thislist id with
  | none => return (thislist, false)
  | some item_b =>
    let b ← thislist.item (some item_b)
    if b.val.nodes.counter ≤ 8 then return (thislist, false)
    else
      match ← bcktComputeId thislist (some item_b) with
      | none => return (thislist, false)
      | some id_new =>
        let (thislist, _) ← listIns thislist (some item_b) ⟨id_new, listInit⟩
        let list_n := b.val.nodes
        let thislist ← thislist.setVal (some item_b) { b.val with nodes := listInit }
        let thislist ← splitLoop list_n list_n.counter list_n.start thislist
        return (thislist, true)

/-! ## Neighborhood -/

/-- `nbhd_split`; `fuel` bounds the rounds of its `for( ;; )`. -/
def nbhdSplit (node_id : Id) : ℕ → Table → Exec Table
  | 0, _ => .error .fuel
  | fuel + 1, nbhd => do
    let (nbhd, split) ← bcktSplit nbhd node_id
    if split then nbhdSplit node_id fuel nbhd else return nbhd

/-- The inner loop of `nbhd_expire`, whose bound shrinks with every deleted node. -/
def expireNodes (item_b : Option Ptr) : ℕ → ℕ → Option Ptr → Table → Exec Table
  | 0, _, _, _ => .error .fuel
  | fuel + 1, j, item_n, nbhd => do
    let b ← nbhd.item item_b
    if j < b.val.nodes.counter then
      let n ← b.val.nodes.item item_n
      let next ← listNext b.val.nodes item_n
      let nbhd ← if n.val.pinged ≥ 4 then bcktDel nbhd n.val else pure nbhd
      expireNodes item_b fuel (j + 1) next nbhd
    else return nbhd

def expireBuckets : ℕ → Option Ptr → Table → Exec Table
  | 0, _, nbhd => .ok nbhd
  | k + 1, item_b, nbhd => do
    let b ← nbhd.item item_b
    let nbhd ← expireNodes item_b (b.val.nodes.counter + 1) 0 b.val.nodes.start nbhd
    let item_b ← listNext nbhd item_b
    expireBuckets k item_b nbhd

/-- `nbhd_expire`. -/
def nbhdExpire (nbhd : Table) : Exec Table := expireBuckets nbhd.counter nbhd.start nbhd

def emptyLoop (nbhd : Table) : ℕ → Option Ptr → Exec Bool
  | 0, _ => .ok true
  | k + 1, item_b => do
    let b ← nbhd.item item_b
    if b.val.nodes.counter > 0 then return false
    else
      let item_b ← listNext nbhd item_b
      emptyLoop nbhd k item_b

def nbhdEmpty (nbhd : Table) : Exec Bool := emptyLoop nbhd nbhd.counter nbhd.start

end Masala.Routing
