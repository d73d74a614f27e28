import Masala.Daemon.Neighborhood

/-!
# Lookups, announcements and the database

The functions of `lookup.c`, `announce.c` and `database.c`. A callback is
recorded where the source calls it.
-/
namespace Masala.Daemon
open Library Container Bencode Routing Session

/-! ## Lookups -/

/-- `lkp_put` without its result, the item of the new lookup. -/
def lkpPut (find_id : Id) (callback : Option ℕ) (ctx : ℕ) (m : Main) : Exec Main := do
  let (lkp_id, m) ← randUrandom m
  let l : Lookup := ⟨⟨listInit, hashInit 100⟩, find_id, lkp_id, callback, ctx, timeAddXSec 5 m⟩
  let (list, i) ← listPut m.lkps.list l
  let hash ← hashPut (list.look Lookup.key) m.lkps.hash i SHA_DIGEST_LENGTH i
  nbhdLookup i { m with lkps := ⟨list, hash⟩ }

def lkpDel (i : Ptr) (m : Main) : Exec Main := do
  let l ← m.lkps.list.item (some i)
  let hash ← hashDel (m.lkps.list.look Lookup.key) m.lkps.hash l.val.lkp_id.bytes
  let (list, _) ← listDel m.lkps.list (some i)
  return { m with lkps := ⟨list, hash⟩ }

/-- `if( l->callback ) l->callback( ... )`. -/
def Lookup.call (l : Lookup) (node_id : Id) (address : Option (Octets 16)) (m : Main) : Main :=
  match l.callback with
  | none => m
  | some callback => { m with calls := m.calls ++ [⟨callback, l.ctx, node_id, address⟩] }

def lkpExpireLoop : ℕ → Option Ptr → Main → Exec Main
  | _, none, m => .ok m
  | 0, some _, _ => .error .fuel
  | fuel + 1, some item, m => do
    let l ← m.lkps.list.item (some item)
    let next ← listNext m.lkps.list (some item)
    let m ← if m.p2p.time_now > l.val.time_find then
        lkpDel item (l.val.call l.val.find_id none m)
      else pure m
    lkpExpireLoop fuel next m

def lkpExpire (m : Main) : Exec Main := lkpExpireLoop m.lkps.list.counter m.lkps.list.start m

def lkpResolve (lkp_id node_id : Id) (c_addr : Ip) (m : Main) : Exec Main := do
  match ← hashGet (m.lkps.list.look Lookup.key) m.lkps.hash lkp_id.bytes with
  | none => return m
  | some i =>
    let l ← m.lkps.list.item (some i)
    if ← hashExists (l.val.asked.list.look idKey) l.val.asked.hash node_id.bytes then return m
    else
      let m ← if nodeMe m node_id then pure m else sendLookup c_addr l.val.find_id lkp_id m
      lkpRemember i node_id m

def lkpSuccess (lkp_id node_id : Id) (address : Octets 16) (m : Main) : Exec Main := do
  match ← hashGet (m.lkps.list.look Lookup.key) m.lkps.hash lkp_id.bytes with
  | none => return m
  | some i =>
    let l ← m.lkps.list.item (some i)
    lkpDel i (l.val.call node_id (some address) m)

/-! ## Announcements -/

def announcePut (lkp_id host_id : Id) (m : Main) : Exec Main := do
  let a : Announce := ⟨⟨listInit, hashInit 100⟩, lkp_id, timeAddXSec 10 m⟩
  let (list, i) ← listPut m.announce.list a
  let hash ← hashPut (list.look Announce.key) m.announce.hash i SHA_DIGEST_LENGTH i
  nbhdAnnounce i host_id { m with announce := ⟨list, hash⟩ }

def announceDel (i : Ptr) (m : Main) : Exec Main := do
  let a ← m.announce.list.item (some i)
  let hash ← hashDel (m.announce.list.look Announce.key) m.announce.hash a.val.lkp_id.bytes
  let (list, _) ← listDel m.announce.list (some i)
  return { m with announce := ⟨list, hash⟩ }

def announceExpireLoop : ℕ → Option Ptr → Main → Exec Main
  | _, none, m => .ok m
  | 0, some _, _ => .error .fuel
  | fuel + 1, some i, m => do
    let a ← m.announce.list.item (some i)
    let n ← listNext m.announce.list (some i)
    let m ← if m.p2p.time_now > a.val.time_find then announceDel i m else pure m
    announceExpireLoop fuel n m

def announceExpire (m : Main) : Exec Main :=
  announceExpireLoop m.announce.list.counter m.announce.list.start m

def announceResolve (lkp_id node_id : Id) (c_addr : Ip) (m : Main) : Exec Main := do
  match ← hashGet (m.announce.list.look Announce.key) m.announce.hash lkp_id.bytes with
  | none => return m
  | some i =>
    let a ← m.announce.list.item (some i)
    if ← hashExists (a.val.asked.list.look idKey) a.val.asked.hash node_id.bytes then return m
    else
      let m ← if ¬ nodeMe m node_id ∧ m.conf.hostname ≠ none then
          sendAnnounce c_addr lkp_id m.conf.host_id m
        else pure m
      announceRemember i node_id m

/-! ## The database -/

def dbFind (host_id : Id) (m : Main) : Exec (Option Ptr) :=
  hashGet (m.database.list.look Db.key) m.database.hash host_id.bytes

def dbUpdate (i : Ptr) (sa : Ip) (m : Main) : Exec Main := do
  let db ← m.database.list.item (some i)
  let list ← m.database.list.setVal (some i)
    { db.val with time_anno := timeAdd15Min m, c_addr := sa }
  return { m with database.list := list }

def dbPut (host_id : Id) (sa : Ip) (m : Main) : Exec Main := do
  match ← dbFind host_id m with
  | none =>
    let (list, i) ← listPut m.database.list ⟨host_id, sa, timeAdd15Min m⟩
    let hash ← hashPut (list.look Db.key) m.database.hash i SHA_DIGEST_LENGTH i
    let m := { m with database := ⟨list, hash⟩ }
    dbUpdate i sa (m.logInfo "Database size: %li (+1)" [.num m.database.list.counter])
  | some i => dbUpdate i sa m

def dbDel (i : Ptr) (m : Main) : Exec Main := do
  let db ← m.database.list.item (some i)
  let hash ← hashDel (m.database.list.look Db.key) m.database.hash db.val.host_id.bytes
  let (list, _) ← listDel m.database.list (some i)
  return { m with database := ⟨list, hash⟩ }

/-- The loop of `db_expire`, whose bound is the counter of the list it deletes from. -/
def dbExpireLoop : ℕ → ℕ → Option Ptr → Main → Exec Main
  | 0, _, _, _ => .error .fuel
  | fuel + 1, j, i, m => do
    if j < m.database.list.counter then
      match i with
      | none => .error .null
      | some i =>
        let db ← m.database.list.item (some i)
        let n ← listNext m.database.list (some i)
        let m ← if m.p2p.time_now > db.val.time_anno then do
            let m ← dbDel i m
            pure (m.logInfo "Database size: %li (-1)" [.num m.database.list.counter])
          else pure m
        dbExpireLoop fuel (j + 1) n m
    else return m

def dbExpire (m : Main) : Exec Main :=
  dbExpireLoop (m.database.list.counter + 1) 0 m.database.list.start m

def dbSend (sa : Ip) (host_id lkp_id session_id : Id) (m : Main) : Exec (Main × Bool) := do
  match ← dbFind host_id m with
  | none => return (m, false)
  | some i =>
    let db ← m.database.list.item (some i)
    let m ← sendValue sa db.val.c_addr session_id lkp_id m
    return (m, true)

def dbAddress (host_id : Id) (m : Main) : Exec (Option Ip) := do
  match ← dbFind host_id m with
  | none => return none
  | some i =>
    let db ← m.database.list.item (some i)
    return some db.val.c_addr

/-- `dns_lookup`, and `web_lookup` in the same words. -/
def dnsLookup (callback ctx : ℕ) (id : Id) (m : Main) : Exec Main := do
  match ← dbAddress id m with
  | some addr => return { m with calls := m.calls ++ [⟨callback, ctx, id, some addr.addr⟩] }
  | none => lkpPut id (some callback) ctx m

end Masala.Daemon
