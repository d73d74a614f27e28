import Masala.Routing.Bucket
import Masala.Session.Cache
import Masala.Bencode.Encode

/-!
# The state of a node

`_main` with the parts that `p2p.c` and the functions below it read or write.
A node does one call after the other: most of them run under its mutex, and the
others (`nbhd_put` for a packet, a callback with a known address) are taken to
run without interruption as well. The readings of `/dev/urandom` and `random`
are given in advance; datagrams, log lines and callbacks are recorded in the
order of their calls.
-/
namespace Masala.Daemon
open Library Container Bencode Routing Session

def AF_INET6 : UInt16 := 10
def TIME_2_MINUTES : ℕ := 120
def TIME_4_MINUTES : ℤ := 240
def TIME_15_MINUTES : ℤ := 900

/-- The configuration; `none` is a NULL string. -/
structure Conf where
  node_id : Id
  host_id : Id
  hostname : Option String
  interface : Option String

structure P2p where
  time_now : ℤ
  time_maintainance : ℤ
  time_multicast : ℤ
  time_announce : ℤ
  time_restart : ℤ
  time_expire : ℤ
  time_split : ℤ
  time_ping : ℤ
  time_find : ℤ

structure Udp where
  sockfd : ℤ
  multicast : Bool

def idKey (id : Id) : Bytes := id.bytes

/-- The nodes a lookup or announcement has asked. -/
abbrev Asked := Registry Id

structure Lookup where
  asked : Asked
  find_id : Id
  lkp_id : Id
  callback : Option ℕ
  ctx : ℕ
  time_find : ℤ

def Lookup.key (l : Lookup) : Bytes := l.lkp_id.bytes

structure Announce where
  asked : Asked
  lkp_id : Id
  time_find : ℤ

def Announce.key (a : Announce) : Bytes := a.lkp_id.bytes

structure Db where
  host_id : Id
  c_addr : Ip
  time_anno : ℤ
deriving DecidableEq

def Db.key (db : Db) : Bytes := db.host_id.bytes

/-- The arguments of a log line before `addr_str` and `id_str` print them. -/
inductive LogArg
  | addr (sa : Ip)
  | id (id : Id)
  | num (n : ℕ)
  | str (s : String)
deriving DecidableEq

structure LogLine where
  format : String
  args : List LogArg
deriving DecidableEq

/-- An invocation of a callback; the address `none` is NULL. -/
structure Call where
  callback : ℕ
  ctx : ℕ
  node_id : Id
  address : Option (Octets 16)
deriving DecidableEq

structure Main where
  conf : Conf
  p2p : P2p
  udp : Udp
  nbhd : Table
  cache : ObjCache
  lkps : Registry Lookup
  announce : Registry Announce
  database : Registry Db
  urandom : ℕ → Option Id
  random : ℕ → ℕ
  reads : ℕ
  draws : ℕ
  out : List (Ip × Bytes)
  log : List LogLine
  calls : List Call

/-- `_main` after the `*_init` functions. -/
def mainInit (conf : Conf) (udp : Udp) (time_now : ℤ) (urandom : ℕ → Option Id)
    (random : ℕ → ℕ) : Exec Main := do
  let nbhd ← bcktInit
  return {
    conf, udp, nbhd, urandom, random
    p2p := ⟨time_now, 0, 0, 0, 0, 0, 0, 0, 0⟩
    cache := cacheInit
    lkps := ⟨listInit, hashInit 4096⟩
    announce := ⟨listInit, hashInit 4096⟩
    database := ⟨listInit, hashInit 4096⟩
    reads := 0, draws := 0, out := [], log := [], calls := [] }

namespace Main

/-- `log_info`. -/
def logInfo (m : Main) (format : String) (args : List LogArg) : Main :=
  { m with log := m.log ++ [⟨format, args⟩] }

/-- `gettimeofday( &_main->p2p->time_now, NULL )`. -/
def tick (m : Main) (now : ℤ) : Main := { m with p2p.time_now := now }

/-- `random() % TIME_2_MINUTES`. -/
def drawn (m : Main) : ℤ := ((m.random m.draws % TIME_2_MINUTES : ℕ) : ℤ)

end Main

/-- `rand_urandom` for an id. -/
def randUrandom (m : Main) : Exec (Id × Main) :=
  match m.urandom m.reads with
  | none => .error (.fatal "Failed to read /dev/urandom")
  | some buffer => .ok (buffer, { m with reads := m.reads + 1 })

def timeAddXSec (sec : ℤ) (m : Main) : ℤ := m.p2p.time_now + sec

def timeAdd15Min (m : Main) : ℤ := m.p2p.time_now + TIME_15_MINUTES

def timeAdd2MinApprox (m : Main) : ℤ × Main :=
  (m.p2p.time_now + TIME_1_MINUTE + m.drawn, { m with draws := m.draws + 1 })

def timeAdd5MinApprox (m : Main) : ℤ × Main :=
  (m.p2p.time_now + TIME_4_MINUTES + m.drawn, { m with draws := m.draws + 1 })

/-- `send_exec`: nothing is sent before the socket is open. -/
def sendExec (sa : Ip) (raw : Option ObjRaw) (m : Main) : Exec Main :=
  if m.udp.sockfd < 0 then .ok m
  else match raw with
    | none => .error .null
    | some raw => do
      let bytes ← copyFrom raw.code 0 raw.size
      return { m with out := m.out ++ [(sa, bytes)] }

def nodeMe (m : Main) (node_id : Id) : Bool := nodeEqual node_id m.conf.node_id

end Masala.Daemon
