import Masala.Daemon.Packets

/-!
# Housekeeping and runs

`p2p_cron`, which every worker calls after a packet and on a timed wakeup, and
the runs of a node. What the resolver and the socket answer in one pass is an
argument.
-/
namespace Masala.Daemon
open Library Container Bencode Routing Session

/-- The answers of the system: `getaddrinfo` for the bootstrap node, or the text of its error,
`getaddrinfo` for the multicast group, `if_nametoindex` and the `setsockopt` that joins. -/
structure Env where
  bootstrap : Except String (List Ip)
  multicast : Bool
  if_nametoindex : String → ℕ
  joined : Bool

def bootstrapPings : List Ip → Main → Exec Main
  | [], m => .ok m
  | p :: info, m => do
    let type := if p.addr.bytes.head? = some 0xff then SEND_MULTICAST else SEND_UNICAST
    let m ← sendPing p type m
    bootstrapPings info m

def p2pBootstrap (env : Env) (m : Main) : Exec Main :=
  let m := m.logInfo "Connecting to a bootstrap server" []
  match env.bootstrap with
  | .error rc => .ok (m.logInfo "getaddrinfo: %s" [.str rc])
  | .ok info => bootstrapPings info m

def p2pAnnounceMyself (m : Main) : Exec Main :=
  if m.conf.hostname ≠ none then do
    let (lkp_id, m) ← randUrandom m
    announcePut lkp_id m.conf.host_id m
  else .ok m

def udpMulticast (env : Env) (m : Main) : Exec Main :=
  if ¬ env.multicast then .error (.fatal "getaddrinfo failed")
  else if m.conf.interface.any fun interface => env.if_nametoindex interface = 0 then
    .error (.fatal "Cannot get device '%s': %s")
  else if env.joined then .ok { m with udp.multicast := true }
  else .ok (m.logInfo "Trying to register multicast address failed: I will retry it later." [])

/-- `if( time_now > timer ) { ... timer = time_add_... }`. -/
def every (timer : P2p → ℤ) (act : Main → Exec Main) (delay : Main → ℤ × Main)
    (set : ℤ → P2p → P2p) (m : Main) : Exec Main :=
  if m.p2p.time_now > timer m.p2p then do
    let m ← act m
    let (time, m) := delay m
    return { m with p2p := set time m.p2p }
  else .ok m

def expireAll (m : Main) : Exec Main := do
  let m ← announceExpire m
  let cache ← cacheExpire m.p2p.time_now m.cache
  let nbhd ← nbhdExpire m.nbhd
  let m ← lkpExpire { m with cache := cache, nbhd := nbhd }
  dbExpire m

/-- `nbhd_split` on `_main->nbhd`. After 160 splits in a row it never ends. -/
def splitAll (m : Main) : Exec Main := do
  let nbhd ← nbhdSplit m.conf.node_id 161 m.nbhd
  return { m with nbhd := nbhd }

def p2pCron (now : ℤ) (env : Env) (m : Main) : Exec Main := do
  let m := m.tick now
  let m ← every P2p.time_expire expireAll timeAdd2MinApprox
    (fun t p => { p with time_expire := t }) m
  let empty ← nbhdEmpty m.nbhd
  let m ← if empty then
      every P2p.time_restart (p2pBootstrap env) timeAdd2MinApprox
        (fun t p => { p with time_restart := t }) m
    else do
      let m ← every P2p.time_split splitAll timeAdd2MinApprox
        (fun t p => { p with time_split := t }) m
      let m ← every P2p.time_ping nbhdPing timeAdd2MinApprox
        (fun t p => { p with time_ping := t }) m
      let m ← every P2p.time_find nbhdFindMyself timeAdd2MinApprox
        (fun t p => { p with time_find := t }) m
      let m ← every P2p.time_maintainance nbhdFindRandom timeAdd2MinApprox
        (fun t p => { p with time_maintainance := t }) m
      every P2p.time_announce p2pAnnounceMyself timeAdd5MinApprox
        (fun t p => { p with time_announce := t }) m
  if ¬ m.udp.multicast then
    every P2p.time_multicast (udpMulticast env) timeAdd5MinApprox
      (fun t p => { p with time_multicast := t }) m
  else return m

/-! ## Runs -/

/-- What the threads of a node do, one after the other. A packet is one event, although `nbhd_put`
runs outside the mutex, and so is a lookup, which leaves it between `db_address` and what follows.
The `udp_cron` behind each packet is an event of its own. A `search` is the
`lkp_put( id, NULL, NULL )` of the console and of the lookups that wait for no answer. -/
inductive Event
  | packet (now : ℤ) (datagram : Bytes) (sender : Ip)
  | cron (now : ℤ) (env : Env)
  | lookup (callback ctx : ℕ) (id : Id)
  | search (id : Id)

def Main.step (m : Main) : Event → Exec Main
  | .packet now datagram sender => udpInput now datagram sender m
  | .cron now env => p2pCron now env m
  | .lookup callback ctx id => dnsLookup callback ctx id m
  | .search id => lkpPut id none 0 m

/-- The state after a sequence of events. -/
def Main.run (m : Main) (events : List Event) : Exec Main := events.foldlM Main.step m

end Masala.Daemon
