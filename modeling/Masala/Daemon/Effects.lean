import Masala.Library.Trace
import Masala.Daemon.Runs
import Masala.Daemon.Turns
import Masala.Daemon.Delivery
import Masala.Session.ReplayProtection

/-!
# What a node does, effect by effect

A finer machine than the one of the calls. An effect changes one part of
`_main`, and says what the node has read to change it: a request asks for what
the node is looking for, a reply names contacts of the table or a host of the
database, a contact or a host is one that the packet at hand has named.
-/
namespace Masala.Daemon
open Library Container Bencode Routing Session

inductive Effect
  | idle
  | tick (now : ℤ)
  | draw (id : Id)
  | request (type : ℤ) (sa : Ip) (msg : Message)
  | reply (sa : Ip) (msg : Message)
  | validate (session_id : Id) (valid : Bool)
  | forget
  | contact (id : Id) (sa : Ip)
  | nodes
  | host (host_id : Id) (sa : Ip)
  | hosts
  | search (lkp_id find_id : Id) (callback : Option ℕ) (ctx : ℕ)
  | remember
  | success (lkp_id node_id : Id) (address : Octets 16)
  | timeouts
  | announced
  | answer (call : Call)

/-- Only random numbers for timers, log lines, timers and the multicast flag may differ. -/
structure Idle (m m' : Main) : Prop where
  conf : m'.conf = m.conf
  sockfd : m'.udp.sockfd = m.udp.sockfd
  clock : m'.p2p.time_now = m.p2p.time_now
  nbhd : m'.nbhd = m.nbhd
  cache : m'.cache = m.cache
  lkps : m'.lkps = m.lkps
  announce : m'.announce = m.announce
  database : m'.database = m.database
  urandom : m'.urandom = m.urandom
  reads : m'.reads = m.reads
  out : m'.out = m.out
  calls : m'.calls = m.calls

/-- What `send_exec` adds to the datagrams that have left. -/
def Main.departs (m : Main) (sa : Ip) (datagram : Bytes) : List (Ip × Bytes) :=
  if m.udp.sockfd < 0 then [] else [(sa, datagram)]

/-- The table has a node with this id at this address. -/
def Known (t : Table) (id : Id) (sa : Ip) : Prop := ∃ n ∈ allNodes t, n.id = id ∧ n.c_addr = sa

/-- A pending lookup has the target, and the id or the place in the hash of the lookup id. -/
def Main.Pending (m : Main) (lkp_id find_id : Id) : Prop :=
  ∃ i l, m.lkps.list.item (some i) = .ok l ∧ l.val.find_id = find_id ∧ (l.val.lkp_id = lkp_id ∨
    hashGet (m.lkps.list.look Lookup.key) m.lkps.hash lkp_id.bytes = .ok (some i))

/-- What a node asks for by itself. -/
def Main.Wants (m : Main) : Body → Prop
  | .ping | .find _ => True
  | .announce _ host_id => host_id = m.conf.host_id ∧ m.conf.hostname ≠ none
  | .lookup lkp_id find_id => m.Pending lkp_id find_id
  | _ => False

/-- The list of nodes of a reply: contacts of the table without the questionable ones. -/
def Main.Lists (m : Main) (nodes : List Contact) : Prop :=
  ∃ ns, (∀ n ∈ ns, n ∈ allNodes m.nbhd) ∧ nodes = contacts ns

/-- The answer of a node to a packet. -/
def Main.Answers (m : Main) (packet : ObjBen) : Body → Prop
  | .pong => benSearchDictStr packet 'q' = some (.str [ch 'p'])
  | .nodesFind nodes => benSearchDictStr packet 'q' = some (.str [ch 'f']) ∧ m.Lists nodes
  | .nodesAnnounce lkp_id nodes => benSearchDictStr packet 'q' = some (.str [ch 'a']) ∧
      p2pIsHash (benSearchDictStr packet 'l') = some lkp_id ∧ m.Lists nodes
  | .nodesLookup lkp_id nodes => benSearchDictStr packet 'q' = some (.str [ch 'l']) ∧
      p2pIsHash (benSearchDictStr packet 'l') = some lkp_id ∧ m.Lists nodes
  | .value lkp_id address => benSearchDictStr packet 'q' = some (.str [ch 'l']) ∧
      p2pIsHash (benSearchDictStr packet 'l') = some lkp_id ∧
      ∃ find_id sa, p2pIsHash (benSearchDictStr packet 'f') = some find_id ∧
        dbAddress find_id m = .ok (some sa) ∧ sa.addr = address
  | _ => False

/-- The new lookup of an event: its target, its callback and the argument of the callback. -/
def Event.search? : Event → Option (Id × Option ℕ × ℕ)
  | .lookup callback ctx id => some (id, some callback, ctx)
  | .search id => some (id, none, 0)
  | _ => none

/-- A reply is handled only if its session was known when the packet had been heard. -/
def AcceptsReply (m₀ : Main) (e : Event) (packet : ObjBen) (id key : Id) : Prop :=
  ∃ sender m₁ cache, Heard m₀ e packet id key sender m₁ ∧
    cacheValidate m₁.cache key = .ok (cache, true)

/-- The effects of the event `e` on a node that was in the state `m₀` before it. -/
inductive Work (m₀ : Main) (e : Event) (m : Main) : Effect → Main → Prop
  | idle {m' : Main} (h : Idle m m') : Work m₀ e m .idle m'
  | tick {now : ℤ} (h : e.clock = some now) : Work m₀ e m (.tick now) (m.tick now)
  | draw {id : Id} (hread : m.urandom m.reads = some id) :
      Work m₀ e m (.draw id) { m with reads := m.reads + 1 }
  | request {type : ℤ} {sa : Ip} {session_id : Id} {body : Body} {cache : ObjCache}
      (hbody : m.Wants body)
      (htype : type = SEND_UNICAST ∨ body = .ping ∧ sa.addr.bytes.head? = some 0xff)
      (hread : m.urandom m.reads = some session_id)
      (hcache : cachePut m.p2p.time_now m.cache session_id type = .ok cache) :
      Work m₀ e m (.request type sa ⟨m.conf.node_id, session_id, body⟩) { m with
        reads := m.reads + 1
        cache := cache
        out := m.out ++ m.departs sa (Message.datagram ⟨m.conf.node_id, session_id, body⟩) }
  | reply {packet : ObjBen} {id key : Id} {sender : Ip} {m₁ : Main} {body : Body}
      (h : Heard m₀ e packet id key sender m₁) (hbody : m.Answers packet body) :
      Work m₀ e m (.reply sender ⟨m.conf.node_id, key, body⟩) { m with
        out := m.out ++ m.departs sender (Message.datagram ⟨m.conf.node_id, key, body⟩) }
  | validate {packet : ObjBen} {id key : Id} {sender : Ip} {m₁ : Main} {cache : ObjCache}
      {valid : Bool} (h : Heard m₀ e packet id key sender m₁)
      (hcache : cacheValidate m.cache key = .ok (cache, valid)) :
      Work m₀ e m (.validate key valid) { m with cache := cache }
  | forget {cache : ObjCache} (h : cacheExpire m.p2p.time_now m.cache = .ok cache) :
      Work m₀ e m .forget { m with cache := cache }
  | contact {id : Id} {sa : Ip} {nbhd : Table} (h : Names m₀ e id sa)
      (hchanges : Changes m.conf.node_id m.nbhd nbhd)
      (hknown : ∀ id' sa', Known nbhd id' sa' →
        Known m.nbhd id' sa' ∨ id' = id ∧ sa' = sa) :
      Work m₀ e m (.contact id sa) { m with nbhd := nbhd }
  | nodes {nbhd : Table} (hchanges : Changes m.conf.node_id m.nbhd nbhd)
      (hknown : ∀ id sa, Known nbhd id sa → Known m.nbhd id sa) :
      Work m₀ e m .nodes { m with nbhd := nbhd }
  | host {packet : ObjBen} {id key host_id lkp_id : Id} {sender : Ip} {m₁ m' : Main}
      (h : Heard m₀ e packet id key sender m₁)
      (hq : benSearchDictStr packet 'q' = some (.str [ch 'a']))
      (hf : p2pIsHash (benSearchDictStr packet 'f') = some host_id)
      (hl : p2pIsHash (benSearchDictStr packet 'l') = some lkp_id)
      (hput : dbPut host_id sender m = .ok m')
      (hidle : Idle { m with database := m'.database } m') :
      Work m₀ e m (.host host_id sender) m'
  | hosts {m' : Main} (h : dbExpire m = .ok m')
      (hidle : Idle { m with database := m'.database } m') : Work m₀ e m .hosts m'
  | search {lkp_id find_id : Id} {callback : Option ℕ} {ctx : ℕ} {list : ObjList Lookup} {i : Ptr}
      {hash : ObjHash Ptr Ptr} (h : e.search? = some (find_id, callback, ctx))
      (hread : m.urandom m.reads = some lkp_id)
      (hlist : listPut m.lkps.list ⟨⟨listInit, hashInit 100⟩, find_id, lkp_id, callback, ctx,
        timeAddXSec 5 m⟩ = .ok (list, i))
      (hhash : hashPut (list.look Lookup.key) m.lkps.hash i SHA_DIGEST_LENGTH i = .ok hash) :
      Work m₀ e m (.search lkp_id find_id callback ctx)
        { m with reads := m.reads + 1, lkps := ⟨list, hash⟩ }
  | remember {i : Ptr} {l : ObjItem Lookup} {asked : Asked} {list : ObjList Lookup}
      (hitem : m.lkps.list.item (some i) = .ok l)
      (hlist : m.lkps.list.setVal (some i) { l.val with asked := asked } = .ok list) :
      Work m₀ e m .remember { m with lkps.list := list }
  | success {packet : ObjBen} {id key lkp_id : Id} {address : Octets 16} {m' : Main}
      (h : AcceptsReply m₀ e packet id key)
      (hq : benSearchDictStr packet 'q' = some (.str [ch 'V']))
      (hl : p2pIsHash (benSearchDictStr packet 'l') = some lkp_id)
      (ha : p2pIsIp (benSearchDictStr packet 'a') = some address)
      (hsuccess : lkpSuccess lkp_id id address m = .ok m')
      (hidle : Idle { m with lkps := m'.lkps, calls := m'.calls } m') :
      Work m₀ e m (.success lkp_id id address) m'
  | timeouts {m' : Main} (h : lkpExpire m = .ok m')
      (hidle : Idle { m with lkps := m'.lkps, calls := m'.calls } m') : Work m₀ e m .timeouts m'
  | announced (announce : Registry Announce) :
      Work m₀ e m .announced { m with announce := announce }
  | answer {callback ctx : ℕ} {id : Id} {sa : Ip} (h : e = .lookup callback ctx id)
      (haddress : dbAddress id m = .ok (some sa)) :
      Work m₀ e m (.answer ⟨callback, ctx, id, some sa.addr⟩)
        { m with calls := m.calls ++ [⟨callback, ctx, id, some sa.addr⟩] }

/-- Some effects of the event lead from the first state to the second. -/
abbrev Works (m₀ : Main) (e : Event) : Main → Main → Prop := Steps (Work m₀ e)

/-! ## What effects keep -/

section Keep
variable {m₀ m m' m'' : Main} {e : Event} {eff : Effect}

theorem Idle.refl (m : Main) : Idle m m :=
  ⟨rfl, rfl, rfl, rfl, rfl, rfl, rfl, rfl, rfl, rfl, rfl, rfl⟩

theorem Idle.trans (h : Idle m m') (h' : Idle m' m'') : Idle m m'' :=
  ⟨h'.conf.trans h.conf, h'.sockfd.trans h.sockfd, h'.clock.trans h.clock, h'.nbhd.trans h.nbhd,
    h'.cache.trans h.cache, h'.lkps.trans h.lkps, h'.announce.trans h.announce,
    h'.database.trans h.database, h'.urandom.trans h.urandom, h'.reads.trans h.reads,
    h'.out.trans h.out, h'.calls.trans h.calls⟩

theorem log_idle (m : Main) (format : String) (args : List LogArg) :
    Idle m (m.logInfo format args) := ⟨rfl, rfl, rfl, rfl, rfl, rfl, rfl, rfl, rfl, rfl, rfl, rfl⟩

theorem Main.emit_eq (m : Main) (sa : Ip) (datagram : Bytes) :
    m.emit sa datagram = { m with out := m.out ++ m.departs sa datagram } := by
  rw [Main.emit, Main.departs]
  by_cases hs : m.udp.sockfd < 0
  · rw [if_pos hs, if_pos hs, List.append_nil]
  · rw [if_neg hs, if_neg hs]

theorem known_iff {id : Id} {sa : Ip} (hm : InOrder m) :
    Known m.nbhd id sa ↔ ∃ n, nodeOf m.nbhd id = some n ∧ n.c_addr = sa := by
  obtain ⟨cs, ds, hr⟩ := hm.routed
  constructor
  · rintro ⟨n, hn, hid, hsa⟩
    exact ⟨n, hr.nodeOf_eq_some_iff.mpr ⟨hn, hid⟩, hsa⟩
  · rintro ⟨n, hn, hsa⟩
    obtain ⟨hmem, hid⟩ := hr.nodeOf_eq_some_iff.mp hn
    exact ⟨n, hmem, hid, hsa⟩

/-- Every effect keeps the configuration and changes the table by the table machine. -/
theorem Work.moved (h : Work m₀ e m eff m') : Moved m m' := by
  cases h with
  | idle h => exact ⟨h.conf, h.nbhd ▸ .refl⟩
  | contact _ hchanges _ => exact ⟨rfl, hchanges⟩
  | nodes hchanges _ => exact ⟨rfl, hchanges⟩
  | host _ _ _ _ _ hidle => exact ⟨hidle.conf, hidle.nbhd ▸ .refl⟩
  | hosts _ hidle => exact ⟨hidle.conf, hidle.nbhd ▸ .refl⟩
  | success _ _ _ _ _ hidle => exact ⟨hidle.conf, hidle.nbhd ▸ .refl⟩
  | timeouts _ hidle => exact ⟨hidle.conf, hidle.nbhd ▸ .refl⟩
  | _ => exact ⟨rfl, .refl⟩

theorem Work.inOrder (m : Main) (eff : Effect) (m' : Main) (h : Work m₀ e m eff m')
    (hm : InOrder m) : InOrder m' := h.moved.inOrder hm

theorem Works.inOrder (h : Works m₀ e m m') (hm : InOrder m) : InOrder m' :=
  h.keeps Work.inOrder hm

theorem Works.bind {x : Exec Main} {f : Main → Exec Main} (hm : InOrder m)
    (hx : Ensures x (Works m₀ e m)) (hf : ∀ m', InOrder m' → Ensures (f m') (Works m₀ e m')) :
    Ensures (x >>= f) (Works m₀ e m) := Steps.bind Work.inOrder hm hx hf

theorem idle_works (h : Idle m m') : Works m₀ e m m' := .single (.idle h)

/-- What a step of the call machine adds to the contacts of the table. -/
theorem Deed.known (hm : InOrder m) {act : Act} (h : Deed m act m') {id : Id} {sa : Ip}
    (hknown : Known m'.nbhd id sa) :
    Known m.nbhd id sa ∨ act = .nbhdPut id sa ∨ act = .nbhdPonged id sa := by
  have hm' := (h.moved hm).inOrder hm
  obtain ⟨n, hn, hsa⟩ := (known_iff hm').mp hknown
  rw [known_iff hm]
  have hturn := h.turn hm id
  rw [hn] at hturn
  generalize nodeOf m.nbhd id = r at hturn
  cases hturn with
  | same => exact .inl ⟨n, rfl, hsa⟩
  | enter => exact .inr (.inl (by rw [← hsa]))
  | address => exact .inr (.inl (by rw [← hsa]))
  | pinged => exact .inl ⟨_, rfl, hsa⟩
  | ponged => exact .inr (.inr (by rw [← hsa]))
  | find => exact .inl ⟨_, rfl, hsa⟩

end Keep

/-! ## What effects do to the parts of the state -/

/-- The messages of an effect with their destinations. -/
def Effect.messages : Effect → List (Ip × Message)
  | .request _ sa msg | .reply sa msg => [(sa, msg)]
  | _ => []

section Parts
variable {m₀ m m' : Main} {e : Event} {eff : Effect}

theorem Work.out (h : Work m₀ e m eff m') :
    m'.out = m.out ++ eff.messages.flatMap fun x => m.departs x.1 x.2.datagram := by
  cases h with
  | idle h => simp [Effect.messages, h.out]
  | host _ _ _ _ _ hidle => simp [Effect.messages, hidle.out]
  | hosts _ hidle => simp [Effect.messages, hidle.out]
  | success _ _ _ _ _ hidle => simp [Effect.messages, hidle.out]
  | timeouts _ hidle => simp [Effect.messages, hidle.out]
  | _ => simp [Effect.messages, Main.tick]

/-- A message is a request of the node itself, in a new session, or answers the packet at hand. -/
theorem Work.message (h : Work m₀ e m eff m') {x : Ip × Message} (hx : x ∈ eff.messages) :
    x.2.node_id = m.conf.node_id ∧
      (m.Wants x.2.body ∧ m.urandom m.reads = some x.2.session_id ∧ m'.reads = m.reads + 1 ∨
        ∃ packet id m₁, Heard m₀ e packet id x.2.session_id x.1 m₁ ∧
          m.Answers packet x.2.body) := by
  cases h with
  | request hbody _ hread =>
    obtain rfl := List.mem_singleton.mp hx
    exact ⟨rfl, .inl ⟨hbody, hread, rfl⟩⟩
  | reply h hbody =>
    obtain rfl := List.mem_singleton.mp hx
    exact ⟨rfl, .inr ⟨_, _, _, h, hbody⟩⟩
  | _ => cases hx

theorem Work.out_subset (h : Work m₀ e m eff m') : m.out ⊆ m'.out := by
  rw [h.out]
  exact List.subset_append_left _ _

/-- A datagram that leaves carries a message of the effect. -/
theorem Work.out_cases (h : Work m₀ e m eff m') {d : Ip × Bytes} (hd : d ∈ m'.out) :
    d ∈ m.out ∨ ∃ x ∈ eff.messages, d.1 = x.1 ∧ d.2 = x.2.datagram := by
  rw [h.out, List.mem_append, List.mem_flatMap] at hd
  rcases hd with hd | ⟨x, hx, hd⟩
  · exact .inl hd
  · rw [Main.departs] at hd
    split at hd
    · cases hd
    · rw [List.mem_singleton.mp hd]
      exact .inr ⟨x, hx, rfl, rfl⟩

/-- The random numbers are read one after the other. -/
theorem Work.random (h : Work m₀ e m eff m') : m'.urandom = m.urandom ∧ m.reads ≤ m'.reads := by
  cases h with
  | idle h => exact ⟨h.urandom, h.reads.ge⟩
  | draw => exact ⟨rfl, Nat.le_succ _⟩
  | request => exact ⟨rfl, Nat.le_succ _⟩
  | search => exact ⟨rfl, Nat.le_succ _⟩
  | host _ _ _ _ _ hidle => exact ⟨hidle.urandom, hidle.reads.ge⟩
  | hosts _ hidle => exact ⟨hidle.urandom, hidle.reads.ge⟩
  | success _ _ _ _ _ hidle => exact ⟨hidle.urandom, hidle.reads.ge⟩
  | timeouts _ hidle => exact ⟨hidle.urandom, hidle.reads.ge⟩
  | _ => exact ⟨rfl, Nat.le_refl _⟩

/-- The clock stands still or is set to that of the event. -/
theorem Work.clock (h : Work m₀ e m eff m') :
    m'.p2p.time_now = m.p2p.time_now ∨ e.clock = some m'.p2p.time_now := by
  cases h with
  | idle h => exact .inl h.clock
  | tick h => exact .inr h
  | host _ _ _ _ _ hidle => exact .inl hidle.clock
  | hosts _ hidle => exact .inl hidle.clock
  | success _ _ _ _ _ hidle => exact .inl hidle.clock
  | timeouts _ hidle => exact .inl hidle.clock
  | _ => exact .inl rfl

/-- Contacts come into the table by being named. -/
theorem Work.known (h : Work m₀ e m eff m') {id : Id} {sa : Ip} (hknown : Known m'.nbhd id sa) :
    Known m.nbhd id sa ∨ Names m₀ e id sa := by
  cases h with
  | contact hname _ hnew =>
    rcases hnew id sa hknown with hold | ⟨rfl, rfl⟩
    · exact .inl hold
    · exact .inr hname
  | nodes _ hold => exact .inl (hold id sa hknown)
  | idle h => exact .inl (h.nbhd ▸ hknown)
  | host _ _ _ _ _ hidle => exact .inl (hidle.nbhd ▸ hknown)
  | hosts _ hidle => exact .inl (hidle.nbhd ▸ hknown)
  | success _ _ _ _ _ hidle => exact .inl (hidle.nbhd ▸ hknown)
  | timeouts _ hidle => exact .inl (hidle.nbhd ▸ hknown)
  | _ => exact .inl hknown

/-- What an effect at the clock `now` does with the session cache. -/
def Effect.cacheEvents (now : ℤ) : Effect → List CacheEvent
  | .request type _ msg => [.put now msg.session_id type]
  | .validate session_id _ => [.validate session_id]
  | .forget => [.expire now]
  | _ => []

theorem Work.cache (h : Work m₀ e m eff m') :
    (eff.cacheEvents m.p2p.time_now).foldlM cacheStep m.cache = .ok m'.cache := by
  cases h with
  | idle h => exact congrArg _ h.cache.symm
  | request _ _ _ hcache => exact congrArg (· >>= Except.ok) hcache
  | validate h hcache =>
    rw [Effect.cacheEvents, List.foldlM_cons, cacheStep, hcache]
    rfl
  | forget h => exact congrArg (· >>= Except.ok) h
  | host _ _ _ _ _ hidle => exact congrArg _ hidle.cache.symm
  | hosts _ hidle => exact congrArg _ hidle.cache.symm
  | success _ _ _ _ _ hidle => exact congrArg _ hidle.cache.symm
  | timeouts _ hidle => exact congrArg _ hidle.cache.symm
  | _ => rfl

end Parts
end Masala.Daemon
