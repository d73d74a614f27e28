import Masala.Daemon.Hosts
import Masala.Daemon.Confirmation

/-!
# Every request is answered at most once

The guarantees of the session cache for whole runs of a node: after a reply has
been accepted, another one in the same session is only accepted if the request
was a PING to a multicast address.
-/
namespace Masala.Daemon
open Library Container Bencode Routing Session

/-- The session that an event starts. -/
def put? : CacheEvent → Option Id
  | .put _ id _ => some id
  | _ => none

/-- The cache of the node has gone through these events. Its sessions are random numbers of the
node, each started once, and only multicast requests are not unicast. -/
structure Sessions (es : List CacheEvent) (m : Main) : Prop where
  inOrder : InOrder m
  history : cacheRun es = .ok m.cache
  drawn : ∀ id ∈ es.filterMap put?, ∃ k < m.reads, m.urandom k = some id
  once : (es.filterMap put?).Nodup
  multicast : ∀ now id type, .put now id type ∈ es → type ≠ SEND_UNICAST →
    ∃ sa : Ip, sa.addr.bytes.head? = some 0xff ∧
      (m.udp.sockfd < 0 ∨ (sa, Message.datagram ⟨m.conf.node_id, id, .ping⟩) ∈ m.out)

section Sessions
variable {m₀ m m' : Main} {e : Event} {eff : Effect} {es : List CacheEvent} {key : Id}

/-- The socket of a node does not change. -/
theorem Work.sockfd (h : Work m₀ e m eff m') : m'.udp.sockfd = m.udp.sockfd := by
  cases h with
  | idle h => exact h.sockfd
  | host _ _ _ _ _ hidle => exact hidle.sockfd
  | hosts _ hidle => exact hidle.sockfd
  | success _ _ _ _ _ hidle => exact hidle.sockfd
  | timeouts _ hidle => exact hidle.sockfd
  | _ => rfl

/-- The sessions that an effect starts are requests with the next random number. -/
theorem Work.puts (h : Work m₀ e m eff m') {now now' : ℤ} {id : Id} {type : ℤ}
    (hput : .put now' id type ∈ eff.cacheEvents now) :
    eff.cacheEvents now = [.put now' id type] ∧ m.urandom m.reads = some id ∧
      m'.reads = m.reads + 1 ∧ (type ≠ SEND_UNICAST → ∃ sa : Ip,
        sa.addr.bytes.head? = some 0xff ∧ (m'.udp.sockfd < 0 ∨
          (sa, Message.datagram ⟨m'.conf.node_id, id, .ping⟩) ∈ m'.out)) := by
  cases h with
  | request hbody htype hread hcache =>
    obtain ⟨rfl, rfl, rfl⟩ := CacheEvent.put.inj (List.mem_singleton.mp hput)
    refine ⟨rfl, hread, rfl, fun hmulti => ?_⟩
    obtain ⟨rfl, haddr⟩ := htype.resolve_left hmulti
    refine ⟨_, haddr, ?_⟩
    by_cases hs : m.udp.sockfd < 0
    · exact .inl hs
    · refine .inr (List.mem_append_right _ ?_)
      rw [Main.departs, if_neg hs]
      exact List.mem_singleton_self _
  | validate => cases List.mem_singleton.mp hput
  | forget => cases List.mem_singleton.mp hput
  | _ => cases hput

theorem Sessions.work (h : Sessions es m) (hw : Work m₀ e m eff m')
    (hdraws : ∀ k k' id, m.urandom k = some id → m.urandom k' = some id → k = k') :
    Sessions (es ++ eff.cacheEvents m.p2p.time_now) m' := by
  have hlater : ∀ id ∈ es.filterMap put?, ∃ k < m'.reads, m'.urandom k = some id := by
    intro id hid
    obtain ⟨k, hk, hdraw⟩ := h.drawn id hid
    exact ⟨k, Nat.lt_of_lt_of_le hk hw.random.2, by rw [hw.random.1, hdraw]⟩
  have hnew : ∀ id ∈ (eff.cacheEvents m.p2p.time_now).filterMap put?,
      (eff.cacheEvents m.p2p.time_now).filterMap put? = [id] ∧ m.urandom m.reads = some id ∧
        m'.reads = m.reads + 1 := by
    intro id hid
    obtain ⟨ev, hev, hput⟩ := List.mem_filterMap.mp hid
    cases ev with
    | put now id' type =>
      obtain rfl := Option.some.inj hput
      obtain ⟨heq, hread, hreads, -⟩ := hw.puts hev
      exact ⟨by rw [heq]; rfl, hread, hreads⟩
    | validate s => cases hput
    | expire now => cases hput
  refine ⟨hw.moved.inOrder h.inOrder, ?_, fun id hid => ?_, ?_, fun now id type hput hmulti => ?_⟩
  · have hrun := h.history
    rw [cacheRun] at hrun ⊢
    rw [List.foldlM_append, hrun]
    exact hw.cache
  · rw [List.filterMap_append, List.mem_append] at hid
    rcases hid with hid | hid
    · exact hlater id hid
    · obtain ⟨-, hread, hreads⟩ := hnew id hid
      exact ⟨m.reads, by rw [hreads]; exact Nat.lt_succ_self _, by rw [hw.random.1, hread]⟩
  · rw [List.filterMap_append, List.nodup_append]
    refine ⟨h.once, ?_, fun id hid id' hid' heq => ?_⟩
    · cases hputs : (eff.cacheEvents m.p2p.time_now).filterMap put? with
      | nil => exact List.nodup_nil
      | cons id ids =>
        have hone := (hnew id (by rw [hputs]; exact List.mem_cons_self)).1
        rw [hputs] at hone
        rw [hone]
        exact List.nodup_singleton id
    · subst heq
      obtain ⟨k, hk, hdraw⟩ := h.drawn id hid
      obtain ⟨-, hread, -⟩ := hnew id hid'
      exact absurd (hdraws k m.reads id hdraw hread) (Nat.ne_of_lt hk)
  · rcases List.mem_append.mp hput with hput | hput
    · obtain ⟨sa, haddr, hsaid⟩ := h.multicast now id type hput hmulti
      refine ⟨sa, haddr, hsaid.imp (fun hs => by rwa [hw.sockfd]) fun hout => ?_⟩
      rw [hw.moved.conf]
      exact hw.out_subset hout
    · exact (hw.puts hput).2.2.2 hmulti

/-- Effects go on with the events of the cache. -/
theorem Sessions.works (h : Sessions es m) (hw : Works m₀ e m m')
    (hdraws : ∀ k k' id, m.urandom k = some id → m.urandom k' = some id → k = k') :
    ∃ es', Sessions (es ++ es') m' ∧ m'.urandom = m.urandom := by
  let Inv : Main → Prop := fun m₁ => ∃ es', Sessions (es ++ es') m₁ ∧ m₁.urandom = m.urandom
  have hkeep : ∀ m₁ eff m₂, Work m₀ e m₁ eff m₂ → Inv m₁ → Inv m₂ := by
    rintro m₁ eff m₂ hw ⟨es', h₁, hsame⟩
    have h₂ := h₁.work hw (by rwa [hsame])
    rw [List.append_assoc] at h₂
    exact ⟨_, h₂, hw.random.1.trans hsame⟩
  have hstart : Inv m := ⟨[], by rwa [List.append_nil], rfl⟩
  exact hw.keeps hkeep hstart

theorem Sessions.events (h : Sessions es m) {events : List Event} (hrun : m.run events = .ok m')
    (hdraws : ∀ k k' id, m.urandom k = some id → m.urandom k' = some id → k = k') :
    ∃ es', Sessions (es ++ es') m' ∧ m'.urandom = m.urandom := by
  have hstep : ∀ m₁ ev, (∃ es', Sessions (es ++ es') m₁ ∧ m₁.urandom = m.urandom) →
      Ensures (Main.step m₁ ev) fun m₂ => ∃ es', Sessions (es ++ es') m₂ ∧
        m₂.urandom = m.urandom := by
    rintro m₁ ev ⟨es₁, h₁, hsame⟩ m₂ hm₂
    obtain ⟨es₂, h₂, hsame'⟩ := h₁.works (step_works h₁.inOrder ev m₂ hm₂) (by rwa [hsame])
    rw [List.append_assoc] at h₂
    exact ⟨_, h₂, hsame'.trans hsame⟩
  exact ensures_foldlM hstep ⟨[], by rwa [List.append_nil], rfl⟩ events m' hrun

/-- The cache when a packet has been heard. -/
theorem Sessions.heard (h : Sessions es m) {packet : ObjBen} {id : Id} {sender : Ip} {m₁ : Main}
    (hheard : Heard m e packet id key sender m₁)
    (hdraws : ∀ k k' id, m.urandom k = some id → m.urandom k' = some id → k = k') :
    ∃ es', Sessions (es ++ es') m₁ ∧ m₁.urandom = m.urandom := by
  have htimed := timed_works m e
  have hput : Works m e (m.timed e) m₁ := by
    cases hheard with
    | packet hdec hid hforeign hkey hput =>
      exact nbhdPut_works (htimed.inOrder h.inOrder)
        (.sender (.packet hdec hid hforeign hkey hput)) m₁ hput
  exact h.works (htimed.trans hput) hdraws

/-- The entry of a session that is accepted. -/
theorem Sessions.entry (h : Sessions es m) {cache : ObjCache}
    (hvalid : cacheValidate m.cache key = .ok (cache, true)) : ∃ sk, entryOf es key = some sk :=
  accepts_iff.mp ⟨m.cache, cache, h.history, hvalid⟩

theorem mem_put? {now : ℤ} {id : Id} {type : ℤ} (h : .put now id type ∈ es) :
    id ∈ es.filterMap put? := List.mem_filterMap.mpr ⟨_, h, rfl⟩

end Sessions

/-- A node that draws no random number twice accepts a second reply in the same session, anywhere
in a run, only if the request was a PING to a multicast address. -/
theorem node_replays (conf : Conf) (udp : Udp) (time_now : ℤ) (urandom : ℕ → Option Id)
    (random : ℕ → ℕ)
    (hdraws : ∀ k k' id, urandom k = some id → urandom k' = some id → k = k')
    (pre mid : List Event) (e e' : Event) (key : Id) (m₁ m₂ m₃ : Main)
    (h₁ : nodeRun conf udp time_now urandom random pre = .ok m₁) (h₂ : m₁.step e = .ok m₂)
    (h₃ : m₂.run mid = .ok m₃) (hfirst : AcceptsAnswer m₁ e key)
    (hagain : AcceptsAnswer m₃ e' key) :
    ∃ sa : Ip, sa.addr.bytes.head? = some 0xff ∧ (m₃.udp.sockfd < 0 ∨
      (sa, Message.datagram ⟨m₃.conf.node_id, key, .ping⟩) ∈ m₃.out) := by
  obtain ⟨m₀, hinit, hrun⟩ := exec_bind_eq_ok.mp h₁
  obtain ⟨-, hm₀, -⟩ := mainInit_ensures _ _ _ _ _ m₀ hinit
  have hstart : Sessions [] m₀ ∧ m₀.urandom = urandom := by
    obtain ⟨t, -, hinit⟩ := exec_bind_eq_ok.mp hinit
    obtain rfl := Except.ok.inj hinit
    exact ⟨⟨hm₀, rfl, by simp, List.nodup_nil, by simp⟩, rfl⟩
  -- up to the first reply, when its sender has been put
  obtain ⟨es₁, hs₁, hr₁⟩ := hstart.1.events hrun (by rwa [hstart.2])
  obtain ⟨packet, id, sender, m, cache, q, hheard, hq, hreply, hvalid⟩ := hfirst
  obtain ⟨es₂, hs₂, hr₂⟩ := hs₁.heard hheard (by rwa [hr₁, hstart.2])
  obtain ⟨sk, hsk⟩ := hs₂.entry hvalid
  obtain ⟨es₀, now, type, rest, hput, rfl, -, -⟩ := entryOf_eq_some_iff.mp hsk
  have hmem : CacheEvent.put now key type ∈ [] ++ es₁ ++ es₂ := by
    rw [hput]
    exact List.mem_append_right _ List.mem_cons_self
  -- the reply is handled after its session has been validated
  rw [hheard.step hq] at h₂
  obtain ⟨cache', valid, hvalid', hworks⟩ := dispatch_validated hheard hs₂.inOrder hq hreply m₂ h₂
  have hs₃ := hs₂.work (.validate hheard hvalid') (by rwa [hr₂, hr₁, hstart.2])
  obtain ⟨es₃, hs₄, hr₃⟩ := hs₃.works hworks (by rwa [hr₂, hr₁, hstart.2])
  obtain ⟨es₄, hs₅, hr₄⟩ := hs₄.events h₃ (by rwa [hr₃, hr₂, hr₁, hstart.2])
  by_cases htype : type = SEND_UNICAST
  · -- the session has been consumed, and is not started a second time
    obtain ⟨_, _, _, m', cache'', _, hheard', -, -, hvalid''⟩ := hagain
    obtain ⟨es₅, hs₆, -⟩ := hs₅.heard hheard' (by rwa [hr₄, hr₃, hr₂, hr₁, hstart.2])
    obtain ⟨sk', hsk'⟩ := hs₆.entry hvalid''
    have hnone : entryOf ([] ++ es₁ ++ es₂ ++ [.validate key]) key = none := by
      have hend : Ends ⟨key, now + TIME_1_MINUTE, type⟩ (.validate key) := ⟨rfl, htype⟩
      rw [entryOf_snoc, hsk]
      exact entryStep_of_ends hend
    have honce := hs₆.once
    rw [List.append_assoc, List.append_assoc] at hsk' honce
    obtain ⟨now', type', hput'⟩ := exists_put_of_some hnone hsk'
    rw [List.filterMap_append, List.nodup_append] at honce
    exact absurd rfl (honce.2.2 key (mem_put? (List.mem_append_left _ hmem)) key (mem_put? hput'))
  · have hlater := List.mem_append_left es₄ (List.mem_append_left es₃
      (List.mem_append_left (Effect.cacheEvents m.p2p.time_now (.validate key valid)) hmem))
    exact hs₅.multicast now key type hlater htype

theorem Message.accepted {msg : Message} {m m₁ : Main} {now : ℤ} {sender : Ip} {cache : ObjCache}
    (hlen : msg.datagram.length ≤ UDP_BUF) (hforeign : ¬ nodeMe m msg.node_id)
    (hput : nbhdPut msg.node_id sender (m.timed (.packet now msg.datagram sender)) = .ok m₁)
    (hreply : IsReply (ch msg.body.query))
    (hvalid : cacheValidate m₁.cache msg.session_id = .ok (cache, true)) :
    AcceptsAnswer m (.packet now msg.datagram sender) msg.session_id :=
  ⟨msg.tree, msg.node_id, sender, m₁, cache, _, msg.heard hlen hforeign hput,
    msg.readIn_tree.query, hreply, hvalid⟩

/-- Two PONGs to the first PING, a multicast one. -/
def pongFrom (c : UInt8) : Message := ⟨headId c, headId 0, .pong⟩

theorem node_replays_pair : ∃ m₁ m₂,
    nodeRun ⟨headId 0xff, headId 0, none, none⟩ ⟨3, true⟩ 0
      (fun k => if k < 8 then some (headId k.toUInt8) else none) (fun _ => 0) [firstPing] = .ok m₁ ∧
    m₁.step (.packet 1 (pongFrom 1).datagram (newNode (headId 0)).c_addr) = .ok m₂ ∧
    ∃ sa : Ip, sa.addr.bytes.head? = some 0xff ∧ (m₂.udp.sockfd < 0 ∨
      (sa, Message.datagram ⟨m₂.conf.node_id, headId 0, .ping⟩) ∈ m₂.out) := by
  let sa : Ip := (newNode (headId 0)).c_addr
  have hcalc : (do
      let m₁ ← nodeRun ⟨headId 0xff, headId 0, none, none⟩ ⟨3, true⟩ 0
        (fun k => if k < 8 then some (headId k.toUInt8) else none) (fun _ => 0) [firstPing]
      let m ← nbhdPut (headId 1) sa (m₁.tick 1)
      let r ← cacheValidate m.cache (headId 0)
      let m₂ ← m₁.step (.packet 1 (pongFrom 1).datagram sa)
      let m' ← nbhdPut (headId 2) sa (m₂.tick 1)
      let r' ← cacheValidate m'.cache (headId 0)
      return (r.2, r'.2, nodeMe m₁ (headId 1), nodeMe m₂ (headId 2))) =
      .ok (true, true, false, false) := by decide +kernel
  obtain ⟨m₁, h₁, hcalc⟩ := exec_bind_eq_ok.mp hcalc
  obtain ⟨m, hput, hcalc⟩ := exec_bind_eq_ok.mp hcalc
  obtain ⟨⟨cache, valid⟩, hvalid, hcalc⟩ := exec_bind_eq_ok.mp hcalc
  obtain ⟨m₂, h₂, hcalc⟩ := exec_bind_eq_ok.mp hcalc
  obtain ⟨m', hput', hcalc⟩ := exec_bind_eq_ok.mp hcalc
  obtain ⟨⟨cache', valid'⟩, hvalid', hcalc⟩ := exec_bind_eq_ok.mp hcalc
  simp only [exec_pure, Except.ok.injEq, Prod.mk.injEq] at hcalc
  obtain ⟨rfl, rfl, hme, hme'⟩ := hcalc
  have hfirst : AcceptsAnswer m₁ (.packet 1 (pongFrom 1).datagram sa) (headId 0) :=
    Message.accepted (by decide) (by simp [pongFrom, hme]) hput (by decide) hvalid
  have hagain : AcceptsAnswer m₂ (.packet 1 (pongFrom 2).datagram sa) (headId 0) :=
    Message.accepted (by decide) (by simp [pongFrom, hme']) hput' (by decide) hvalid'
  exact ⟨m₁, m₂, h₁, h₂,
    node_replays _ _ _ _ _ (fun _ _ _ => headId_draws) [firstPing] [] _ _ (headId 0) m₁ m₂ m₂ h₁ h₂
      rfl hfirst hagain⟩

end Masala.Daemon
