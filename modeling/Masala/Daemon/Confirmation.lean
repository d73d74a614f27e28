import Masala.Daemon.Lifetime
import Masala.Daemon.ReplySize

/-!
# Contacts that have answered from where they are named

`send_node` leaves out nodes with an unanswered ping. What it names has answered
under the address it names, as long as no packet gives such a node another
address: `nbhd_put` writes an address without making the node questionable again.
-/
namespace Masala.Daemon
open Library Container Bencode Routing Session

/-- `p2p_pong` has accepted a PONG with this id from this address and port, and the table has had
the id ever since. An event stores nodes or removes them, never both. -/
inductive Confirmed (m₀ : Main) (c : Contact) : List Event → Main → Prop
  | pong {es : List Event} {e : Event} {m m' : Main} {sa : Ip} (run : m₀.run es = .ok m)
      (accepts : AcceptsPong m e c.id sa) (addr : sa.addr = c.addr) (port : sa.port = c.port)
      (step : m.step e = .ok m') : Confirmed m₀ c (es ++ [e]) m'
  | keep {es : List Event} {e : Event} {m m' : Main} (before : Confirmed m₀ c es m)
      (step : m.step e = .ok m') (stored : Stored m' c.id) : Confirmed m₀ c (es ++ [e]) m'

/-- The event answers the packet with a NODES reply over the bucket. -/
inductive Answers (m : Main) (e : Event) (b : Buck) : ReplyType → Prop
  | find {packet : ObjBen} {id key find_id : Id} {sender : Ip} {m' : Main}
      (heard : Heard m e packet id key sender m')
      (query : benSearchDictStr packet 'q' = some (.str [ch 'f']))
      (target : p2pIsHash (benSearchDictStr packet 'f') = some find_id)
      (chosen : Chosen m' find_id b) : Answers m e b .F
  | announce {packet : ObjBen} {id key host_id lkp_id : Id} {sender : Ip} {m' m'' : Main}
      (heard : Heard m e packet id key sender m')
      (query : benSearchDictStr packet 'q' = some (.str [ch 'a']))
      (target : p2pIsHash (benSearchDictStr packet 'f') = some host_id)
      (lookup : p2pIsHash (benSearchDictStr packet 'l') = some lkp_id)
      (put : dbPut host_id sender m' = .ok m'') (chosen : Chosen m'' host_id b) :
      Answers m e b .A
  | lookup {packet : ObjBen} {id key find_id lkp_id : Id} {sender : Ip} {m' m'' : Main}
      (heard : Heard m e packet id key sender m')
      (query : benSearchDictStr packet 'q' = some (.str [ch 'l']))
      (target : p2pIsHash (benSearchDictStr packet 'f') = some find_id)
      (lookup : p2pIsHash (benSearchDictStr packet 'l') = some lkp_id)
      (absent : dbSend sender find_id lkp_id key m' = .ok (m'', false))
      (chosen : Chosen m'' find_id b) : Answers m e b .L

/-- The event gives a node without unanswered pings another address or port, other than by an
accepted PONG from there. -/
def Moves (m : Main) (e : Event) : Prop :=
  ∃ n ∈ allNodes m.nbhd, n.pinged = 0 ∧ ∃ sa, Names m e n.id sa ∧
    ¬ (sa.addr = n.c_addr.addr ∧ sa.port = n.c_addr.port) ∧ ¬ AcceptsPong m e n.id sa

/-- No event up to the end moves a node. -/
def Steady (m₀ : Main) (es : List Event) : Prop :=
  ∀ es₁ e es₂ m, es = es₁ ++ e :: es₂ → m₀.run es₁ = .ok m → ¬ Moves m e

/-! ## One event -/

section Event
variable {m m' : Main} {e : Event} {b : Buck} {type : ReplyType}

theorem Chosen.aside {target : Id} (h : Chosen m' target b) (haside : Aside m m') :
    Chosen m target b := by
  rwa [Chosen, ← haside.nbhd]

/-- The request has been heard, and its bucket is chosen from the table after `nbhd_put`. -/
theorem Answers.heard (h : Answers m e b type) : ∃ packet id key sender m' q,
    Heard m e packet id key sender m' ∧ benSearchDictStr packet 'q' = some (.str [q]) ∧
      q ≠ ch 'o' ∧ ∃ target, Chosen m' target b := by
  cases h with
  | find heard query target chosen =>
    exact ⟨_, _, _, _, _, _, heard, query, by decide, _, chosen⟩
  | announce heard query target lookup put chosen =>
    exact ⟨_, _, _, _, _, _, heard, query, by decide, _, chosen.aside (dbPut_aside _ _ _ _ put)⟩
  | lookup heard query target lookup absent chosen =>
    have haside := dbSend_aside _ _ _ _ _ _ absent
    exact ⟨_, _, _, _, _, _, heard, query, by decide, _, chosen.aside haside⟩

theorem Chosen.send {target : Id} (h : Chosen m target b) (sa : Ip) (lkp : Option Id) (key : Id)
    (type : ReplyType) : nbhdSend sa target lkp key type m = sendNode sa b key lkp type m := by
  obtain ⟨item_b, it, hany, hitem, rfl⟩ := h
  rw [nbhdSend, hany, exec_ok_bind]
  dsimp only
  rw [hitem, exec_ok_bind]

theorem Heard.conf {packet : ObjBen} {id key : Id} {sender : Ip}
    (h : Heard m e packet id key sender m') : m'.conf = m.conf := by
  cases h with
  | packet hdec hid hforeign hkey hput =>
    exact (nbhdPut_beside _ _ _ _ hput).conf.trans (timed_moved m _).conf

/-- The handlers of requests end in `send_node`. -/
theorem Answers.step (h : Answers m e b type) : ∃ sender key lkp lkp_id m'',
    m.step e = sendNode sender b key lkp type m'' ∧ m''.conf = m.conf ∧
      (type = .F ∨ lkp = some lkp_id) := by
  cases h with
  | @find packet id key find_id sender m' heard query target chosen =>
    have hdispatch : dispatch (ch 'f') packet id key sender m' = p2pFind packet key sender m' := rfl
    refine ⟨sender, key, none, find_id, m', ?_, heard.conf, .inl rfl⟩
    rw [heard.step query, hdispatch, p2pFind, target]
    exact chosen.send _ _ _ _
  | @announce packet id key host_id lkp_id sender m' m'' heard query target lookup put chosen =>
    have hdispatch : dispatch (ch 'a') packet id key sender m' =
        p2pAnnounce packet key sender m' := rfl
    have hconf := (dbPut_aside host_id sender m' m'' put).conf
    refine ⟨sender, key, some lkp_id, lkp_id, m'', ?_, hconf.trans heard.conf, .inr rfl⟩
    rw [heard.step query, hdispatch, p2pAnnounce, target]
    dsimp only
    rw [lookup]
    dsimp only
    rw [put, exec_ok_bind]
    exact chosen.send _ _ _ _
  | @lookup packet id key find_id lkp_id sender m' m'' heard query target lookup absent chosen =>
    have hdispatch : dispatch (ch 'l') packet id key sender m' =
        p2pLookup packet key sender m' := rfl
    have hconf := (dbSend_aside sender find_id lkp_id key m' _ absent).conf
    refine ⟨sender, key, some lkp_id, lkp_id, m'', ?_, hconf.trans heard.conf, .inr rfl⟩
    rw [heard.step query, hdispatch, p2pLookup, target]
    dsimp only
    rw [lookup]
    dsimp only
    rw [absent, exec_ok_bind]
    exact chosen.send _ _ _ _

/-- While an event is handled, a node without unanswered pings is one from before, or the event is
its PONG. -/
def Holding (m : Main) (e : Event) (m₁ : Main) : Prop :=
  ∀ x n, nodeOf m₁.nbhd x = some n → n.pinged = 0 →
    (∃ n₀, nodeOf m.nbhd x = some n₀ ∧ n₀.pinged = 0 ∧ contactOf n₀ = contactOf n) ∨
      AcceptsPong m e x n.c_addr

theorem Holding.step {m₁ m₂ : Main} {act : Act} (hm : InOrder m) (hm₁ : InOrder m₁)
    (hstay : ¬ Moves m e) (hact : Causes m e act) (hd : Deed m₁ act m₂) (h : Holding m e m₁) :
    Holding m e m₂ := by
  obtain ⟨cs, ds, hr⟩ := hm.routed
  intro x n' hn' hpinged
  have hold := h x
  have hturn := hd.turn hm₁ x
  rw [hn'] at hturn
  generalize hr₁ : nodeOf m₁.nbhd x = r at hturn hold
  cases hturn with
  | same => exact hold n' rfl hpinged
  | enter time_find hle => cases hpinged
  | @address sa n =>
    have hnames : Names m e x sa := hact
    rcases hold n rfl hpinged with ⟨n₀, hn₀, hp₀, hc₀⟩ | hpong
    · obtain ⟨hmem, hid⟩ := hr.nodeOf_eq_some_iff.mp hn₀
      by_cases hpong : AcceptsPong m e x sa
      · exact .inr hpong
      · refine .inl ⟨n₀, hn₀, hp₀, ?_⟩
        have hsame : sa.addr = n₀.c_addr.addr ∧ sa.port = n₀.c_addr.port := by
          by_contra hne
          subst hid
          exact hstay ⟨n₀, hmem, hp₀, sa, hnames, hne, hpong⟩
        have hids : n₀.id = n.id := congrArg Contact.id hc₀
        simp only [contactOf, hids, hsame.1, hsame.2]
    · exact .inr (hpong.names hnames ▸ hpong)
  | pinged hdue hle => cases hpinged
  | ponged n hle => exact .inr hact
  | find n time_find => exact hold n rfl hpinged

theorem Holding.does {m₁ m₂ : Main} (hm : InOrder m) (hm₁ : InOrder m₁) (hstay : ¬ Moves m e)
    (h : Holding m e m₁) (hdoes : Does (Causes m e) m₁ m₂) : Holding m e m₂ := by
  have hstep : ∀ m₁ act m₂, Causes m e act → Deed m₁ act m₂ → InOrder m₁ ∧ Holding m e m₁ →
      InOrder m₂ ∧ Holding m e m₂ := by
    rintro m₁ act m₂ hact hd ⟨hm₁, h₁⟩
    exact ⟨(hd.moved hm₁).inOrder hm₁, h₁.step hm hm₁ hstay hact hd⟩
  exact (hdoes.keeps hstep ⟨hm₁, h⟩).2

theorem timed_nbhd (m : Main) (e : Event) : (m.timed e).nbhd = m.nbhd := by
  rw [Main.timed]
  cases e.clock <;> rfl

theorem holding_start (m : Main) (e : Event) : Holding m e (m.timed e) := by
  intro x n hn hp
  rw [timed_nbhd] at hn
  exact .inl ⟨n, hn, hp, rfl⟩

end Event

/-! ## Runs -/

section Run
variable {m₀ m m' : Main} {e : Event} {es : List Event} {b : Buck}

/-- Every node without unanswered pings is confirmed where it is stored. -/
def Vouched (m₀ : Main) (es : List Event) (m : Main) : Prop :=
  ∀ n ∈ allNodes m.nbhd, n.pinged = 0 → Confirmed m₀ (contactOf n) es m

theorem Vouched.step (hm : InOrder m) (hrun : m₀.run es = .ok m) (hstay : ¬ Moves m e)
    (h : Vouched m₀ es m) (hs : m.step e = .ok m') : Vouched m₀ (es ++ [e]) m' := by
  have hm' := (step_moved hm e m' hs).inOrder hm
  have hmt := (timed_moved m e).inOrder hm
  have hheld := (holding_start m e).does hm hmt hstay (step_does hm e m' hs)
  obtain ⟨cs, ds, hr⟩ := hm.routed
  obtain ⟨cs', ds', hr'⟩ := hm'.routed
  intro n hn hp
  rcases hheld n.id n (hr'.nodeOf_eq_some_iff.mpr ⟨hn, rfl⟩) hp with ⟨n₀, hn₀, hp₀, hc⟩ | hpong
  · have hconf := h n₀ (hr.nodeOf_eq_some_iff.mp hn₀).1 hp₀
    rw [hc] at hconf
    exact hconf.keep hs ⟨n, hn, rfl⟩
  · exact .pong hrun hpong rfl rfl hs

theorem Steady.left {fs : List Event} (h : Steady m₀ (es ++ fs)) : Steady m₀ es := by
  rintro es₁ e es₂ m rfl hrun
  exact h es₁ e (es₂ ++ fs) m (by simp) hrun

theorem run_snoc (es : List Event) (e : Event) :
    m₀.run (es ++ [e]) = m₀.run es >>= fun m => m.step e := foldlM_snoc Main.step m₀ es e

theorem run_vouched (hm₀ : InOrder m₀) (hempty : allNodes m₀.nbhd = []) (hsteady : Steady m₀ es)
    (hrun : m₀.run es = .ok m) : InOrder m ∧ Vouched m₀ es m := by
  induction es using List.reverseRecOn generalizing m with
  | nil =>
    obtain rfl := Except.ok.inj hrun
    refine ⟨hm₀, fun n hn => ?_⟩
    rw [hempty] at hn
    cases hn
  | append_singleton es e ih =>
    rw [run_snoc] at hrun
    obtain ⟨m₁, hrun₁, hs⟩ := exec_bind_eq_ok.mp hrun
    obtain ⟨hm₁, hvouched⟩ := ih hsteady.left hrun₁
    have hstay := hsteady es e [] m₁ rfl hrun₁
    exact ⟨(step_moved hm₁ e m hs).inOrder hm₁, hvouched.step hm₁ hrun₁ hstay hs⟩

/-- The contacts of a reply are confirmed before the request. -/
theorem Answers.confirmed {type : ReplyType} (hm : InOrder m) (hvouched : Vouched m₀ es m)
    (hstay : ¬ Moves m e) (h : Answers m e b type) :
    Holds b.nodes b.nodes.items ∧
      ∀ c ∈ contacts (b.nodes.items.map Prod.snd), Confirmed m₀ c es m := by
  obtain ⟨packet, id, key, sender, m', q, hheard, hq, hpong, target, hchosen⟩ := h.heard
  have hmt := (timed_moved m e).inOrder hm
  have hdoes : Does (Causes m e) (m.timed e) m' := by
    cases hheard with
    | packet hdec hid hforeign hkey hput =>
      exact .single (.nbhdPut hput) (.sender (.packet hdec hid hforeign hkey hput))
  have hm' := (hdoes.moved hmt).inOrder hmt
  have hheld := (holding_start m e).does hm hmt hstay hdoes
  obtain ⟨c, hc, hholds⟩ := hm'.chosen_cell hchosen
  refine ⟨hm'.chosen_holds hchosen, fun a ha => ?_⟩
  obtain ⟨n, hn, rfl⟩ := List.mem_map.mp ha
  obtain ⟨hmem, hp⟩ := List.mem_filter.mp hn
  rw [hholds.items_eq] at hmem
  obtain ⟨cs, ds, hr⟩ := hm.routed
  obtain ⟨cs', ds', hr'⟩ := hm'.routed
  have hnode := hr'.nodeOf_eq_some_iff.mpr ⟨mem_allNodes.mpr ⟨c, hc, hmem⟩, rfl⟩
  rcases hheld n.id n hnode (by simpa using hp) with ⟨n₀, hn₀, hp₀, hc₀⟩ | hno
  · exact hc₀ ▸ hvouched n₀ (hr.nodeOf_eq_some_iff.mp hn₀).1 hp₀
  · -- a PONG is no request
    obtain ⟨packet', key', m₁, cache, hheard', hq', -⟩ := hno
    obtain rfl := (hheard.unique hheard').1
    have hch : q = ch 'o' := by simpa using hq.symm.trans hq'
    exact absurd hch hpong

end Run

/-- In every run whose events do not move nodes, each request is answered with a NODES reply that
names confirmed contacts only. -/
theorem reply_confirmed (conf : Conf) (udp : Udp) (time_now : ℤ) (urandom : ℕ → Option Id)
    (random : ℕ → ℕ) (events : List Event) (e : Event) (m₀ m : Main) (b : Buck) (type : ReplyType)
    (hinit : mainInit conf udp time_now urandom random = .ok m₀) (hrun : m₀.run events = .ok m)
    (hsteady : Steady m₀ (events ++ [e])) (hans : Answers m e b type) :
    (∃ (sender : Ip) (session_id lkp_id : Id) (m' : Main), m.step e =
        .ok ((m'.emit sender (Message.datagram ⟨conf.node_id, session_id,
          nodesBody lkp_id (contacts (b.nodes.items.map Prod.snd)) type⟩)).logInfo
            (nodeFormat type) [.addr sender])) ∧
      ∀ c ∈ contacts (b.nodes.items.map Prod.snd), Confirmed m₀ c events m := by
  obtain ⟨hconf, hm₀, -⟩ := mainInit_ensures conf udp time_now urandom random m₀ hinit
  have hempty := mainInit_empty conf udp time_now urandom random m₀ hinit
  obtain ⟨hm, hvouched⟩ := run_vouched hm₀ hempty hsteady.left hrun
  have hstay : ¬ Moves m e := hsteady events e [] m rfl hrun
  obtain ⟨hholds, hcontacts⟩ := hans.confirmed hm hvouched hstay
  refine ⟨?_, hcontacts⟩
  obtain ⟨sender, key, lkp, lkp_id, m', hstep, hconf', hlkp⟩ := hans.step
  have hown : m'.conf.node_id = conf.node_id := by
    rw [hconf', ((run_moved hm₀ events m hrun).conf), hconf]
  refine ⟨sender, key, lkp_id, m', ?_⟩
  rw [hstep, sendNode_eq sender m' hholds key lkp_id type hlkp, hown]

/-! ## A claimed id -/

section Claimed
variable {msg : Message} {now : ℤ} {sender : Ip} {m m' : Main}

theorem Message.decodes_datagram (hlen : msg.datagram.length ≤ UDP_BUF) :
    Decodes msg.datagram msg.tree := by
  have htake : msg.datagram.take UDP_BUF = msg.datagram := List.take_of_length_le hlen
  have hpos : msg.datagram.length ≠ 0 := by
    rw [msg.length_eq]
    omega
  refine ⟨by rwa [htake], ?_, ?_, rfl⟩
  · rw [htake]
    exact ⟨_, msg.validates⟩
  · rw [htake]
    exact ⟨_, msg.decodes (Nat.lt_succ_self _)⟩

theorem Message.heard (hlen : msg.datagram.length ≤ UDP_BUF) (hforeign : ¬ nodeMe m msg.node_id)
    (hput : nbhdPut msg.node_id sender (m.timed (.packet now msg.datagram sender)) = .ok m') :
    Heard m (.packet now msg.datagram sender) msg.tree msg.node_id msg.session_id sender m' :=
  .packet (msg.decodes_datagram hlen) msg.readIn_tree.node_id hforeign msg.readIn_tree.session_id
    hput

theorem Heard.sender_eq {e : Event} {packet : ObjBen} {id key : Id}
    (h : Heard m e packet id key sender m') : ∃ now datagram, e = .packet now datagram sender := by
  cases h with
  | packet => exact ⟨_, _, rfl⟩

theorem Names.packet {e : Event} {id : Id} {sa : Ip} (h : Names m e id sa) :
    ∃ now datagram sender, e = .packet now datagram sender := by
  cases h with
  | sender h =>
    obtain ⟨now, datagram, rfl⟩ := h.sender_eq
    exact ⟨now, datagram, _, rfl⟩
  | reply h hcache hquery hnodes hn hmem =>
    obtain ⟨now, datagram, rfl⟩ := h.sender_eq
    exact ⟨now, datagram, _, rfl⟩

/-- A message other than a NODES reply only names its own node. -/
theorem Message.names (hlen : msg.datagram.length ≤ UDP_BUF) {id : Id} {sa : Ip}
    (hq : ch msg.body.query ∉ ['F', 'A', 'L'].map ch)
    (h : Names m (.packet now msg.datagram sender) id sa) : id = msg.node_id := by
  have hpacket : ∀ {packet id key sa m'},
      Heard m (.packet now msg.datagram sender) packet id key sa m' →
        packet = msg.tree ∧ id = msg.node_id := by
    rintro packet id key sa m' (⟨hdec, hid, -, -, -⟩)
    obtain ⟨n, hn⟩ := hdec.decoded
    obtain ⟨n', hn'⟩ := (msg.decodes_datagram hlen).decoded
    obtain rfl := Option.some.inj (congrArg Prod.fst (Except.ok.inj (hn.symm.trans hn')))
    exact ⟨rfl, Option.some.inj (hid.symm.trans msg.readIn_tree.node_id)⟩
  cases h with
  | sender h => exact (hpacket h).2
  | @reply _ _ _ _ _ _ q _ h hcache hquery hnodes hn hmem =>
    obtain ⟨rfl, -⟩ := hpacket h
    have hch : ch msg.body.query = q := by
      simpa using msg.readIn_tree.query.symm.trans hquery
    exact absurd hnodes.mem (hch ▸ hq)

/-- Behind a confirmed contact stands a PONG of the history. -/
theorem Confirmed.accepted {m₀ : Main} {c : Contact} {es : List Event} (h : Confirmed m₀ c es m) :
    ∃ e ∈ es, ∃ m₁ sa, AcceptsPong m₁ e c.id sa ∧ sa.addr = c.addr := by
  induction h with
  | @pong es e m m' sa run accepts addr port step => exact ⟨e, by simp, m, sa, accepts, addr⟩
  | keep before step stored ih =>
    obtain ⟨e, he, hrest⟩ := ih
    exact ⟨e, List.mem_append_left _ he, hrest⟩

end Claimed

def elsewhere : Ip := ⟨AF_INET6, Octets.replicate 2 1, 0, Octets.replicate 16 1, 0⟩

/-- The FIND of the node `c`, from another address than that of the first PONG. -/
def asking (c : UInt8) : Message := ⟨headId c, headId 0, .find (headId 1)⟩

def askingEvent (c : UInt8) : Event := .packet 2 (asking c).datagram elsewhere

def freshNode : Exec Main :=
  mainInit ⟨headId 0xff, headId 0, none, none⟩ ⟨3, true⟩ 0 (fun k => some (headId k.toUInt8))
    (fun _ => 0)

/-- The contacts that the node `c` is told after the first PONG. -/
def toldContacts (c : UInt8) : Exec (List Id × List Contact) := do
  let m₀ ← freshNode
  let m ← m₀.run [firstPing, firstPong]
  let m' ← nbhdPut (headId c) elsewhere (m.timed (askingEvent c))
  let item_b ← bcktFindAnyMatch m'.nbhd (headId 1)
  let b ← m'.nbhd.item item_b
  return ((allNodes m.nbhd).map Node.id, contacts (b.val.nodes.items.map Prod.snd))

theorem asking_length (c : UInt8) : (asking c).datagram.length ≤ UDP_BUF := by
  rw [Message.length_eq]
  have hfind : 2 + (26 + (26 + (encodeD ((Body.find (headId 1)).fields ++
      [field 'q' [ch 'f']])).length)) ≤ UDP_BUF := by decide +kernel
  exact hfind

theorem toldContacts_answers {c : UInt8} {ids : List Id} {cs : List Contact}
    (hc : headId c ≠ headId 0xff) (h : toldContacts c = .ok (ids, cs)) : ∃ m₀ m b,
      freshNode = .ok m₀ ∧ m₀.run [firstPing, firstPong] = .ok m ∧
      Answers m (askingEvent c) b .F ∧ (allNodes m.nbhd).map Node.id = ids ∧
      contacts (b.nodes.items.map Prod.snd) = cs := by
  obtain ⟨m₀, hinit, h⟩ := exec_bind_eq_ok.mp h
  obtain ⟨m, hrun, h⟩ := exec_bind_eq_ok.mp h
  obtain ⟨m', hput, h⟩ := exec_bind_eq_ok.mp h
  obtain ⟨item_b, hany, h⟩ := exec_bind_eq_ok.mp h
  obtain ⟨b, hitem, h⟩ := exec_bind_eq_ok.mp h
  obtain ⟨hids, hcs⟩ := Prod.mk.inj (Except.ok.inj h)
  obtain ⟨hconf, hm₀, -⟩ := mainInit_ensures _ _ _ _ _ m₀ hinit
  have hforeign : ¬ nodeMe m (headId c) := by
    rw [nodeMe_iff, (run_moved hm₀ _ m hrun).conf, hconf]
    exact hc
  have hheard := (asking c).heard (asking_length c) hforeign hput
  cases item_b with
  | none => cases hitem
  | some item_b =>
    have hchosen : Chosen m' (headId 1) b.val := ⟨item_b, b, hany, hitem, rfl⟩
    exact ⟨m₀, m, b.val, hinit, hrun,
      .find hheard (asking c).readIn_tree.query (asking c).readIn_tree.body hchosen, hids, hcs⟩

/-- The first PONG is confirmed to another node. -/
theorem reply_confirmed_pong : ∃ m₀ m, freshNode = .ok m₀ ∧
    m₀.run [firstPing, firstPong] = .ok m ∧
    Confirmed m₀ (contactOf (newNode (headId 1))) [firstPing, firstPong] m := by
  have htold : toldContacts 2 = .ok ([headId 1], [contactOf (newNode (headId 1))]) := by
    decide +kernel
  obtain ⟨m₀, m, b, hinit, hrun, hans, hids, hcs⟩ := toldContacts_answers (by decide) htold
  have hsteady : Steady m₀ ([firstPing, firstPong] ++ [askingEvent 2]) := by
    rintro es₁ e es₂ m₁ hes hrun₁ ⟨n, hn, -, sa, hnames, -, -⟩
    have hmem : n.id ∈ (allNodes m₁.nbhd).map Node.id := List.mem_map_of_mem hn
    match es₁ with
    | [] =>
      obtain ⟨rfl, -⟩ := List.cons.inj hes
      obtain ⟨now, datagram, sender, he⟩ := hnames.packet
      cases he
    | [_] =>
      obtain ⟨rfl, -⟩ := List.cons.inj hes
      have hnone : (do
          let m₀ ← freshNode
          let m₁ ← m₀.run [firstPing]
          return (allNodes m₁.nbhd).map Node.id) = .ok [] := by decide +kernel
      rw [hinit, exec_ok_bind, hrun₁] at hnone
      rw [Except.ok.inj hnone] at hmem
      cases hmem
    | [_, _] =>
      obtain ⟨rfl, hes₁⟩ := List.cons.inj hes
      obtain ⟨rfl, hes₂⟩ := List.cons.inj hes₁
      obtain ⟨rfl, -⟩ := List.cons.inj hes₂
      obtain rfl := Except.ok.inj (hrun.symm.trans hrun₁)
      rw [hids, List.mem_singleton] at hmem
      have hid := (asking 2).names (asking_length 2) (by decide) hnames
      exact absurd (hmem.symm.trans hid) (by decide)
    | _ :: _ :: _ :: _ => simp at hes
  have hconf := (reply_confirmed _ _ _ _ _ _ _ m₀ m b .F hinit hrun hsteady hans).2
  exact ⟨m₀, m, hinit, hrun, hconf _ (by simp [hcs])⟩

/-- A FIND from elsewhere with the id of the first PONG is enough to be named there. -/
theorem reply_unconfirmed : ¬ ∀ conf udp time_now urandom random events e m₀ m b type,
    mainInit conf udp time_now urandom random = .ok m₀ → m₀.run events = .ok m →
      Answers m e b type →
        ∀ c ∈ contacts (b.nodes.items.map Prod.snd), Confirmed m₀ c events m := by
  intro hall
  have htold : toldContacts 1 =
      .ok ([headId 1], [⟨headId 1, elsewhere.addr, elsewhere.port⟩]) := by decide +kernel
  obtain ⟨m₀, m, b, hinit, hrun, hans, -, hcs⟩ := toldContacts_answers (by decide) htold
  have hconf := hall _ _ _ _ _ _ _ m₀ m b .F hinit hrun hans
    ⟨headId 1, elsewhere.addr, elsewhere.port⟩ (by simp [hcs])
  obtain ⟨e, he, m₁, sa, ⟨packet, key, m', cache, hheard, -⟩, haddr⟩ := hconf.accepted
  obtain ⟨now, datagram, rfl⟩ := hheard.sender_eq
  simp only [firstPing, firstPong, List.mem_cons, reduceCtorEq, false_or, List.not_mem_nil,
    or_false, Event.packet.injEq] at he
  rw [he.2.2] at haddr
  exact absurd haddr (by decide)

end Masala.Daemon
