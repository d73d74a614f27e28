import Masala.Daemon.Network

/-!
# Requests and replies agree

The random numbers of different nodes differ. Then a reply that a node accepts
answers a request of this node: the sender of the reply has received exactly
this request, and the reply is of its kind and for its lookup.
-/
namespace Masala.Daemon
open Library Container Bencode Routing Session

/-! ## Messages determine each other -/

def Body.IsRequest : Body → Prop
  | .ping | .find _ | .announce _ _ | .lookup _ _ => True
  | _ => False

/-- A reply of the kind and for the lookup of a request. -/
inductive Replies : Body → Body → Prop
  | pong : Replies .ping .pong
  | nodesFind (find_id : Id) (nodes : List Contact) : Replies (.find find_id) (.nodesFind nodes)
  | nodesAnnounce (lkp_id host_id : Id) (nodes : List Contact) :
      Replies (.announce lkp_id host_id) (.nodesAnnounce lkp_id nodes)
  | nodesLookup (lkp_id find_id : Id) (nodes : List Contact) :
      Replies (.lookup lkp_id find_id) (.nodesLookup lkp_id nodes)
  | value (lkp_id find_id : Id) (address : Octets 16) :
      Replies (.lookup lkp_id find_id) (.value lkp_id address)

section Message
variable {msg msg' req : Message} {m : Main} {body : Body}

theorem Replies.isRequest {b b' : Body} (h : Replies b b') : b.IsRequest ∧ ¬ b'.IsRequest := by
  cases h <;> exact ⟨trivial, id⟩

theorem wants_isRequest (h : m.Wants body) : body.IsRequest := by
  cases body with
  | ping => trivial
  | find find_id => trivial
  | announce lkp_id host_id => trivial
  | lookup lkp_id find_id => trivial
  | _ => exact h.elim

theorem query_injective {b : Body} {c : Char} {packet : ObjBen}
    (h : benSearchDictStr packet 'q' = some (.str [ch b.query]))
    (h' : benSearchDictStr packet 'q' = some (.str [ch c])) : ch b.query = ch c := by
  simpa using h.symm.trans h'

/-- The answer to a message that has been heard is of its kind. -/
theorem answers_replies (h : m.Answers req.tree body) : Replies req.body body := by
  have hread := req.readIn_tree
  have hquery : ∀ c : Char, benSearchDictStr req.tree 'q' = some (.str [ch c]) →
      ch req.body.query = ch c := fun c => query_injective hread.query
  have hbody := hread.body
  generalize req.tree = packet at h hquery hbody
  obtain ⟨node_id, session_id, asked⟩ := req
  cases body with
  | pong =>
    have hq := hquery _ h
    cases asked with
    | ping => exact .pong
    | _ => exact absurd hq (by simp [Body.query])
  | nodesFind nodes =>
    have hq := hquery _ h.1
    cases asked with
    | find find_id => exact .nodesFind find_id nodes
    | _ => exact absurd hq (by simp [Body.query])
  | nodesAnnounce lkp_id nodes =>
    have hq := hquery _ h.1
    cases asked with
    | announce lkp_id' host_id =>
      obtain rfl : lkp_id' = lkp_id := Option.some.inj (hbody.2.symm.trans h.2.1)
      exact .nodesAnnounce lkp_id' host_id nodes
    | _ => exact absurd hq (by simp [Body.query])
  | nodesLookup lkp_id nodes =>
    have hq := hquery _ h.1
    cases asked with
    | lookup lkp_id' find_id =>
      obtain rfl : lkp_id' = lkp_id := Option.some.inj (hbody.2.symm.trans h.2.1)
      exact .nodesLookup lkp_id' find_id nodes
    | _ => exact absurd hq (by simp [Body.query])
  | value lkp_id address =>
    have hq := hquery _ h.1
    cases asked with
    | lookup lkp_id' find_id =>
      obtain rfl : lkp_id' = lkp_id := Option.some.inj (hbody.2.symm.trans h.2.1)
      exact .value lkp_id' find_id address
    | _ => exact absurd hq (by simp [Body.query])
  | _ => exact h.elim

/-- A packet has the fields of one body of each kind. -/
theorem Body.ReadIn.unique {b b' : Body} {packet : ObjBen} (h : b.ReadIn packet)
    (h' : b'.ReadIn packet) (hq : ch b.query = ch b'.query) : b = b' := by
  have hnodes : ∀ {nodes nodes' : List Contact},
      (∃ l, benSearchDictStr packet 'n' = some (.list l) ∧ l.map readContact = nodes.map some) →
      (∃ l, benSearchDictStr packet 'n' = some (.list l) ∧ l.map readContact = nodes'.map some) →
      nodes = nodes' := by
    rintro nodes nodes' ⟨l, hl, hmap⟩ ⟨l', hl', hmap'⟩
    obtain rfl : l = l' := by simpa using hl.symm.trans hl'
    exact List.map_injective_iff.mpr (Option.some_injective _) (hmap.symm.trans hmap')
  cases b with
  | ping =>
    cases b' with
    | ping => rfl
    | _ => exact absurd hq (by simp [Body.query])
  | pong =>
    cases b' with
    | pong => rfl
    | _ => exact absurd hq (by simp [Body.query])
  | find find_id =>
    cases b' with
    | find find_id' => exact congrArg Body.find (Option.some.inj (h.symm.trans h'))
    | _ => exact absurd hq (by simp [Body.query])
  | announce lkp_id host_id =>
    cases b' with
    | announce lkp_id' host_id' =>
      rw [Option.some.inj (h.1.symm.trans h'.1), Option.some.inj (h.2.symm.trans h'.2)]
    | _ => exact absurd hq (by simp [Body.query])
  | lookup lkp_id find_id =>
    cases b' with
    | lookup lkp_id' find_id' =>
      rw [Option.some.inj (h.1.symm.trans h'.1), Option.some.inj (h.2.symm.trans h'.2)]
    | _ => exact absurd hq (by simp [Body.query])
  | nodesFind nodes =>
    cases b' with
    | nodesFind nodes' => exact congrArg Body.nodesFind (hnodes h h')
    | _ => exact absurd hq (by simp [Body.query])
  | nodesAnnounce lkp_id nodes =>
    cases b' with
    | nodesAnnounce lkp_id' nodes' =>
      rw [Option.some.inj (h.2.symm.trans h'.2), hnodes h.1 h'.1]
    | _ => exact absurd hq (by simp [Body.query])
  | nodesLookup lkp_id nodes =>
    cases b' with
    | nodesLookup lkp_id' nodes' =>
      rw [Option.some.inj (h.2.symm.trans h'.2), hnodes h.1 h'.1]
    | _ => exact absurd hq (by simp [Body.query])
  | value lkp_id address =>
    cases b' with
    | value lkp_id' address' =>
      rw [Option.some.inj (h.1.symm.trans h'.1), Option.some.inj (h.2.symm.trans h'.2)]
    | _ => exact absurd hq (by simp [Body.query])

/-- Different messages have different datagrams. -/
theorem Message.datagram_injective (h : msg.datagram = msg'.datagram) : msg = msg' := by
  have hpre : msg'.datagram <+: msg.datagram := h ▸ List.prefix_rfl
  have htree : msg.tree = msg'.tree := (value_unique List.prefix_rfl hpre
    (encode_value msg.tree msg.inRange) (encode_value msg'.tree msg'.inRange)).2
  have hread := msg.readIn_tree
  have hread' := msg'.readIn_tree
  rw [← htree] at hread'
  have hid := Option.some.inj (hread.node_id.symm.trans hread'.node_id)
  have hsession := Option.some.inj (hread.session_id.symm.trans hread'.session_id)
  have hq := query_injective hread.query hread'.query
  have hbody := hread.body.unique hread'.body hq
  obtain ⟨node_id, session_id, body⟩ := msg
  obtain ⟨node_id', session_id', body'⟩ := msg'
  rw [Message.mk.injEq]
  exact ⟨hid, hsession, hbody⟩

end Message

/-! ## Who has asked -/

section Sessions
variable {ι : Type} (sites : ι → Site)

/-- The id is one of the random numbers of the node. -/
def Site.Draws (s : Site) (id : Id) : Prop := ∃ k, s.urandom k = some id

/-- The message of the node `i` to this address replies to a request of the owner of the address,
which the node `i` has received. -/
def Responds (sent : ι → Set (Ip × Bytes)) (past : List (ι × Happening ι)) (i : ι) (sa : Ip)
    (msg : Message) : Prop :=
  ∃ j now dest req, (i, .deliver j now (dest, Message.datagram req)) ∈ past ∧
    (dest, req.datagram) ∈ sent j ∧ sa = (sites j).addr ∧ req.session_id = msg.session_id ∧
    Replies req.body msg.body

/-- The datagram carries a message of the node `i`, which is a request with one of its random
numbers, or a reply. -/
def SaysFairly (sent : ι → Set (Ip × Bytes)) (past : List (ι × Happening ι)) (i : ι)
    (d : Ip × Bytes) : Prop :=
  ∃ msg : Message, d.2 = msg.datagram ∧ msg.node_id = (sites i).conf.node_id ∧
    (msg.body.IsRequest ∧ (sites i).Draws msg.session_id ∨ Responds sites sent past i d.1 msg)

structure Fair (sent : ι → Set (Ip × Bytes)) (past : List (ι × Happening ι)) (i : ι) (m : Main) :
    Prop where
  conf : m.conf = (sites i).conf
  urandom : m.urandom = (sites i).urandom
  inOrder : InOrder m
  sessions : ∃ es, cacheRun es = .ok m.cache ∧
    ∀ now id type, CacheEvent.put now id type ∈ es → (sites i).Draws id
  out : ∀ d ∈ m.out, SaysFairly sites sent past i d

/-- What a node hears in this event is a message that has been brought to it. -/
def HearsFairly (sent : ι → Set (Ip × Bytes)) (past : List (ι × Happening ι)) (i : ι) (m₀ : Main)
    (e : Event) : Prop :=
  ∀ packet id key sender m₁, Heard m₀ e packet id key sender m₁ → ∃ j now dest req,
    (i, .deliver j now (dest, Message.datagram req)) ∈ past ∧ (dest, req.datagram) ∈ sent j ∧
    sender = (sites j).addr ∧ packet = req.tree ∧ key = req.session_id

variable {sites} {sent sent' : ι → Set (Ip × Bytes)} {past past' : List (ι × Happening ι)}
  {i : ι} {m₀ m m' : Main} {e : Event} {eff : Effect}

theorem Responds.mono {sa : Ip} {msg : Message} (h : Responds sites sent past i sa msg)
    (hsent : ∀ j, sent j ⊆ sent' j) (hpast : past ⊆ past') :
    Responds sites sent' past' i sa msg := by
  obtain ⟨j, now, dest, req, hdeliver, hreq, hrest⟩ := h
  exact ⟨j, now, dest, req, hpast hdeliver, hsent j hreq, hrest⟩

theorem SaysFairly.mono {d : Ip × Bytes} (h : SaysFairly sites sent past i d)
    (hsent : ∀ j, sent j ⊆ sent' j) (hpast : past ⊆ past') :
    SaysFairly sites sent' past' i d := by
  obtain ⟨msg, hbytes, hid, hsaid⟩ := h
  exact ⟨msg, hbytes, hid, hsaid.imp_right fun h => h.mono hsent hpast⟩

theorem Fair.mono (h : Fair sites sent past i m) (hsent : ∀ j, sent j ⊆ sent' j)
    (hpast : past ⊆ past') : Fair sites sent' past' i m :=
  ⟨h.conf, h.urandom, h.inOrder, h.sessions, fun d hd => (h.out d hd).mono hsent hpast⟩

/-- Every effect keeps this, if the node hears what has been brought to it. -/
theorem Fair.work (h : Fair sites sent past i m) (hw : Work m₀ e m eff m')
    (hhears : HearsFairly sites sent past i m₀ e) : Fair sites sent past i m' := by
  have hdraws : ∀ x ∈ eff.messages, m.Wants x.2.body → m.urandom m.reads = some x.2.session_id →
      (sites i).Draws x.2.session_id := fun x _ _ hread => ⟨m.reads, by rw [← h.urandom, hread]⟩
  refine ⟨hw.moved.conf.trans h.conf, hw.random.1.trans h.urandom, hw.moved.inOrder h.inOrder,
    ?_, ?_⟩
  · obtain ⟨es, hrun, hputs⟩ := h.sessions
    refine ⟨es ++ eff.cacheEvents m.p2p.time_now, ?_, fun now id type hput => ?_⟩
    · have hcache := hw.cache
      rw [cacheRun] at hrun ⊢
      rw [List.foldlM_append, hrun]
      exact hcache
    · rcases List.mem_append.mp hput with hput | hput
      · exact hputs now id type hput
      · cases hw with
        | request _ _ hread =>
          obtain ⟨-, rfl, -⟩ := CacheEvent.put.inj (List.mem_singleton.mp hput)
          exact ⟨m.reads, by rw [← h.urandom, hread]⟩
        | validate => cases List.mem_singleton.mp hput
        | forget => cases List.mem_singleton.mp hput
        | _ => cases hput
  · intro d hd
    rcases hw.out_cases hd with hd | ⟨x, hx, hdest, hbytes⟩
    · exact h.out d hd
    · obtain ⟨hid, hsaid⟩ := hw.message hx
      refine ⟨x.2, hbytes, by rw [hid, h.conf], ?_⟩
      rcases hsaid with ⟨hwants, hread, -⟩ | ⟨packet, id, m₁, hheard, hanswers⟩
      · exact .inl ⟨wants_isRequest hwants, hdraws x hx hwants hread⟩
      · obtain ⟨j, now, dest, req, hdeliver, hreq, hsender, rfl, hkey⟩ :=
          hhears packet id x.2.session_id x.1 m₁ hheard
        exact .inr ⟨j, now, dest, req, hdeliver, hreq, hdest.trans hsender, hkey.symm,
          answers_replies hanswers⟩

/-- A node accepts replies only in sessions with one of its random numbers. -/
theorem Fair.accepts (h : Fair sites sent past i m) {key : Id} {cache : ObjCache}
    (hvalid : cacheValidate m.cache key = .ok (cache, true)) : (sites i).Draws key := by
  obtain ⟨es, hrun, hputs⟩ := h.sessions
  have haccepts : Session.Accepts es key := ⟨m.cache, cache, hrun, hvalid⟩
  obtain ⟨pre, now, type, post, rfl, -, -⟩ := ((cache_replayProtected es).accepts key).mp haccepts
  exact hputs now key type (by simp)

theorem Site.start_fair (h : (sites i).start = .ok m) : Fair sites sent past i m := by
  obtain ⟨hconf, hm, -⟩ := mainInit_ensures _ _ _ _ _ m h
  obtain ⟨t, -, h⟩ := exec_bind_eq_ok.mp h
  obtain rfl := Except.ok.inj h
  exact ⟨hconf, rfl, hm, ⟨[], rfl, fun now id type hput => nomatch hput⟩, fun d hd => nomatch hd⟩

/-- The event that brings a message lets the node hear this message. -/
theorem hearsFairly_deliver {hap : Happening ι}
    (hgood : ∀ j d, hap.arrival = some (j, d) → d ∈ sent j ∧ SaysFairly sites sent past j d) :
    HearsFairly sites sent (past ++ [(i, hap)]) i m₀ (hap.event sites) := by
  intro packet id key sender m₁ hheard
  cases hap with
  | deliver source now d =>
    obtain ⟨hd, req, hbytes, -⟩ := hgood source d rfl
    obtain ⟨dest, datagram⟩ := d
    obtain rfl : datagram = req.datagram := hbytes
    obtain ⟨rfl, -, rfl, rfl⟩ := hheard.message
    exact ⟨source, now, dest, req, by simp, hd, rfl, rfl, rfl⟩
  | cron now env => cases hheard
  | lookup callback ctx find_id => cases hheard
  | search find_id => cases hheard

/-- Everything a node has sent before is still sent after an event. -/
theorem step_sent {m m' : Main} (hm : InOrder m) {e : Event} (h : m.step e = .ok m') :
    m.out ⊆ m'.out := by
  have hkeep : ∀ m₁ eff m₂, Work m e m₁ eff m₂ → m.out ⊆ m₁.out → m.out ⊆ m₂.out :=
    fun m₁ eff m₂ hw hsub => List.Subset.trans hsub hw.out_subset
  exact (step_works hm e m' h).keeps hkeep (List.Subset.refl _)

/-- In every run of a network all nodes are fair. -/
theorem Reached.fair [DecidableEq ι] {hs : List (ι × Happening ι)} {net : ι → Main}
    (h : Reached sites hs net) (i : ι) :
    Fair sites (fun j => { d | d ∈ (net j).out }) hs i (net i) := by
  obtain ⟨net₀, hstart, htrace⟩ := h
  have hmono : ∀ (sent sent' : ι → Set (Ip × Bytes)) (past past' : List (ι × Happening ι)) i m,
      (∀ j, sent j ⊆ sent' j) → past ⊆ past' → Fair sites sent past i m →
      Fair sites sent' past' i m := fun _ _ _ _ _ _ hsent hpast hm => hm.mono hsent hpast
  have hgood : ∀ sent past i m, Fair sites sent past i m → ∀ d ∈ (p2pNetwork sites).sent m,
      SaysFairly sites sent past i d := fun _ _ _ _ hm => hm.out
  refine Network.history hmono hgood ?_ htrace (fun i => Site.start_fair (hstart i)) i
  intro sent past i m hap m' hstep _ hreceived hm
  have hhears : HearsFairly sites sent (past ++ [(i, hap)]) i m (hap.event sites) :=
    hearsFairly_deliver hreceived
  refine ⟨fun d hd => step_sent hm.inOrder hstep hd, ?_⟩
  have hfair : Fair sites sent (past ++ [(i, hap)]) i m :=
    hm.mono (fun _ _ hd => hd) (List.subset_append_left _ _)
  exact (step_works hm.inOrder _ m' hstep).keeps (fun _ _ _ hw h => h.work hw hhears) hfair

/-- The random numbers of different nodes are different. -/
def OwnDraws (sites : ι → Site) : Prop :=
  ∀ i j id, (sites i).Draws id → (sites j).Draws id → i = j

/-- A reply in a session of the node `i` answers a request of this node. -/
theorem Responds.own (hown : OwnDraws sites) {net : ι → Main} {j : ι} {sa : Ip} {msg : Message}
    (hfair : ∀ i, Fair sites (fun j => { d | d ∈ (net j).out }) past i (net i))
    (hresponds : Responds sites (fun j => { d | d ∈ (net j).out }) past j sa msg)
    (hdraws : (sites i).Draws msg.session_id) : sa = (sites i).addr ∧ ∃ now dest req,
      (j, .deliver i now (dest, Message.datagram req)) ∈ past ∧
      (dest, req.datagram) ∈ (net i).out ∧ req.session_id = msg.session_id ∧
      Replies req.body msg.body := by
  obtain ⟨k, now, dest, req, hdeliver, hreq, hsa, hsession, hreplies⟩ := hresponds
  obtain ⟨req', hbytes, -, hsaid⟩ := (hfair k).out _ hreq
  obtain rfl := Message.datagram_injective hbytes
  obtain rfl : i = k := by
    rcases hsaid with ⟨-, hdraws'⟩ | ⟨_, _, _, _, _, _, _, _, hreplies'⟩
    · exact hown i k _ hdraws (hsession ▸ hdraws')
    · exact absurd hreplies.isRequest.1 hreplies'.isRequest.2
  exact ⟨hsa, now, dest, req, hdeliver, hreq, hsession, hreplies⟩

theorem Heard.put {packet : ObjBen} {id key : Id} {sender : Ip} {m₁ : Main}
    (h : Heard m e packet id key sender m₁) : nbhdPut id sender (m.timed e) = .ok m₁ := by
  cases h with
  | packet _ _ _ _ hput => exact hput

/-- In the middle of an event, after the sender of the packet has been put, the node is fair. -/
theorem Fair.heard {packet : ObjBen} {id key : Id} {sender : Ip} {m₁ : Main}
    (h : Fair sites sent past i m) (hap : Happening ι)
    (hheard : Heard m (hap.event sites) packet id key sender m₁)
    (hgood : ∀ j d, hap.arrival = some (j, d) → d ∈ sent j ∧ SaysFairly sites sent past j d) :
    Fair sites sent (past ++ [(i, hap)]) i m₁ := by
  have hhears : HearsFairly sites sent (past ++ [(i, hap)]) i m (hap.event sites) :=
    hearsFairly_deliver hgood
  have hfair : Fair sites sent (past ++ [(i, hap)]) i m :=
    h.mono (fun _ _ hd => hd) (List.subset_append_left _ _)
  have hkeep : ∀ m₂ eff m₃, Work m (hap.event sites) m₂ eff m₃ →
      Fair sites sent (past ++ [(i, hap)]) i m₂ → Fair sites sent (past ++ [(i, hap)]) i m₃ :=
    fun _ _ _ hw h => h.work hw hhears
  have htimed := (timed_works m (hap.event sites)).keeps hkeep hfair
  exact (nbhdPut_works htimed.inOrder (.sender hheard) m₁ hheard.put).keeps hkeep htimed

end Sessions

/-- If the random numbers of different nodes are different, then in every run of the network a
reply that a node accepts answers one of its own requests: it was sent to this node by one that
had received the request, in the session and for the lookup of the request. -/
theorem network_agreement {ι : Type} [DecidableEq ι] (sites : ι → Site) (hown : OwnDraws sites)
    (hs : List (ι × Happening ι)) (net : ι → Main) (h : Reached sites hs net) (i j : ι) (now : ℤ)
    (d : Ip × Bytes) (hd : d ∈ (net j).out) (packet : ObjBen) (id key : Id) (sender : Ip)
    (m₁ : Main) (cache : ObjCache) (q : UInt8)
    (hheard : Heard (net i) (.packet now d.2 (sites j).addr) packet id key sender m₁)
    (hq : benSearchDictStr packet 'q' = some (.str [q]))
    (hreply : IsReply q)
    (hvalid : cacheValidate m₁.cache key = .ok (cache, true)) :
    ∃ msg req : Message, d = ((sites i).addr, msg.datagram) ∧ packet = msg.tree ∧
      key = msg.session_id ∧ Replies req.body msg.body ∧ req.session_id = key ∧
      ∃ dest then', (j, .deliver i then' (dest, req.datagram)) ∈ hs ∧
        (dest, req.datagram) ∈ (net i).out := by
  have hfair := h.fair
  obtain ⟨msg, hbytes, -, hsaid⟩ := (hfair j).out d hd
  obtain ⟨dest, datagram⟩ := d
  obtain rfl : datagram = msg.datagram := hbytes
  obtain ⟨rfl, -, rfl, -⟩ := hheard.message
  have hgood : ∀ k d, (Happening.deliver j now (dest, msg.datagram)).arrival = some (k, d) →
      d ∈ { d | d ∈ (net k).out } ∧ SaysFairly sites (fun j => { d | d ∈ (net j).out }) hs k d := by
    rintro k d he
    obtain ⟨rfl, rfl⟩ := Prod.mk.inj (Option.some.inj he)
    exact ⟨hd, (hfair j).out _ hd⟩
  have hdraws : (sites i).Draws msg.session_id :=
    ((hfair i).heard (.deliver j now (dest, msg.datagram)) hheard hgood).accepts hvalid
  rcases hsaid with ⟨hrequest, -⟩ | hresponds
  · -- the type of the packet is that of a reply
    have hquery : ch msg.body.query = q := by simpa using msg.readIn_tree.query.symm.trans hq
    subst hquery
    obtain ⟨node_id, session_id, body⟩ := msg
    cases body with
    | ping => exact absurd hreply (by simp [IsReply, Body.query])
    | find find_id => exact absurd hreply (by simp [IsReply, Body.query])
    | announce lkp_id host_id => exact absurd hreply (by simp [IsReply, Body.query])
    | lookup lkp_id find_id => exact absurd hreply (by simp [IsReply, Body.query])
    | _ => exact hrequest.elim
  · obtain ⟨hsa, then', dest', req, hdeliver, hreq, hsession, hreplies⟩ :=
      hresponds.own hown hfair hdraws
    obtain rfl : dest = (sites i).addr := hsa
    exact ⟨msg, req, rfl, rfl, rfl, hreplies, hsession, dest', then', hdeliver, hreq⟩

theorem duo_draws {b : Bool} {k : ℕ} {id : Id} (h : (duo b).urandom k = some id) :
    k < 16 ∧ id = headId ((if b then 0x10 else 0x20) + k.toUInt8) :=
  (Option.ite_none_right_eq_some.mp h).imp_right fun he => (Option.some.inj he).symm

theorem duo_ownDraws : OwnDraws duo := by
  have hdiffer : ∀ k < 16, ∀ k' < 16, headId (0x10 + k.toUInt8) ≠ headId (0x20 + k'.toUInt8) := by
    decide
  rintro b b' id ⟨k, hk⟩ ⟨k', hk'⟩
  obtain ⟨hlt, rfl⟩ := duo_draws hk
  obtain ⟨hlt', he⟩ := duo_draws hk'
  cases b with
  | true =>
    cases b' with
    | true => rfl
    | false => exact absurd he (hdiffer k hlt k' hlt')
  | false =>
    cases b' with
    | true => exact absurd he.symm (hdiffer k' hlt' k hlt)
    | false => rfl

/-- The PONG to the first PING of two nodes. -/
theorem network_agreement_duo : ∃ net m₁ cache, duoAfter duoAsks = some net ∧
    Heard (net true) (.packet 1 duoPong.datagram (duo false).addr) duoPong.tree (headId 0x81)
      (headId 0x10) (duo false).addr m₁ ∧
    cacheValidate m₁.cache (headId 0x10) = .ok (cache, true) ∧ ∃ msg req : Message,
      ((duo true).addr, duoPong.datagram) = ((duo true).addr, msg.datagram) ∧
      duoPong.tree = msg.tree ∧ headId 0x10 = msg.session_id ∧ Replies req.body msg.body ∧
      req.session_id = headId 0x10 ∧ ∃ dest then',
        (false, .deliver true then' (dest, req.datagram)) ∈ duoAsks ∧
        (dest, req.datagram) ∈ (net true).out := by
  have hcalc : ((duoAfter duoAsks).bind fun net =>
      (nbhdPut (headId 0x81) (duo false).addr ((net true).tick 1)).toOption.bind fun m₁ =>
      (cacheValidate m₁.cache (headId 0x10)).toOption.map fun r => (r.2,
        nodeMe (net true) (headId 0x81),
        decide (((duo true).addr, duoPong.datagram) ∈ (net false).out))) =
      some (true, false, true) := by decide +kernel
  obtain ⟨net, hnet, hcalc⟩ := Option.bind_eq_some_iff.mp hcalc
  obtain ⟨m₁, hput, hcalc⟩ := Option.bind_eq_some_iff.mp hcalc
  obtain ⟨⟨cache, valid⟩, hvalid, hcalc⟩ := Option.map_eq_some_iff.mp hcalc
  simp only [Prod.mk.injEq, decide_eq_true_eq] at hcalc
  obtain ⟨rfl, hforeign, hsent⟩ := hcalc
  have hheard : Heard (net true) (.packet 1 duoPong.datagram (duo false).addr) duoPong.tree
      (headId 0x81) (headId 0x10) (duo false).addr m₁ :=
    duoPong.heard (by decide) (by simp [duoPong, hforeign]) (toOption_eq_some hput)
  exact ⟨net, m₁, cache, hnet, hheard, toOption_eq_some hvalid,
    network_agreement duo duo_ownDraws duoAsks net (duo_reached hnet) true false 1 _ hsent _ _ _ _
      m₁ cache (ch 'o') hheard rfl (by decide) (toOption_eq_some hvalid)⟩

end Masala.Daemon
