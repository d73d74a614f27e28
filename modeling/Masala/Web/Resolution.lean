import Masala.Web.Connections
import Masala.Daemon.Hosts

/-!
# Names over the web interface

A client that asks for the name of a host reads the address from which the host
has announced itself last. If the node does not know the host, the connection
stays open for the callback of a lookup.
-/
namespace Masala.Web
open Library Container Routing Digest Daemon

/-! ## The node of the server -/

section Node
variable {signed : Bool} {sha1_hash : Id → Bytes → ℕ → ℕ → Exec Id} {inet_ntop : Octets 16 → Bytes}
  {s s' : Server} {e : Event}

theorem webReply_node (ctx : ℕ) (address : Option (Octets 16)) :
    Ensures (webReply inet_ntop ctx address s) fun s' => s'.node = s.node := by
  intro s' h
  rw [webReply] at h
  cases htake : takeRequest ctx s.requests with
  | none => simp [htake] at h
  | some r =>
    rw [htake] at h
    obtain rfl := Except.ok.inj h
    rfl

theorem serve_node (calls : List Call) :
    Ensures (serve inet_ntop calls s) fun s' => s'.node = s.node := by
  induction calls generalizing s with
  | nil => exact ensures_ok.mpr rfl
  | cons c calls ih =>
    rw [serve]
    refine ensures_ite (fun _ => ?_) fun _ => ih
    exact (webReply_node c.ctx c.address).bind fun s₁ h₁ => (ih (s := s₁)).mono fun _ h =>
      h.trans h₁

/-- Callbacks leave the node alone. -/
theorem event_node (h : s.event inet_ntop e = .ok s') : s.node.step e = .ok s'.node := by
  obtain ⟨node, hstep, hserve⟩ := exec_bind_eq_ok.mp h
  rw [hstep, serve_node _ s' hserve]

theorem closeUnused_node (s : Server) : s.closeUnused.node = s.node := by
  obtain ⟨closed, hs⟩ := closeUnused_eq s
  rw [hs]

/-- The event of an act that is not a web lookup. -/
def Act.event? : Act → Option Event
  | .node e => some e.val
  | .web _ => none

/-- The events that are not web lookups. -/
def withoutLookups (events : List Event) : List Event :=
  events.filter fun e => WEB_REPLY ∉ e.owes.map Prod.fst

theorem withoutLookups_lookup (ctx : ℕ) (id : Id) :
    withoutLookups [.lookup WEB_REPLY ctx id] = [] := by
  simp [withoutLookups, Event.owes]

/-- In an act the node sees its event, if it has one, or at most a web lookup. -/
theorem step_node {a : Act} (h : s.step signed sha1_hash inet_ntop a = .ok s') :
    ∃ events, s.node.run events = .ok s'.node ∧ withoutLookups events = a.event?.toList := by
  cases a with
  | node e =>
    refine ⟨[e.val], ?_, ?_⟩
    · rw [Main.run, List.foldlM_cons, event_node h]
      rfl
    · rw [withoutLookups, List.filter_singleton, decide_eq_true e.property]
      rfl
  | web i =>
    change webPass signed sha1_hash inet_ntop i s = .ok s' at h
    have hidle (h : s'.node = s.node) :
        ∃ events, s.node.run events = .ok s'.node ∧ withoutLookups events = [] :=
      ⟨[], by rw [h]; rfl, rfl⟩
    unfold webPass at h
    dsimp only at h
    cases i with
    | nobody =>
      obtain rfl := Except.ok.inj h
      exact hidle (closeUnused_node s)
    | connection clientfd clientaddr received =>
      cases received with
      | none =>
        obtain rfl := Except.ok.inj h
        exact hidle (closeUnused_node s)
      | some received =>
        obtain ⟨⟨t, r⟩, -, h⟩ := exec_bind_eq_ok.mp h
        cases r with
        | none =>
          obtain rfl := Except.ok.inj h
          exact hidle (closeUnused_node s)
        | some id =>
          obtain ⟨s₁, hevent, h⟩ := exec_bind_eq_ok.mp h
          obtain rfl := Except.ok.inj h
          have hnode := event_node hevent
          rw [closeUnused_node s] at hnode
          refine ⟨[.lookup WEB_REPLY s.closeUnused.fresh id], ?_, withoutLookups_lookup _ id⟩
          rw [Main.run, List.foldlM_cons, hnode]
          rfl

/-- The node of a server has run through the events of the acts, with web lookups between them. -/
theorem serverRun_node {conf : Conf} {udp : Udp} {time_now : ℤ} {urandom : ℕ → Option Id}
    {random : ℕ → ℕ} {clientbuf : Octets 1500} {id : Id} {acts : List Act}
    (h : serverRun signed sha1_hash inet_ntop conf udp time_now urandom random clientbuf id acts =
      .ok s) :
    ∃ events, nodeRun conf udp time_now urandom random events = .ok s.node ∧
      withoutLookups events = acts.filterMap Act.event? := by
  obtain ⟨node, hinit, hacts⟩ := exec_bind_eq_ok.mp h
  suffices ∃ events, node.run events = .ok s.node ∧
      withoutLookups events = acts.filterMap Act.event? by
    obtain ⟨events, hrun, hwithout⟩ := this
    exact ⟨events, by rw [nodeRun, hinit, exec_ok_bind, hrun], hwithout⟩
  clear h hinit
  induction acts using List.reverseRecOn generalizing s with
  | nil =>
    obtain rfl := Except.ok.inj hacts
    exact ⟨[], rfl, rfl⟩
  | append_singleton acts a ih =>
    rw [foldlM_snoc] at hacts
    obtain ⟨s₁, hacts, hstep⟩ := exec_bind_eq_ok.mp hacts
    obtain ⟨events, hrun, hwithout⟩ := ih hacts
    obtain ⟨events', hrun', hwithout'⟩ := step_node hstep
    refine ⟨events ++ events', ?_, ?_⟩
    · rw [Main.run, List.foldlM_append, ← Main.run, hrun, exec_ok_bind, ← Main.run, hrun']
    · rw [withoutLookups, List.filter_append, ← withoutLookups, ← withoutLookups, hwithout,
        hwithout', List.filterMap_append]
      cases a <;> rfl

end Node

/-! ## Answers -/

/-- The client has been told an address, and the connection is closed. -/
structure Answered (inet_ntop : Octets 16 → Bytes) (s : Server) (request : Request)
    (address : Octets 16) (s' : Server) : Prop where
  sent : s'.sent =
    s.sent ++ [(request.clientfd, request.clientaddr, replyText (inet_ntop address))]
  closed : s'.closed = s.closed ++ [request.clientfd]
  requests : s'.requests = s.requests

/-- The connection waits on the heap for the callback of a new lookup. -/
structure Waiting (s : Server) (request : Request) (id : Id) (s' : Server) : Prop where
  sent : s'.sent = s.sent
  closed : s'.closed = s.closed
  requests : s'.requests = s.requests ++ [(s.fresh, request)]
  lookup : lkpPut id (some WEB_REPLY) s.fresh s.node = .ok s'.node

/-- The client reads the address of the last announcement of the host, which is there for fifteen
minutes, or waits. -/
def Resolves (inet_ntop : Octets 16 → Bytes) (own : Id) (events : List Event) (id : Id)
    (s : Server) (request : Request) (r : Exec Server) : Prop :=
  (∃ sa now post s', LastAnnounced own id events sa now post ∧ r = .ok s' ∧
    Answered inet_ntop s request sa.addr s') ∨
  (∀ sa now post, LastAnnounced own id events sa now post →
    ∃ e ∈ post, ∃ later, e.clock = some later ∧ now + 900 < later) ∧
  Ensures r (Waiting s request id)

section Answer
variable {s : Server} {id : Id} {name : Bytes}

theorem takeRequest_last (request : Request) {ctx : ℕ} {xs : List (ℕ × Request)}
    (h : ∀ x ∈ xs, x.1 < ctx) :
    takeRequest ctx (xs ++ [(ctx, request)]) = some (request, xs) := by
  induction xs with
  | nil => exact if_pos rfl
  | cons x xs ih =>
    rw [List.forall_mem_cons] at h
    rw [List.cons_append, takeRequest, if_neg (Nat.ne_of_lt h.1), ih h.2]
    rfl

/-- A host that the node knows is answered at once, and the connection is closed. -/
theorem webLookup_known (inet_ntop : Octets 16 → Bytes) (request : Request)
    (hbelow : ∀ x ∈ s.requests, x.1 < s.fresh) {sa : Ip}
    (haddress : dbAddress id s.node = .ok (some sa)) :
    ∃ s', webLookup inet_ntop request id s = .ok s' ∧ Answered inet_ntop s request sa.addr s' := by
  have hstep : s.node.step (.lookup WEB_REPLY s.fresh id) = .ok { s.node with
      calls := s.node.calls ++ [⟨WEB_REPLY, s.fresh, id, some sa.addr⟩] } := by
    rw [Main.step, dnsLookup, haddress]
    rfl
  have htake := takeRequest_last request hbelow
  unfold webLookup Server.event
  dsimp only
  rw [hstep, exec_ok_bind]
  dsimp only
  rw [List.drop_left, serve, if_pos rfl, webReply]
  dsimp only
  rw [htake]
  exact ⟨_, rfl, rfl, rfl, rfl⟩

/-- For any other host the connection waits on the heap. -/
theorem webLookup_unknown (inet_ntop : Octets 16 → Bytes) (request : Request)
    (haddress : dbAddress id s.node = .ok none)
    (hcalls : Ensures (lkpPut id (some WEB_REPLY) s.fresh s.node) fun m =>
      m.calls = s.node.calls) :
    Ensures (webLookup inet_ntop request id s) (Waiting s request id) := by
  intro s' h
  obtain ⟨s₁, hevent, h⟩ := exec_bind_eq_ok.mp h
  obtain rfl := Except.ok.inj h
  obtain ⟨m, hstep, hserve⟩ := exec_bind_eq_ok.mp hevent
  dsimp only at hstep hserve
  have hput : lkpPut id (some WEB_REPLY) s.fresh s.node = .ok m := by
    rw [Main.step, dnsLookup, haddress] at hstep
    exact hstep
  rw [hcalls m hput, List.drop_length] at hserve
  obtain rfl := Except.ok.inj hserve
  exact ⟨rfl, rfl, rfl, hput⟩

/-- A pass for a requested name. -/
theorem webPass_name (signed : Bool) (stack : Sha1Context) (inet_ntop : Octets 16 → Bytes)
    (s : Server) (clientfd : ℤ) (clientaddr : Ip) {received : Bytes}
    (hname : requested (received.take 1499) = some name) :
    ∃ t' id, id.bytes = hostId name ∧
      webPass signed (sha1Hash stack) inet_ntop
          (.connection clientfd clientaddr (some received)) s =
        webLookup inet_ntop ⟨clientfd, clientaddr⟩ id
          { s.closeUnused with
            thread := t', accepted := s.closeUnused.accepted ++ [clientfd] } := by
  obtain ⟨t', r, hrequest, -, hid⟩ := webRequest_eq signed stack
    { s.closeUnused.thread with clientfd := clientfd } (List.length_take_le 1499 received)
  rw [hname] at hid
  obtain ⟨id, rfl, hbytes⟩ := Option.map_eq_some_iff.mp hid
  refine ⟨t', id, hbytes, ?_⟩
  unfold webPass
  dsimp only
  rw [hrequest]
  rfl

end Answer

/-- After any run, a client that asks for a name over the web interface reads the address from which
its host has announced itself last, on a connection that is closed at once. If the node does not
know the host, the request waits for the callback of a lookup. -/
theorem web_resolution (signed : Bool) (stack : Sha1Context) (inet_ntop : Octets 16 → Bytes)
    (conf : Conf) (udp : Udp) (time_now : ℤ) (urandom : ℕ → Option Id) (random : ℕ → ℕ)
    (hdraws : ∀ k k' id, urandom k = some id → urandom k' = some id → k = k')
    (clientbuf : Octets 1500) (id : Id) (acts : List Act) (s : Server)
    (hrun : serverRun signed (sha1Hash stack) inet_ntop conf udp time_now urandom random clientbuf
      id acts = .ok s) (clientfd : ℤ) (clientaddr : Ip) (received name : Bytes)
    (hname : requested (received.take 1499) = some name) :
    ∃ events id, nodeRun conf udp time_now urandom random events = .ok s.node ∧
      withoutLookups events = acts.filterMap Act.event? ∧ id.bytes = hostId name ∧
      Resolves inet_ntop conf.node_id events id s.closeUnused ⟨clientfd, clientaddr⟩
        (s.step signed (sha1Hash stack) inet_ntop
          (.web (.connection clientfd clientaddr (some received)))) := by
  have hserving := serverRun_serving inet_ntop hdraws hrun
  obtain ⟨events, hnode, hwithout⟩ := serverRun_node hrun
  obtain ⟨t', id, hid, hpass⟩ := webPass_name signed stack inet_ntop s clientfd clientaddr hname
  refine ⟨events, id, hnode, hwithout, hid, ?_⟩
  obtain ⟨ys, hhosts⟩ := nodeRun_hosts hnode
  obtain ⟨r, hr, hlast, -⟩ := hhosts.answers id
  obtain ⟨closed, hs⟩ := closeUnused_eq s
  change Resolves _ _ _ _ _ _ (webPass signed (sha1Hash stack) inet_ntop
    (.connection clientfd clientaddr (some received)) s)
  rw [hpass, hs]
  cases r with
  | some sa =>
    obtain ⟨now, post, hlast⟩ := hlast sa rfl
    obtain ⟨s', hlookup, hanswered⟩ := webLookup_known inet_ntop
      ⟨clientfd, clientaddr⟩ (s := { s with
        closed := closed, thread := t', accepted := s.accepted ++ [clientfd] }) hserving.below hr
    exact .inl ⟨sa, now, post, s', hlast, hlookup, hanswered.sent, hanswered.closed,
      hanswered.requests⟩
  | none =>
    refine .inr ⟨fun sa now post hlast => hhosts.unknown hr hlast, ?_⟩
    obtain ⟨hbalanced, xs, hpends, -⟩ := nodeRun_balanced hdraws hnode
    have hcalls : Ensures (lkpPut id (some WEB_REPLY) s.fresh s.node) fun m =>
        m.calls = s.node.calls := (lkpPut_settles (hbalanced.urandom ▸ hdraws) hbalanced.inOrder
      hbalanced.clock hpends id (some WEB_REPLY) s.fresh).mono fun _ h => h.1
    have hwaits := webLookup_unknown inet_ntop ⟨clientfd, clientaddr⟩ (s := { s with
        closed := closed, thread := t', accepted := s.accepted ++ [clientfd] }) hr hcalls
    exact hwaits.mono fun s' h => ⟨h.sent, h.closed, h.requests, h.lookup⟩

/-- A client that asks for the name of the host that has announced itself. -/
def headRequest : Bytes := GET ++ ch '0' :: ch '2' :: List.replicate 38 (ch '0') ++ [ch ' ']

/-- `inet_ntop` of the unspecified address, which is the one that is announced. -/
def unspecifiedText (address : Octets 16) : Bytes :=
  if address = .replicate 16 0 then [ch ':', ch ':'] else []

/-- The interface of a node to which the host has announced itself. -/
def headServer : Exec Server :=
  serverRun true (sha1Hash
      ⟨0, 0, initialValue, .replicate 64 0, .replicate 64 0, .replicate 64 0⟩) unspecifiedText
    ⟨headId 0xff, headId 0, none, none⟩ ⟨3, true⟩ 0
    (fun k => if k < 8 then some (headId k.toUInt8) else none) (fun _ => 0)
    (.replicate 1500 7) (headId 0)
    [.node ⟨firstAnnounce, by simp [firstAnnounce, Event.owes]⟩]

/-- The pass for this client. -/
def headPass (s : Server) : Exec Server :=
  s.step true (sha1Hash
      ⟨0, 0, initialValue, .replicate 64 0, .replicate 64 0, .replicate 64 0⟩) unspecifiedText
    (.web (.connection 5 (newNode (headId 0)).c_addr (some headRequest)))

/-- It is answered at once. -/
theorem web_resolution_head : ∃ s events id, headServer = .ok s ∧
    withoutLookups events = [firstAnnounce] ∧
    id.bytes = hostId (ch '0' :: ch '2' :: List.replicate 38 (ch '0')) ∧
    Resolves unspecifiedText (headId 0xff) events id s.closeUnused
      ⟨5, (newNode (headId 0)).c_addr⟩ (headPass s) := by
  have hcalc : (headServer >>= fun s => dbAddress (headId 2) s.node) =
      .ok (some (newNode (headId 0)).c_addr) := by decide +kernel
  obtain ⟨s, hrun, -⟩ := exec_bind_eq_ok.mp hcalc
  obtain ⟨events, id, -, hwithout, hid, hresolves⟩ := web_resolution _ _ _ _ _ _ _ _
    (fun _ _ _ => headId_draws) _ _ _ s hrun 5 (newNode (headId 0)).c_addr headRequest
    (ch '0' :: ch '2' :: List.replicate 38 (ch '0')) (by decide)
  exact ⟨s, events, id, hrun, hwithout, hid, hresolves⟩

/-- It reads the text of the address. -/
example : (headServer >>= headPass).map (fun s => (s.sent, s.closed)) =
    .ok ([(5, (newNode (headId 0)).c_addr, replyText [ch ':', ch ':'])], [5]) := by decide +kernel

end Masala.Web
