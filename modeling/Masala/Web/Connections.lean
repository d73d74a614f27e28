import Masala.Web.Server

/-!
# Connections and requests

A request that is looked up belongs to a pending lookup, and to no other one.
So its callback finds it on the heap, and every connection that has been
accepted is closed at most once.
-/
namespace Masala.Web
open Library Container Routing Digest Daemon

/-! ## Requests -/

/-- The name that a client asks for, if its first line has one. -/
def requested (received : Bytes) : Option Bytes :=
  let name := (received.drop 5).takeWhile (· ≠ ch ' ')
  if 6 ≤ received.length ∧ received.take 5 = GET ∧ 0 ∉ name ∧ name ≠ [] ∧ name ≠ FAVICON then
    some name
  else none

section Request
variable {signed : Bool} {stack : Sha1Context} {t : WebThread} {received : Bytes}

theorem name_split (ds rest : Bytes) : ∃ rest', ds ++ ch ' ' :: rest =
    ds.takeWhile (· ≠ ch ' ') ++ ch ' ' :: rest' := by
  induction ds with
  | nil => exact ⟨rest, rfl⟩
  | cons c ds ih =>
    by_cases hc : c = ch ' '
    · exact ⟨ds ++ ch ' ' :: rest, by simp [hc]⟩
    · obtain ⟨rest', hrest⟩ := ih
      exact ⟨rest', by rw [List.takeWhile_cons_of_pos (by simpa using hc), List.cons_append, hrest,
        List.cons_append]⟩

/-- The received bytes stand in the buffer with a blank behind them. -/
theorem received_line (a : Octets 1500) (hlen : received.length ≤ 1499) :
    ∃ b b' rest, a.copyTo 0 received = .ok b ∧ b.bytes.take received.length = received ∧
      b.store received.length (ch ' ') = .ok b' ∧ b'.bytes = received ++ ch ' ' :: rest := by
  have hsplit : a.bytes = [] ++ a.bytes.take received.length ++ a.bytes.drop received.length := by
    simp
  have hfits : (a.bytes.take received.length).length = received.length :=
    List.length_take_of_le (by rw [a.size_eq]; omega)
  obtain ⟨b, hcopy, hb⟩ := copyTo_at hsplit hfits
  obtain ⟨d, rest, hrest⟩ := List.exists_cons_of_length_pos
    (show 0 < (a.bytes.drop received.length).length by rw [List.length_drop, a.size_eq]; omega)
  rw [hrest, List.nil_append] at hb
  obtain ⟨b', hstore, hb'⟩ := store_at (ch ' ') hb
  exact ⟨b, b', rest, hcopy, by rw [hb, List.take_left], hstore, hb'⟩

/-- The id of the requested name is looked up, whatever the buffer held before. -/
theorem webRequest_eq (signed : Bool) (stack : Sha1Context) (t : WebThread)
    (hlen : received.length ≤ 1499) :
    ∃ t' r, webRequest signed (sha1Hash stack) t received = .ok (t', r) ∧
      t'.clientfd = t.clientfd ∧ r.map Octets.bytes = (requested received).map hostId := by
  obtain ⟨b, b₁, rest, hcopy, htake, hstore, hb₁⟩ := received_line t.clientbuf hlen
  have hfive : 6 ≤ received.length → b.bytes.take 5 = received.take 5 := by
    intro hsix
    rw [← htake, List.take_take, Nat.min_eq_left (by omega)]
  unfold webRequest requested
  dsimp only
  rw [hcopy, exec_ok_bind]
  by_cases hget : received.length < 6 ∨ b.bytes.take 5 ≠ GET
  · rw [if_pos hget]
    refine ⟨_, none, rfl, rfl, ?_⟩
    rw [if_neg]
    · rfl
    · rintro ⟨hsix, hhead, -⟩
      rcases hget with hget | hget
      · omega
      · exact hget ((hfive hsix).trans hhead)
  · rw [if_neg hget, hstore, exec_ok_bind]
    rw [not_or, not_lt, not_not] at hget
    have hhead : received.take 5 = GET := (hfive hget.1).symm.trans hget.2
    obtain ⟨rest', hrest⟩ := name_split (received.drop 5) rest
    generalize hname : (received.drop 5).takeWhile (· ≠ ch ' ') = name at hrest
    have hblank : ∀ c ∈ name, c ≠ ch ' ' := by
      intro c hc
      rw [← hname] at hc
      simpa using List.all_eq_true.mp List.all_takeWhile c hc
    have hbytes : b₁.bytes = (GET ++ name) ++ ch ' ' :: rest' := by
      rw [hb₁, List.append_assoc, ← hrest, ← List.append_assoc, ← hhead, List.take_append_drop]
    have hdrop : b₁.bytes.drop 5 = name ++ ch ' ' :: rest' := by
      rw [hbytes, List.append_assoc]
      rfl
    by_cases h0 : 0 ∈ name
    · -- the string ends in front of the blank
      obtain ⟨s, u, rfl, hs⟩ := List.eq_append_cons_of_mem h0
      have hat : At b₁.bytes 5 (s ++ [0]) := ⟨u ++ ch ' ' :: rest', by rw [hdrop]; simp⟩
      have hchars : ∀ c ∈ s, c ≠ ch ' ' ∧ c ≠ 0 := fun c hc =>
        ⟨hblank c (List.mem_append_left _ hc), fun he => hs (he ▸ hc)⟩
      rw [strchr_missing hat hchars (by decide), exec_ok_bind]
      exact ⟨_, none, rfl, rfl, by rw [if_neg (fun h => h.2.2.1 h0)]; rfl⟩
    · have hat : At b₁.bytes 5 (name ++ [ch ' ']) := ⟨rest', by rw [hdrop]; simp⟩
      have hchars : ∀ c ∈ name, c ≠ ch ' ' ∧ c ≠ 0 := fun c hc =>
        ⟨hblank c hc, fun he => h0 (he ▸ hc)⟩
      obtain ⟨b₂, hend, hb₂⟩ := store_at 0 hbytes
      have hlength : (GET ++ name).length = 5 + name.length := List.length_append
      rw [hlength] at hend
      have hat₂ : At b₂.bytes 5 (name ++ [0]) := by
        refine ⟨rest', ?_⟩
        rw [hb₂, List.append_assoc, List.append_assoc]
        rfl
      rw [strchr_found hat hchars, exec_ok_bind]
      dsimp only
      rw [hend, exec_ok_bind, strlen_at hat₂ h0, exec_ok_bind, stringAt_at hat₂ h0]
      by_cases hskip : name.length = 0 ∨ name = FAVICON
      · rw [if_pos hskip]
        refine ⟨_, none, rfl, rfl, ?_⟩
        rw [if_neg]
        · rfl
        · rintro ⟨-, -, -, hne, hfavicon⟩
          exact hskip.elim (fun h => hne (List.length_eq_zero_iff.mp h)) hfavicon
      · obtain ⟨id, hid, hhost⟩ := p2pComputeId_hostId signed stack t.id h0 hat₂
        rw [not_or, List.length_eq_zero_iff] at hskip
        rw [if_neg (not_or.mpr ⟨mt List.length_eq_zero_iff.mp hskip.1, hskip.2⟩), hid,
          exec_ok_bind, if_pos ⟨hget.1, hhead, h0, hskip⟩]
        exact ⟨_, some id, rfl, rfl, congrArg some hhost⟩

end Request

/-! ## Answers -/

def Server.held (s : Server) : List ℤ := s.requests.map fun x => x.2.clientfd

/-- The requests that are answered are closed. -/
structure Served (s s' : Server) : Prop where
  node : s'.node = s.node
  thread : s'.thread = s.thread
  fresh : s'.fresh = s.fresh
  accepted : s'.accepted = s.accepted
  requests : s'.requests.Sublist s.requests
  closed : ∀ fd, s'.closed.count fd + s'.held.count fd = s.closed.count fd + s.held.count fd

section Answers
variable (inet_ntop : Octets 16 → Bytes) {s s' s'' : Server}

theorem Served.refl (s : Server) : Served s s :=
  ⟨rfl, rfl, rfl, rfl, .refl _, fun _ => rfl⟩

theorem Served.trans (h : Served s s') (h' : Served s' s'') : Served s s'' :=
  ⟨h'.node.trans h.node, h'.thread.trans h.thread, h'.fresh.trans h.fresh,
    h'.accepted.trans h.accepted, h'.requests.trans h.requests,
    fun fd => (h'.closed fd).trans (h.closed fd)⟩

theorem takeRequest_mem {ctx : ℕ} {xs : List (ℕ × Request)} (h : ctx ∈ xs.map Prod.fst) :
    ∃ request rest, takeRequest ctx xs = some (request, rest) ∧ rest.Sublist xs ∧
      xs.Perm ((ctx, request) :: rest) := by
  induction xs with
  | nil => cases h
  | cons x xs ih =>
    by_cases hx : x.1 = ctx
    · subst hx
      exact ⟨x.2, xs, by rw [takeRequest, if_pos rfl], List.sublist_cons_self _ _, .refl _⟩
    · obtain ⟨request, rest, htake, hsub, hperm⟩ :=
        ih ((List.mem_cons.mp h).resolve_left (Ne.symm hx))
      refine ⟨request, x :: rest, by rw [takeRequest, if_neg hx, htake]; rfl, hsub.cons_cons x, ?_⟩
      exact (hperm.cons x).trans (.swap _ _ _)

/-- `web_reply` finds a request that is on the heap. -/
theorem webReply_served {ctx : ℕ} (h : ctx ∈ s.requests.map Prod.fst)
    (address : Option (Octets 16)) : ∃ s', webReply inet_ntop ctx address s = .ok s' ∧
      Served s s' ∧ (s.requests.map Prod.fst).Perm (ctx :: s'.requests.map Prod.fst) := by
  obtain ⟨request, rest, htake, hsub, hperm⟩ := takeRequest_mem h
  let s' : Server := { s with
    requests := rest
    closed := s.closed ++ [request.clientfd]
    sent := s.sent ++ address.toList.map fun address =>
      (request.clientfd, request.clientaddr, replyText (inet_ntop address)) }
  refine ⟨s', by rw [webReply, htake], ⟨rfl, rfl, rfl, rfl, hsub, fun fd => ?_⟩,
    hperm.map Prod.fst⟩
  have hcount := (hperm.map fun x => x.2.clientfd).count_eq fd
  rw [List.map_cons, List.count_cons] at hcount
  rw [Server.held, Server.held, hcount, List.count_append, List.count_singleton]
  exact Nat.add_right_comm _ _ _ |>.trans (Nat.add_assoc _ _ _)

/-- If each call of `web_reply` has its own request, all of them are answered. -/
theorem serve_served (calls : List Call) (h : ∀ ctx,
    (calls.map Call.owed).count (WEB_REPLY, ctx) ≤ (s.requests.map Prod.fst).count ctx) :
    ∃ s', serve inet_ntop calls s = .ok s' ∧ Served s s' ∧ ∀ ctx,
      (s'.requests.map Prod.fst).count ctx + (calls.map Call.owed).count (WEB_REPLY, ctx) =
        (s.requests.map Prod.fst).count ctx := by
  induction calls generalizing s with
  | nil => exact ⟨s, rfl, .refl s, fun _ => rfl⟩
  | cons c calls ih =>
    have hcons : ∀ ctx, ((c :: calls).map Call.owed).count (WEB_REPLY, ctx) =
        (calls.map Call.owed).count (WEB_REPLY, ctx) +
          if c.callback = WEB_REPLY ∧ c.ctx = ctx then 1 else 0 := by
      intro ctx
      rw [List.map_cons, List.count_cons, Call.owed]
      simp
    simp only [hcons] at h ⊢
    rw [serve]
    by_cases hweb : c.callback = WEB_REPLY
    · have hmem : c.ctx ∈ s.requests.map Prod.fst := by
        have hc := h c.ctx
        rw [if_pos ⟨hweb, rfl⟩] at hc
        exact List.count_pos_iff.mp (by omega)
      obtain ⟨s₁, hreply, hserved, hperm⟩ := webReply_served inet_ntop hmem c.address
      have hcount : ∀ ctx, (s.requests.map Prod.fst).count ctx =
          (s₁.requests.map Prod.fst).count ctx + if c.callback = WEB_REPLY ∧ c.ctx = ctx then 1
            else 0 := by
        intro ctx
        rw [hperm.count_eq, List.count_cons]
        simp [hweb]
      obtain ⟨s', hserve, hserved', hrest⟩ := ih (s := s₁) fun ctx => by
        have := h ctx
        have := hcount ctx
        omega
      refine ⟨s', ?_, hserved.trans hserved', fun ctx => ?_⟩
      · rw [if_pos hweb, hreply, exec_ok_bind]
        exact hserve
      · have := hrest ctx
        have := hcount ctx
        omega
    · obtain ⟨s', hserve, hserved, hrest⟩ := ih (s := s) fun ctx => by
        have hc := h ctx
        rwa [if_neg fun hc => hweb hc.1, Nat.add_zero] at hc
      refine ⟨s', ?_, hserved, fun ctx => ?_⟩
      · rw [if_neg hweb, exec_pure, exec_ok_bind]
        exact hserve
      · rw [if_neg fun hc => hweb hc.1, Nat.add_zero, hrest]

end Answers
/-! ## Acts -/

/-- The requests on the heap belong to the pending lookups with the callback `web_reply`, one to
each, and the connections that are open are those of a request and the one in hand. -/
structure Serving (urandom : ℕ → Option Id) (s : Server) : Prop where
  running : Running Set.univ urandom s.node
  lookups : ∃ xs, Pends Set.univ s.node xs ∧ ∀ ctx,
    (owed xs).count (WEB_REPLY, ctx) = (s.requests.map Prod.fst).count ctx
  own : (s.requests.map Prod.fst).Nodup
  below : ∀ x ∈ s.requests, x.1 < s.fresh
  descriptors : ∀ fd, 0 < fd →
    s.accepted.count fd = s.closed.count fd + (s.thread.clientfd :: s.held).count fd

/-- What an act asks of the node: a pass of `web_loop` the lookup of the requested name. -/
def Server.asks (s : Server) : Act → Event → Prop
  | .node e, e' => e' = e.val
  | .web (.connection _ _ (some received)), e' =>
    ∃ name id, requested (received.take 1499) = some name ∧ id.bytes = hostId name ∧
      e' = .lookup WEB_REPLY s.fresh id
  | .web _, _ => False

section Passes
variable {urandom : ℕ → Option Id} {s s' : Server} {fd : ℤ}

/-- An unused connection is closed before the next one comes into the hand. -/
theorem Serving.closeUnused (h : Serving urandom s) (hfd : 0 < fd) :
    s.accepted.count fd = s.closeUnused.closed.count fd + s.held.count fd := by
  have hopen := h.descriptors fd hfd
  rw [List.count_cons] at hopen
  rw [Server.closeUnused]
  by_cases hused : s.thread.clientfd > 0
  · rw [if_pos hused, List.count_append, List.count_singleton]
    omega
  · have hne : (s.thread.clientfd == fd) = false := by
      rw [beq_eq_false_iff_ne]
      omega
    rw [hne] at hopen
    rw [if_neg hused]
    exact hopen

theorem closeUnused_eq (s : Server) : ∃ closed, s.closeUnused = { s with closed := closed } := by
  rw [Server.closeUnused]
  by_cases hused : s.thread.clientfd > 0
  · exact ⟨_, if_pos hused⟩
  · exact ⟨s.closed, if_neg hused⟩

/-- A pass closes what is unused; then it waits, leaves the new connection for the next pass, or
looks up a name for it. -/
theorem webPass_cases (h : Serving urandom s) (signed : Bool) (stack : Sha1Context)
    (inet_ntop : Octets 16 → Bytes) (i : Incoming) :
    (∃ s', webPass signed (sha1Hash stack) inet_ntop i s = .ok s' ∧ Serving urandom s') ∨
    ∃ s₁ request id, webPass signed (sha1Hash stack) inet_ntop i s =
        webLookup inet_ntop request id s₁ ∧ Serving urandom s₁ ∧
      s₁.thread.clientfd = request.clientfd ∧ s₁.node = s.node ∧
      s.asks (.web i) (.lookup WEB_REPLY s₁.fresh id) := by
  have hclose : ∀ fd, 0 < fd →
      s.accepted.count fd = s.closeUnused.closed.count fd + s.held.count fd := fun fd hfd =>
    h.closeUnused hfd
  obtain ⟨closed, hs⟩ := closeUnused_eq s
  rw [hs] at hclose
  unfold webPass
  dsimp only
  rw [hs]
  cases i with
  | nobody =>
    refine .inl ⟨_, rfl, h.running, h.lookups, h.own, h.below, fun fd hfd => ?_⟩
    have hne : ((-1 : ℤ) == fd) = false := by
      rw [beq_eq_false_iff_ne]
      omega
    change s.accepted.count fd = closed.count fd + ((-1 : ℤ) :: s.held).count fd
    rw [List.count_cons, hne]
    exact hclose fd hfd
  | connection clientfd clientaddr received =>
    have hserving : ∀ thread : WebThread, thread.clientfd = clientfd → Serving urandom
        { s with closed := closed, thread := thread, accepted := s.accepted ++ [clientfd] } := by
      rintro thread rfl
      refine ⟨h.running, h.lookups, h.own, h.below, fun fd hfd => ?_⟩
      have hopen : s.accepted.count fd = closed.count fd + s.held.count fd := hclose fd hfd
      change (s.accepted ++ [thread.clientfd]).count fd =
        closed.count fd + (thread.clientfd :: s.held).count fd
      rw [List.count_append, List.count_singleton, List.count_cons, hopen, Nat.add_assoc]
    cases received with
    | none => exact .inl ⟨_, rfl, hserving _ rfl⟩
    | some received =>
      obtain ⟨t', r, hrequest, hfd, hname⟩ := webRequest_eq signed stack
        { s.thread with clientfd := clientfd } (List.length_take_le 1499 received)
      dsimp only
      rw [hrequest, exec_ok_bind]
      cases r with
      | none => exact .inl ⟨_, rfl, hserving t' hfd⟩
      | some id =>
        obtain ⟨name, hasked, hid⟩ := Option.map_eq_some_iff.mp hname.symm
        exact .inr ⟨_, _, id, rfl, hserving t' hfd, hfd, rfl, name, id, hasked, hid.symm, rfl⟩

end Passes

section Acts
variable {signed : Bool} {stack : Sha1Context} {urandom : ℕ → Option Id} {s s' : Server}
  {node : Main} {e : Event} {xs : List (Container.Ptr × Lookup)} (inet_ntop : Octets 16 → Bytes)
  (hdraws : ∀ k k' id, urandom k = some id → urandom k' = some id → k = k')
include hdraws

/-- An event of a node whose callbacks and those it asks for have their requests. -/
theorem event_served (hrunning : Running Set.univ urandom s.node) (h : Pends Set.univ s.node xs)
    (hctx : ∀ ctx, (owed xs ++ e.owes).count (WEB_REPLY, ctx) =
      (s.requests.map Prod.fst).count ctx) (hstep : s.node.step e = .ok node) :
    ∃ s', s.event inet_ntop e = .ok s' ∧ Served { s with node := node } s' ∧
      Running Set.univ urandom s'.node ∧ ∃ xs', Pends Set.univ s'.node xs' ∧ ∀ ctx,
        (owed xs').count (WEB_REPLY, ctx) = (s'.requests.map Prod.fst).count ctx := by
  obtain ⟨xs', calls, hpends, hcalls, hdue⟩ := step_settles (hrunning.urandom ▸ hdraws)
    hrunning.inOrder (Set.mem_univ _) h e node hstep
  have hsum : ∀ ctx, (s.requests.map Prod.fst).count ctx =
      (owed xs').count (WEB_REPLY, ctx) + (calls.map Call.owed).count (WEB_REPLY, ctx) := by
    intro ctx
    rw [← hctx, hdue.count_eq, List.count_append]
  obtain ⟨s', hserve, hserved, hrest⟩ := serve_served inet_ntop
    (s := { s with node := node }) calls fun ctx => by
      have := hsum ctx
      dsimp only
      omega
  refine ⟨s', ?_, hserved, ?_, xs', hserved.node ▸ hpends, fun ctx => ?_⟩
  · rw [Server.event, hstep, exec_ok_bind, hcalls, List.drop_left]
    exact hserve
  · rw [hserved.node]
    exact hrunning.step (fun _ _ => Set.mem_univ _) node hstep
  · have hr := hrest ctx
    have hs := hsum ctx
    dsimp only at hr
    omega

/-- An event that starts no web lookup. -/
theorem Serving.event (h : Serving urandom s) (he : WEB_REPLY ∉ e.owes.map Prod.fst)
    (hstep : s.node.step e = .ok node) :
    ∃ s', s.event inet_ntop e = .ok s' ∧ Serving urandom s' := by
  obtain ⟨xs, hpends, hctx⟩ := h.lookups
  have hnone : ∀ ctx, e.owes.count (WEB_REPLY, ctx) = 0 := fun ctx =>
    List.count_eq_zero.mpr fun hmem => he (List.mem_map_of_mem hmem)
  obtain ⟨s', hevent, hserved, hrunning, hlookups⟩ := event_served inet_ntop hdraws
    h.running hpends (fun ctx => by rw [List.count_append, hnone, hctx, Nat.add_zero]) hstep
  refine ⟨s', hevent, hrunning, hlookups, (hserved.requests.map _).nodup h.own,
    fun x hx => hserved.fresh ▸ h.below x (hserved.requests.subset hx), fun fd hfd => ?_⟩
  have hopen := h.descriptors fd hfd
  have hclosed := hserved.closed fd
  rw [hserved.accepted, hserved.thread, List.count_cons, ← Nat.add_assoc, hclosed]
  rw [List.count_cons] at hopen
  exact hopen.trans (Nat.add_assoc _ _ _).symm

/-- A new request for the connection in hand. -/
theorem Serving.webLookup (h : Serving urandom s) {request : Request}
    (hfd : s.thread.clientfd = request.clientfd) {id : Id}
    (hstep : s.node.step (.lookup WEB_REPLY s.fresh id) = .ok node) :
    ∃ s', webLookup inet_ntop request id s = .ok s' ∧ Serving urandom s' := by
  obtain ⟨xs, hpends, hctx⟩ := h.lookups
  let s₁ : Server :=
    { s with requests := s.requests ++ [(s.fresh, request)], fresh := s.fresh + 1 }
  have hkeys : s₁.requests.map Prod.fst = s.requests.map Prod.fst ++ [s.fresh] := by
    simp [s₁]
  have hctx₁ : ∀ ctx, (owed xs ++ (Event.lookup WEB_REPLY s.fresh id).owes).count
      (WEB_REPLY, ctx) = (s₁.requests.map Prod.fst).count ctx := by
    intro ctx
    rw [hkeys, List.count_append, List.count_append, hctx, Event.owes, List.count_singleton,
      List.count_singleton]
    simp
  obtain ⟨s₂, hevent, hserved, hrunning, hlookups⟩ := event_served inet_ntop
    (s := s₁) hdraws h.running hpends hctx₁ hstep
  have hnew : s.fresh ∉ s.requests.map Prod.fst := by
    intro hmem
    obtain ⟨x, hx, he⟩ := List.mem_map.mp hmem
    exact Nat.ne_of_lt (h.below x hx) he
  have hown : (s₁.requests.map Prod.fst).Nodup := by
    rw [hkeys]
    exact h.own.append (List.nodup_singleton _) (by simpa using hnew)
  refine ⟨{ s₂ with thread.clientfd := 0 }, ?_, hrunning, hlookups,
    (hserved.requests.map _).nodup hown, fun x hx => ?_, fun fd hpos => ?_⟩
  · rw [Web.webLookup]
    exact exec_bind_eq_ok.mpr ⟨s₂, hevent, rfl⟩
  · have hmem := hserved.requests.subset hx
    rw [hserved.fresh]
    rcases List.mem_append.mp hmem with hmem | hmem
    · exact (h.below x hmem).trans (Nat.lt_succ_self _)
    · rw [List.mem_singleton.mp hmem]
      exact Nat.lt_succ_self _
  · have hopen := h.descriptors fd hpos
    have hclosed := hserved.closed fd
    have hheld : s₁.held = s.held ++ [request.clientfd] := by simp [s₁, Server.held]
    have hzero : ((0 : ℤ) == fd) = false := by simpa using hpos.ne
    change s₂.closed.count fd + s₂.held.count fd = s.closed.count fd + s₁.held.count fd at hclosed
    rw [hheld, List.count_append, List.count_singleton] at hclosed
    rw [List.count_cons, hfd] at hopen
    change s₂.accepted.count fd = s₂.closed.count fd + ((0 : ℤ) :: s₂.held).count fd
    rw [hserved.accepted, List.count_cons, hzero]
    change s.accepted.count fd = _
    simp only [Bool.false_eq_true, if_false]
    omega

/-- An act faults only if the node does. -/
theorem Serving.step (h : Serving urandom s) (a : Act)
    (hnode : ∀ e, s.asks a e → ∃ node, s.node.step e = .ok node) :
    ∃ s', s.step signed (sha1Hash stack) inet_ntop a = .ok s' ∧ Serving urandom s' := by
  cases a with
  | node e =>
    obtain ⟨node, hstep⟩ := hnode e.val rfl
    exact h.event inet_ntop hdraws e.property hstep
  | web i =>
    rcases webPass_cases h signed stack inet_ntop i with hdone | ⟨s₁, request, id, heq, h₁, hfd,
      hsame, hasks⟩
    · exact hdone
    · obtain ⟨node, hstep⟩ := hnode _ hasks
      rw [← hsame] at hstep
      obtain ⟨s', hlookup, hserving⟩ := h₁.webLookup inet_ntop hdraws hfd hstep
      exact ⟨s', heq.trans hlookup, hserving⟩

theorem Serving.keeps (h : Serving urandom s) (a : Act) :
    Ensures (s.step signed (sha1Hash stack) inet_ntop a) (Serving urandom) := by
  intro s' hs'
  cases a with
  | node e =>
    obtain ⟨node, hstep, -⟩ := exec_bind_eq_ok.mp hs'
    obtain ⟨s'', hevent, hserving⟩ := h.event inet_ntop hdraws e.property hstep
    exact Except.ok.inj (hevent.symm.trans hs') ▸ hserving
  | web i =>
    rcases webPass_cases h signed stack inet_ntop i with ⟨s'', hpass, hserving⟩ | ⟨s₁, request, id,
      heq, h₁, hfd, -⟩
    · exact Except.ok.inj (hpass.symm.trans hs') ▸ hserving
    · have hs₁ : Web.webLookup inet_ntop request id s₁ = .ok s' := heq.symm.trans hs'
      obtain ⟨s₂, hevent, -⟩ := exec_bind_eq_ok.mp hs₁
      obtain ⟨node, hstep, -⟩ := exec_bind_eq_ok.mp hevent
      obtain ⟨s'', hlookup, hserving⟩ := h₁.webLookup inet_ntop hdraws hfd hstep
      exact Except.ok.inj (hlookup.symm.trans hs₁) ▸ hserving

/-- The server after a run. -/
theorem serverRun_serving {conf : Conf} {udp : Udp} {time_now : ℤ} {random : ℕ → ℕ}
    {clientbuf : Octets 1500} {id : Id} {acts : List Act}
    (hrun : serverRun signed (sha1Hash stack) inet_ntop conf udp time_now urandom random clientbuf
      id acts = .ok s) : Serving urandom s := by
  obtain ⟨node, hinit, hacts⟩ := exec_bind_eq_ok.mp hrun
  obtain ⟨hrunning, hpends, -⟩ := mainInit_running (Set.mem_univ time_now) node hinit
  have hstart : Serving urandom ⟨node, ⟨0, clientbuf, id⟩, [], 0, [], [], []⟩ := by
    refine ⟨hrunning, ⟨[], hpends, fun _ => rfl⟩, List.nodup_nil, by simp, fun fd hfd => ?_⟩
    have hzero : ((0 : ℤ) == fd) = false := by simpa using hfd.ne
    change 0 = 0 + ([0] : List ℤ).count fd
    rw [List.count_singleton, hzero]
    rfl
  exact ensures_foldlM (fun _ a h => h.keeps inet_ntop hdraws a) hstart acts s hacts

end Acts

/-- In every run of a node with a web interface that draws no random number twice, the requests on
the heap and the pending lookups that have `web_reply` for a callback stand for each other one to
one, an accepted connection has been closed once or is the one of a request or in hand, and no act
faults where the node does not: a callback never reads a request that has been freed. -/
theorem web_connections (signed : Bool) (stack : Sha1Context) (inet_ntop : Octets 16 → Bytes)
    (conf : Conf) (udp : Udp) (time_now : ℤ) (urandom : ℕ → Option Id) (random : ℕ → ℕ)
    (hdraws : ∀ k k' id, urandom k = some id → urandom k' = some id → k = k')
    (clientbuf : Octets 1500) (id : Id) (acts : List Act) (s : Server)
    (hrun : serverRun signed (sha1Hash stack) inet_ntop conf udp time_now urandom random clientbuf
      id acts = .ok s) :
    ((s.requests.map Prod.fst).Nodup ∧ ∃ xs, Registered Lookup.key s.node.lkps xs ∧ ∀ ctx,
      (owed xs).count (WEB_REPLY, ctx) = (s.requests.map Prod.fst).count ctx) ∧
    (∀ fd, 0 < fd → s.accepted.count fd =
      s.closed.count fd + (s.thread.clientfd :: s.held).count fd) ∧
    ∀ a, (∀ e, s.asks a e → ∃ node, s.node.step e = .ok node) →
      ∃ s', s.step signed (sha1Hash stack) inet_ntop a = .ok s' := by
  have hserving := serverRun_serving inet_ntop hdraws hrun
  obtain ⟨xs, hxs, hctx⟩ := hserving.lookups
  refine ⟨⟨hserving.own, xs, hxs.registered, hctx⟩, hserving.descriptors, fun a ha => ?_⟩
  obtain ⟨s', hs', -⟩ := hserving.step inet_ntop hdraws a ha
  exact ⟨s', hs'⟩

/-- A client that asks for the id `headId 3`. -/
def firstClient : Act :=
  .web (.connection 5 (newNode (headId 0)).c_addr
    (some (GET ++ ch '0' :: ch '3' :: List.replicate 38 (ch '0') ++ [ch ' '])))

/-- A lookup that ends without an address, which closes the connection. -/
theorem web_connections_timeout : ∃ s,
    serverRun true (sha1Hash
        ⟨0, 0, initialValue, .replicate 64 0, .replicate 64 0, .replicate 64 0⟩) (fun _ => [])
      ⟨headId 0xff, headId 0, none, none⟩ ⟨3, true⟩ 0
      (fun k => if k < 8 then some (headId k.toUInt8) else none) (fun _ => 0)
      (.replicate 1500 7) (headId 0) [firstClient, .node ⟨cronAt 6, by simp [cronAt, Event.owes]⟩] =
        .ok s ∧
    s.closed = [5] ∧ s.accepted.count 5 = 1 + (s.thread.clientfd :: s.held).count 5 := by
  have hcalc : (do
      let s ← serverRun true (sha1Hash
          ⟨0, 0, initialValue, .replicate 64 0, .replicate 64 0, .replicate 64 0⟩) (fun _ => [])
        ⟨headId 0xff, headId 0, none, none⟩ ⟨3, true⟩ 0
        (fun k => if k < 8 then some (headId k.toUInt8) else none) (fun _ => 0)
        (.replicate 1500 7) (headId 0)
        [firstClient, .node ⟨cronAt 6, by simp [cronAt, Event.owes]⟩]
      return s.closed) = .ok [5] := by decide +kernel
  obtain ⟨s, hrun, hclosed⟩ := exec_bind_eq_ok.mp hcalc
  replace hclosed : s.closed = [5] := Except.ok.inj hclosed
  have hopen := (web_connections _ _ _ _ _ _ _ _ (fun _ _ _ => headId_draws) _ _ _ s hrun).2.1 5
    (by decide)
  rw [hclosed] at hopen
  exact ⟨s, hrun, hclosed, hopen⟩

end Masala.Web
