import Masala.Daemon.Findings

/-!
# A lookup comes to its end

A LOOKUP of a host that a node knows is answered with the address, and the
answer ends the lookup with a call of its callback, as long as the session of
the request is known.
-/
namespace Masala.Daemon
open Library Container Bencode Routing Session

/-! ## Hearing from somebody -/

/-- What `nbhd_put` does beside the table: it starts sessions. -/
structure Greeted (m m' : Main) : Prop where
  conf : m'.conf = m.conf
  sockfd : m'.udp.sockfd = m.udp.sockfd
  lkps : m'.lkps = m.lkps
  database : m'.database = m.database
  cache : ∃ puts : List CacheEvent, (∀ e ∈ puts, ∃ now s type, e = CacheEvent.put now s type) ∧
    puts.foldlM cacheStep m.cache = .ok m'.cache

section Greeted
variable {m m' m'' : Main} {sa : Ip}

theorem Greeted.refl (m : Main) : Greeted m m := ⟨rfl, rfl, rfl, rfl, [], by simp, rfl⟩

theorem Greeted.trans (h : Greeted m m') (h' : Greeted m' m'') : Greeted m m'' := by
  refine ⟨h'.conf.trans h.conf, h'.sockfd.trans h.sockfd, h'.lkps.trans h.lkps,
    h'.database.trans h.database, ?_⟩
  obtain ⟨puts, hputs, hrun⟩ := h.cache
  obtain ⟨puts', hputs', hrun'⟩ := h'.cache
  refine ⟨puts ++ puts', fun e he => ?_, ?_⟩
  · exact (List.mem_append.mp he).elim (hputs e) (hputs' e)
  · rw [List.foldlM_append, hrun]
    exact hrun'

theorem request_greeted (body : Body) (type : ℤ) (format : String) (args : List LogArg) :
    Ensures (do
      let (session_id, m) ← newSession type m
      return (m.emit sa (Message.datagram ⟨m.conf.node_id, session_id, body⟩)).logInfo format args)
      (Greeted m) := by
  rw [newSession, randUrandom]
  cases hread : m.urandom m.reads with
  | none => exact ensures_error
  | some session_id =>
    rw [exec_ok_bind]
    dsimp only
    cases hcache : cachePut m.p2p.time_now m.cache session_id type with
    | error err => exact ensures_error
    | ok cache =>
      refine ensures_ok.mpr ?_
      dsimp only
      rw [Main.emit_eq]
      refine ⟨rfl, rfl, rfl, rfl, [.put m.p2p.time_now session_id type], by simp, ?_⟩
      exact congrArg (· >>= Except.ok) hcache

theorem nbhdPut_greeted (id : Id) (sa : Ip) (m : Main) :
    Ensures (nbhdPut id sa m) (Greeted m) := by
  refine ensures_ite (fun _ => ensures_ok.mpr (.refl m)) fun _ => ensures_then fun r => ?_
  cases r with
  | some r => exact ensures_then fun nbhd => ensures_ok.mpr ⟨rfl, rfl, rfl, rfl, [], by simp, rfl⟩
  | none =>
    refine ensures_then fun nbhd => ?_
    have hput : Greeted m { m with draws := m.draws + 1 + 1, nbhd := nbhd } :=
      ⟨rfl, rfl, rfl, rfl, [], by simp, rfl⟩
    rw [sendPing_eq]
    refine (request_greeted .ping SEND_UNICAST _ _).bind fun m₁ h₁ => ?_
    rw [sendFind_eq]
    refine (request_greeted (.find _) SEND_UNICAST _ _).mono fun m₂ h₂ => ?_
    exact hput.trans (h₁.trans h₂)

/-- A known session is still known. -/
theorem Greeted.accepts (h : Greeted m m') {es : List CacheEvent} (hrun : cacheRun es = .ok m.cache)
    {key : Id} {cache : ObjCache} (hvalid : cacheValidate m.cache key = .ok (cache, true)) :
    ∃ cache', cacheValidate m'.cache key = .ok (cache', true) := by
  obtain ⟨puts, hputs, hmore⟩ := h.cache
  have hall : cacheRun (es ++ puts) = .ok m'.cache := by
    rw [cacheRun] at hrun ⊢
    rw [List.foldlM_append, hrun]
    exact hmore
  obtain ⟨c, cache', hc, hvalid'⟩ := accepts_puts ⟨m.cache, cache, hrun, hvalid⟩ hputs
  obtain rfl := Except.ok.inj (hc.symm.trans hall)
  exact ⟨cache', hvalid'⟩

end Greeted

/-! ## The answer -/

section Answer
variable {m m' : Main} {sender sa : Ip} {now : ℤ} {find_id lkp_id key : Id}

theorem dbSend_of_address (h : dbAddress find_id m = .ok (some sa)) :
    dbSend sender find_id lkp_id key m =
      (sendValue sender sa key lkp_id m).map fun m => (m, true) := by
  obtain ⟨r, hfind, h⟩ := exec_bind_eq_ok.mp h
  cases r with
  | none => cases h
  | some i =>
    obtain ⟨db, hitem, h⟩ := exec_bind_eq_ok.mp h
    obtain rfl := Option.some.inj (Except.ok.inj h)
    rw [dbSend, hfind, exec_ok_bind]
    dsimp only
    rw [hitem, exec_ok_bind]
    rfl

theorem dbAddress_congr (h : m'.database = m.database) (host_id : Id) :
    dbAddress host_id m' = dbAddress host_id m := by
  rw [dbAddress, dbAddress, dbFind, dbFind, h]

theorem lookup_length (node_id : Id) :
    (Message.datagram ⟨node_id, key, .lookup lkp_id find_id⟩).length ≤ UDP_BUF := by
  rw [Message.length_eq]
  simp [Body.fields, UDP_BUF]

theorem value_length (node_id : Id) (address : Octets 16) :
    (Message.datagram ⟨node_id, key, .value lkp_id address⟩).length ≤ UDP_BUF := by
  rw [Message.length_eq]
  simp [Body.fields, UDP_BUF]

/-- A node that knows the host answers a LOOKUP with its address. -/
theorem lookup_answered {node_id : Id} (hown : m.conf.node_id ≠ node_id)
    (hsock : 0 ≤ m.udp.sockfd) (haddress : dbAddress find_id m = .ok (some sa))
    (hstep : m.step (.packet now (Message.datagram ⟨node_id, key, .lookup lkp_id find_id⟩) sender) =
      .ok m') :
    (sender, Message.datagram ⟨m.conf.node_id, key, .value lkp_id sa.addr⟩) ∈ m'.out := by
  rw [Main.step, Message.udpInput_eq _ (lookup_length node_id) now sender hown] at hstep
  obtain ⟨m₁, hput, hstep⟩ := exec_bind_eq_ok.mp hstep
  have hgreeted := nbhdPut_greeted node_id sender (m.tick now) m₁ hput
  have haddress₁ : dbAddress find_id m₁ = .ok (some sa) := by
    rw [dbAddress_congr hgreeted.database]
    exact haddress
  have hsock₁ : ¬ m₁.udp.sockfd < 0 := by
    rw [hgreeted.sockfd]
    exact Int.not_lt.mpr hsock
  have hconf : m₁.conf = m.conf := hgreeted.conf
  dsimp only [Body.handle] at hstep
  rw [dbSend_of_address haddress₁, sendValue_eq] at hstep
  obtain rfl := Except.ok.inj hstep
  rw [Main.emit_eq, Main.departs, if_neg hsock₁, hconf]
  exact List.mem_append_right _ (List.mem_singleton_self _)

/-- The answer ends the lookup and no other: its callback is called with the address. -/
structure Ended (l : Lookup) (node_id : Id) (address : Octets 16) (m m' : Main) : Prop where
  calls : m'.calls = m.calls ++ (l.search.answer node_id (some address)).toList
  lookups : m'.lkps.list.items = m.lkps.list.items.filter fun y => y.2.lkp_id ≠ l.lkp_id

/-- A VALUE in a known session ends the lookup. -/
theorem value_found {node_id : Id} {address : Octets 16} (hown : m.conf.node_id ≠ node_id)
    {es : List CacheEvent} (hrun : cacheRun es = .ok m.cache) {cache : ObjCache}
    (hvalid : cacheValidate m.cache key = .ok (cache, true)) {xs : List (Ptr × Lookup)}
    (hreg : Registered Lookup.key m.lkps xs) {x : Ptr × Lookup} (hx : x ∈ xs)
    (hlkp : x.2.lkp_id = lkp_id)
    (hstep : m.step (.packet now (Message.datagram ⟨node_id, key, .value lkp_id address⟩) sender) =
      .ok m') : Ended x.2 node_id address m m' := by
  rw [Main.step, Message.udpInput_eq _ (value_length node_id address) now sender hown] at hstep
  obtain ⟨m₁, hput, hstep⟩ := exec_bind_eq_ok.mp hstep
  have hgreeted := nbhdPut_greeted node_id sender (m.tick now) m₁ hput
  have hcalls : m₁.calls = m.calls := (nbhdPut_beside node_id sender (m.tick now) m₁ hput).calls
  obtain ⟨cache', hvalid'⟩ := hgreeted.accepts hrun hvalid
  have hitems : m.lkps.list.items = xs := hreg.items_eq
  obtain ⟨p, l⟩ := x
  obtain ⟨ys, zs, rfl⟩ := List.append_of_mem hx
  obtain rfl : l.lkp_id = lkp_id := hlkp
  have hreg₁ : Registered Lookup.key m₁.lkps (ys ++ (p, l) :: zs) := by
    rw [hgreeted.lkps]
    exact hreg
  obtain ⟨lkps, hsuccess, hreg', -⟩ :=
    lkpSuccess_eq (m := { m₁ with cache := cache' }) hreg₁ node_id address
  rw [Body.handle, ifExpected, hvalid', exec_ok_bind] at hstep
  obtain rfl := Except.ok.inj (hsuccess.symm.trans hstep)
  refine ⟨by rw [← hcalls], ?_⟩
  have hitems' : lkps.list.items = ys ++ zs := hreg'.items_eq
  have hne := hreg.hash.key_ne
  have hother : ∀ ws : List (Ptr × Lookup), (∀ y ∈ ws, Lookup.key y.2 ≠ Lookup.key l) →
      ws.filter (fun y => y.2.lkp_id ≠ l.lkp_id) = ws := fun ws hws =>
    List.filter_eq_self.mpr fun y hy => decide_eq_true fun he => hws y hy (lkpKey_eq_iff.mpr he)
  rw [hitems', hitems, List.filter_append, List.filter_cons_of_neg (by simp), hother ys hne.1,
    hother zs hne.2]

end Answer

/-! ## Runs -/

section Later
variable {ι : Type} [DecidableEq ι] {sites : ι → Site} {hs later : List (ι × Happening ι)}
  {net net' : ι → Main}

theorem Reached.trans (h : Reached sites hs net)
    (hlater : Trace (p2pNetwork sites).Moves net later net') :
    Reached sites (hs ++ later) net' := by
  obtain ⟨net₀, hstart, htrace⟩ := h
  exact ⟨net₀, hstart, htrace.append hlater⟩

/-- What a node has sent stays sent. -/
theorem Reached.sent (h : Reached sites hs net)
    (hlater : Trace (p2pNetwork sites).Moves net later net') (i : ι) :
    (net i).out ⊆ (net' i).out := by
  let Inv (past : List (ι × Happening ι)) (n : ι → Main) : Prop :=
    Reached sites (hs ++ past) n ∧ (net i).out ⊆ (n i).out
  have hstep : ∀ past n x n', (p2pNetwork sites).Moves n x n' → Inv past n →
      Inv (past ++ [x]) n' := by
    rintro past n x n' hmove ⟨hreached, hsent⟩
    refine ⟨by rw [← List.append_assoc]; exact hreached.trans (.single hmove), ?_⟩
    cases hmove with
    | @intro j hap m hlocal _ =>
      by_cases hj : i = j
      · subst hj
        rw [Function.update_self]
        exact List.Subset.trans hsent (step_sent (hreached.fair i).inOrder hlocal)
      · rwa [Function.update_of_ne hj]
  have hstart : Inv [] net := ⟨by rwa [List.append_nil], List.Subset.refl _⟩
  exact (hlater.history hstep hstart).2

end Later

/-- If no random number is drawn twice in the network, then in every run a LOOKUP that reaches a
node with the host in its database is answered with a VALUE. Whenever this comes back while the
session is known and the lookup is pending, the lookup, which is one of this host, ends with it. -/
theorem network_lookup {ι : Type} [DecidableEq ι] (sites : ι → Site) (hfresh : FreshDraws sites)
    (hs : List (ι × Happening ι)) (net : ι → Main) (h : Reached sites hs net) (b c : ι)
    (hids : (sites b).conf.node_id ≠ (sites c).conf.node_id) (hsock : 0 ≤ (net c).udp.sockfd)
    (key lkp_id find_id : Id) (sa : Ip) (haddress : dbAddress find_id (net c) = .ok (some sa))
    (now : ℤ) (dest : Ip) (net₁ : ι → Main)
    (hlookup : (p2pNetwork sites).Moves net (c, .deliver b now (dest,
      Message.datagram ⟨(sites b).conf.node_id, key, .lookup lkp_id find_id⟩)) net₁) :
    ((sites b).addr, Message.datagram ⟨(sites c).conf.node_id, key, .value lkp_id sa.addr⟩) ∈
      (net₁ c).out ∧
    ∀ later net₂, Trace (p2pNetwork sites).Moves net₁ later net₂ →
      ∀ x ∈ (net₂ b).lkps.list.items, x.2.lkp_id = lkp_id →
      ∀ cache, cacheValidate (net₂ b).cache key = .ok (cache, true) → ∀ then' dest' net₃,
      (p2pNetwork sites).Moves net₂ (b, .deliver c then' (dest', Message.datagram
        ⟨(sites c).conf.node_id, key, .value lkp_id sa.addr⟩)) net₃ →
      x.2.find_id = find_id ∧ Ended x.2 (sites c).conf.node_id sa.addr (net₂ b) (net₃ b) := by
  have h₁ := h.trans (.single hlookup)
  have hreq : (dest, Message.datagram ⟨(sites b).conf.node_id, key, .lookup lkp_id find_id⟩) ∈
      (net b).out := by
    cases hlookup with
    | intro _ hsent => exact hsent b _ rfl
  have hreq₁ := h.sent (.single hlookup) b hreq
  refine ⟨?_, ?_⟩
  · cases hlookup with
    | intro hstep _ =>
      have hconf := (h.right hfresh c).conf
      rw [Function.update_self, ← hconf]
      exact lookup_answered (by rw [hconf]; exact hids.symm) hsock haddress hstep
  · intro later net₂ hlater x hx hlkp cache hvalid then' dest' net₃ hvalue
    have hright := (h₁.trans hlater).right hfresh b
    obtain ⟨issued, hi⟩ := hright.lookups
    obtain ⟨xs, hreg⟩ := hi.registered
    obtain ⟨es, hrun, -⟩ := hright.sessions
    have hitems : (net₂ b).lkps.list.items = xs := hreg.items_eq
    rw [hitems] at hx
    obtain ⟨s, hasked⟩ := hi.asked _ (h₁.sent hlater b hreq₁) _ _ _ rfl rfl
    have hlookup := (hi.lookup hreg hx).symm.trans (hlkp ▸ hasked)
    refine ⟨congrArg Prod.fst (Option.some.inj hlookup), ?_⟩
    cases hvalue with
    | intro hstep _ =>
      rw [Function.update_self]
      exact value_found (by rw [hright.conf]; exact hids) hrun hvalid hreg hx hlkp hstep

/-- The announced node looks itself up, and asks the one it has announced itself to. -/
def duoLooks : List (Bool × Happening Bool) :=
  duoAnnounced ++ [(true, .lookup 7 8 (headId 0x02))]

/-- The question and its answer. -/
def duoQuestion : Bool × Happening Bool :=
  (false, .deliver true 2 ((duo false).addr,
    Message.datagram ⟨headId 0x01, headId 0x17, .lookup (headId 0x16) (headId 0x02)⟩))

def duoAnswer : Bool × Happening Bool :=
  (true, .deliver false 3 ((duo true).addr,
    Message.datagram ⟨headId 0x81, headId 0x17, .value (headId 0x16) (duo true).addr.addr⟩))

/-- The answer comes after the other node has looked the host up as well. -/
theorem network_lookup_duo : ∃ net net₁ net₂ net₃ x, duoAfter duoLooks = some net ∧
    play duo net duoQuestion = some net₁ ∧
    play duo net₁ (false, .lookup 9 10 (headId 0x02)) = some net₂ ∧
    play duo net₂ duoAnswer = some net₃ ∧
    ((duo true).addr, Message.datagram ⟨headId 0x81, headId 0x17,
      .value (headId 0x16) (duo true).addr.addr⟩) ∈ (net₁ false).out ∧
    x ∈ (net₂ true).lkps.list.items ∧ x.2.callback = some 7 ∧ x.2.find_id = headId 0x02 ∧
    Ended x.2 (headId 0x81) (duo true).addr.addr (net₂ true) (net₃ true) := by
  have hcalc : ((duoAfter duoLooks).bind fun net =>
      (dbAddress (headId 0x02) (net false)).toOption.bind fun sa =>
      (play duo net duoQuestion).bind fun net₁ =>
      (play duo net₁ (false, .lookup 9 10 (headId 0x02))).bind fun net₂ =>
      (net₂ true).lkps.list.items.head?.bind fun x =>
      (cacheValidate (net₂ true).cache (headId 0x17)).toOption.bind fun r =>
      (play duo net₂ duoAnswer).map fun _ =>
      (r.2, sa, x.2.lkp_id, x.2.callback, (net false).udp.sockfd)) =
      some (true, some (duo true).addr, headId 0x16, some 7, 3) := by decide +kernel
  obtain ⟨net, hnet, hcalc⟩ := Option.bind_eq_some_iff.mp hcalc
  obtain ⟨sa, hsa, hcalc⟩ := Option.bind_eq_some_iff.mp hcalc
  obtain ⟨net₁, hquestion, hcalc⟩ := Option.bind_eq_some_iff.mp hcalc
  obtain ⟨net₂, hlooks, hcalc⟩ := Option.bind_eq_some_iff.mp hcalc
  obtain ⟨x, hx, hcalc⟩ := Option.bind_eq_some_iff.mp hcalc
  obtain ⟨⟨cache, valid⟩, hvalid, hcalc⟩ := Option.bind_eq_some_iff.mp hcalc
  obtain ⟨net₃, hanswer, hcalc⟩ := Option.map_eq_some_iff.mp hcalc
  simp only [Prod.mk.injEq] at hcalc
  obtain ⟨rfl, rfl, hlkp, hcallback, hsock⟩ := hcalc
  have hmem : x ∈ (net₂ true).lkps.list.items := List.mem_of_mem_head? hx
  obtain ⟨hvalue, hends⟩ := network_lookup duo duo_freshDraws duoLooks net (duo_reached hnet)
    true false (by decide) (by rw [hsock]; decide) (headId 0x17) (headId 0x16) (headId 0x02)
    (duo true).addr (toOption_eq_some hsa) 2 _ net₁ (play_moves duo hquestion)
  obtain ⟨htarget, hended⟩ := hends _ net₂ (.single (play_moves duo hlooks)) x hmem hlkp cache
    (toOption_eq_some hvalid) 3 _ net₃ (play_moves duo hanswer)
  exact ⟨net, net₁, net₂, net₃, x, hnet, hquestion, hlooks, hanswer, hvalue, hmem, hcallback,
    htarget, hended⟩

end Masala.Daemon
