import Masala.Daemon.Visits

/-!
# Runs of the daemon

The handling of a packet and a pass of `p2p_cron` as sequences of steps of the
machine. What a packet puts into the table and whether its PONG counts is read
off the packet. By induction over the events a whole run only makes changes of
the table machine, so the table invariant holds in every state of it.
-/
namespace Masala.Daemon
open Library Container Bencode Routing Session

/-! ## What an event can cause -/

/-- The clock reading of an event. An empty datagram is dropped before the clock is read. -/
def Event.clock : Event → Option ℤ
  | .packet now datagram _ => if (datagram.take UDP_BUF).length = 0 then none else some now
  | .cron now _ => some now
  | .lookup _ _ _ => none
  | .search _ => none

/-- The state in which an event is handled: the clock has been read. -/
def Main.timed (m : Main) (e : Event) : Main :=
  match e.clock with
  | none => m
  | some now => m.tick now

/-- The datagram is a bencoded dictionary. -/
structure Decodes (datagram : Bytes) (packet : ObjBen) : Prop where
  received : (datagram.take UDP_BUF).length ≠ 0
  valid : ∃ p, benValidate (udpBuffer (datagram.take UDP_BUF)) (datagram.take UDP_BUF).length =
    .ok (some p)
  decoded : ∃ n, benDec ((datagram.take UDP_BUF).length + 1) (udpBuffer (datagram.take UDP_BUF)) =
    .ok (some packet, n)
  dict : benIsDict (some packet) = true

/-- The event is a packet with a foreign id and a session key, whose sender `nbhd_put` has
stored. -/
inductive Heard (m : Main) : Event → ObjBen → Id → Id → Ip → Main → Prop
  | packet {now : ℤ} {datagram : Bytes} {packet : ObjBen} {id key : Id} {sender : Ip} {m' : Main}
      (decodes : Decodes datagram packet)
      (hid : p2pIsHash (benSearchDictStr packet 'i') = some id) (foreign : ¬ nodeMe m id)
      (hkey : p2pIsHash (benSearchDictStr packet 'k') = some key)
      (put : nbhdPut id sender (m.timed (.packet now datagram sender)) = .ok m') :
      Heard m (.packet now datagram sender) packet id key sender m'

/-- `p2p_pong` accepts the packet: it is a PONG of a session that the cache knows. -/
def AcceptsPong (m : Main) (e : Event) (id : Id) (sa : Ip) : Prop :=
  ∃ packet key m' cache, Heard m e packet id key sa m' ∧
    benSearchDictStr packet 'q' = some (.str [ch 'o']) ∧
    cacheValidate m'.cache key = .ok (cache, true)

/-- The entries of a NODES reply in front of the first broken one. -/
def readContacts : List ObjBen → List (Id × Ip)
  | [] => []
  | node :: nodes =>
    if ¬ benIsDict (some node) then []
    else
      match p2pIsHash (benSearchDictStr node 'i'), p2pIsIp (benSearchDictStr node 'a'),
        p2pIsPort (benSearchDictStr node 'p') with
      | some id, some ip, some po => (id, ⟨AF_INET6, po, 0, ip, 0⟩) :: readContacts nodes
      | _, _, _ => []

/-- A NODES reply, which needs a lookup id unless it answers a FIND. -/
def IsNodes (packet : ObjBen) (q : UInt8) : Prop :=
  q = ch 'F' ∨ (q = ch 'A' ∨ q = ch 'L') ∧ p2pIsHash (benSearchDictStr packet 'l') ≠ none

/-- The event is a packet from this contact, or an accepted NODES reply that lists it. -/
inductive Names (m : Main) (e : Event) (id : Id) (sa : Ip) : Prop
  | sender {packet : ObjBen} {key : Id} {m' : Main} (h : Heard m e packet id key sa m')
  | reply {packet : ObjBen} {node_id key : Id} {sender : Ip} {m' : Main} {cache : ObjCache}
      {q : UInt8} {nodes : List ObjBen} (h : Heard m e packet node_id key sender m')
      (hcache : cacheValidate m'.cache key = .ok (cache, true))
      (hq : benSearchDictStr packet 'q' = some (.str [q])) (hnodes : IsNodes packet q)
      (hn : benSearchDictStr packet 'n' = some (.list nodes)) (hmem : (id, sa) ∈ readContacts nodes)

/-- The steps that an event can cause. -/
def Causes (m : Main) (e : Event) : Act → Prop
  | .tick _ => False
  | .nbhdPut id sa => Names m e id sa
  | .nbhdPonged id sa => AcceptsPong m e id sa
  | _ => True

/-! ## Packets -/

section Packets
variable {m : Main} {allowed : Act → Prop}

theorem log_aside (m : Main) (format : String) (args : List LogArg) :
    Aside m (m.logInfo format args) := ⟨rfl, rfl, rfl, rfl, rfl, rfl⟩

theorem log_does (ha : allowed .aside) (m : Main) (format : String) (args : List LogArg) :
    Ensures (.ok (m.logInfo format args)) (Does allowed m) :=
  ensures_ok.mpr (.single (.aside (log_aside m format args)) ha)

/-- A function that is a single step of the machine. -/
theorem deed_does {x : Exec Main} (act : Act) (hact : allowed act)
    (h : ∀ m', x = .ok m' → Deed m act m') : Ensures x (Does allowed m) :=
  fun m' hm' => .single (h m' hm') hact

/-- A reply is handled only if its session is known. -/
theorem ifExpected_does (ha : allowed .aside) (hm : InOrder m) {unexpected : String}
    {session_id : Id} {handle : Main → Exec Main}
    (hh : (∃ cache, cacheValidate m.cache session_id = .ok (cache, true)) →
      ∀ m, InOrder m → Ensures (handle m) (Does allowed m)) :
    Ensures (ifExpected unexpected session_id handle m) (Does allowed m) := by
  rw [ifExpected]
  cases hvalid : cacheValidate m.cache session_id with
  | error e => exact ensures_error
  | ok r =>
    obtain ⟨cache, valid⟩ := r
    have hcache : Aside m { m with cache := cache } := ⟨rfl, rfl, rfl, rfl, rfl, rfl⟩
    have hdoes : Does allowed m { m with cache := cache } := .single (.aside hcache) ha
    rw [exec_ok_bind]
    cases valid with
    | false => exact (log_does ha _ _ _).mono fun _ h => hdoes.trans h
    | true =>
      have hm' := hcache.quiet.moved.inOrder hm
      exact (hh ⟨cache, hvalid⟩ _ hm').mono fun _ h => hdoes.trans h

theorem storeNodes_does {visit : Id → Ip → Main → Exec Main} (ha : allowed .aside)
    (hv : ∀ id sa m, InOrder m → Ensures (visit id sa m) (Does allowed m)) (nodes : List ObjBen)
    (hp : ∀ x ∈ readContacts nodes, allowed (.nbhdPut x.1 x.2)) (hm : InOrder m) :
    Ensures (storeNodes visit nodes m) (Does allowed m) := by
  induction nodes generalizing m with
  | nil => exact ensures_ok.mpr (.refl m)
  | cons node nodes ih =>
    rw [readContacts] at hp
    rw [storeNodes]
    by_cases hd : ¬ benIsDict (some node)
    · rw [if_pos hd]
      exact log_does ha m _ _
    · rw [if_neg hd] at hp ⊢
      cases hi : p2pIsHash (benSearchDictStr node 'i') with
      | none => exact log_does ha m _ _
      | some id =>
        cases hip : p2pIsIp (benSearchDictStr node 'a') with
        | none => exact log_does ha m _ _
        | some ip =>
          cases hpo : p2pIsPort (benSearchDictStr node 'p') with
          | none => exact log_does ha m _ _
          | some po =>
            simp only [hi, hip, hpo, List.mem_cons, forall_eq_or_imp] at hp
            refine Does.bind hm (hv id _ m hm) fun m₁ hm₁ => ?_
            refine Does.bind hm₁ (deed_does (.nbhdPut id _) hp.1 fun _ h => .nbhdPut h)
              fun m₂ hm₂ => ?_
            exact ih hp.2 hm₂

section Replies
variable (ha : allowed .aside) (packet : ObjBen) (node_id key : Id) (sender : Ip)
include ha

theorem p2pNodeFind_does (hm : InOrder m)
    (hp : (∃ cache, cacheValidate m.cache key = .ok (cache, true)) →
      ∀ nodes, benSearchDictStr packet 'n' = some (.list nodes) →
        ∀ x ∈ readContacts nodes, allowed (.nbhdPut x.1 x.2)) :
    Ensures (p2pNodeFind packet key m) (Does allowed m) := by
  refine ifExpected_does ha hm fun hc m hm => ?_
  split
  · rename_i nodes hn
    exact storeNodes_does ha (fun _ _ m _ => ensures_ok.mpr (.refl m)) nodes (hp hc nodes hn) hm
  · exact log_does ha m _ _

variable (hp : (∃ cache, cacheValidate m.cache key = .ok (cache, true)) →
  p2pIsHash (benSearchDictStr packet 'l') ≠ none →
    ∀ nodes, benSearchDictStr packet 'n' = some (.list nodes) →
      ∀ x ∈ readContacts nodes, allowed (.nbhdPut x.1 x.2))
include hp

theorem p2pNodeAnnounce_does (hr : ∀ lkp_id id sa, allowed (.announceResolve lkp_id id sa))
    (hm : InOrder m) : Ensures (p2pNodeAnnounce packet node_id key sender m) (Does allowed m) := by
  refine ifExpected_does ha hm fun hc m hm => ?_
  split
  · rename_i nodes hn
    split
    · exact log_does ha m _ _
    · rename_i lkp_id hl
      have hvisit : ∀ id sa m, InOrder m →
          Ensures (announceMyself lkp_id id sa m) (Does allowed m) := by
        intro id sa m _
        refine ensures_ite (fun _ => ?_) fun _ => ensures_ok.mpr (.refl m)
        exact deed_does (.announceResolve lkp_id id sa) (hr _ _ _) fun _ h => .announceResolve h
      refine Does.bind hm (hvisit node_id sender m hm) fun m₁ hm₁ => ?_
      exact storeNodes_does ha hvisit nodes (hp hc (by simp [hl]) nodes hn) hm₁
  · exact log_does ha m _ _

theorem p2pNodeLookup_does (hr : ∀ lkp_id id sa, allowed (.lkpResolve lkp_id id sa))
    (hm : InOrder m) : Ensures (p2pNodeLookup packet node_id key sender m) (Does allowed m) := by
  refine ifExpected_does ha hm fun hc m hm => ?_
  split
  · rename_i nodes hn
    split
    · exact log_does ha m _ _
    · rename_i lkp_id hl
      have hvisit : ∀ id sa m, InOrder m → Ensures (lkpResolve lkp_id id sa m) (Does allowed m) :=
        fun id sa m _ => deed_does (.lkpResolve lkp_id id sa) (hr _ _ _) fun _ h => .lkpResolve h
      refine Does.bind hm (hvisit node_id sender m hm) fun m₁ hm₁ => ?_
      exact storeNodes_does ha hvisit nodes (hp hc (by simp [hl]) nodes hn) hm₁
  · exact log_does ha m _ _

end Replies

theorem p2pValue_does (ha : allowed .aside) (hs : ∀ lkp_id id address,
    allowed (.lkpSuccess lkp_id id address)) (packet : ObjBen) (node_id key : Id) (hm : InOrder m) :
    Ensures (p2pValue packet node_id key m) (Does allowed m) := by
  refine ifExpected_does ha hm fun _ m _ => ?_
  split
  · exact log_does ha m _ _
  · split
    · exact log_does ha m _ _
    · exact deed_does (.lkpSuccess _ _ _) (hs _ _ _) fun _ h => .lkpSuccess h

/-! Requests only look things up, store a host in the database and answer. -/

theorem p2pFind_aside (packet : ObjBen) (session_id : Id) (sender : Ip) (m : Main) :
    Ensures (p2pFind packet session_id sender m) (Aside m) := by
  rw [p2pFind]
  split
  · exact ensures_ok.mpr (log_aside m _ _)
  · exact nbhdSend_aside _ m _ _ _ _

theorem p2pAnnounce_aside (packet : ObjBen) (session_id : Id) (sender : Ip) (m : Main) :
    Ensures (p2pAnnounce packet session_id sender m) (Aside m) := by
  rw [p2pAnnounce]
  split
  · exact ensures_ok.mpr (log_aside m _ _)
  · split
    · exact ensures_ok.mpr (log_aside m _ _)
    · exact Aside.bind (dbPut_aside _ sender m) fun m' => nbhdSend_aside _ m' _ _ _ _

theorem p2pLookup_aside (packet : ObjBen) (session_id : Id) (sender : Ip) (m : Main) :
    Ensures (p2pLookup packet session_id sender m) (Aside m) := by
  rw [p2pLookup]
  split
  · exact ensures_ok.mpr (log_aside m _ _)
  · split
    · exact ensures_ok.mpr (log_aside m _ _)
    · refine (dbSend_aside sender _ _ _ m).bind fun r h₁ => ?_
      refine ensures_ite (fun _ => ensures_ok.mpr h₁) fun _ => ?_
      exact (nbhdSend_aside _ r.1 _ _ _ _).mono fun _ h => h₁.trans h

variable {e : Event}

/-- After a packet has been heard the `switch` does what its type says. -/
theorem dispatch_does {packet : ObjBen} {id key : Id} {sender : Ip} {m' : Main} {q : UInt8}
    (h : Heard m e packet id key sender m') (hm : InOrder m')
    (hq : benSearchDictStr packet 'q' = some (.str [q])) :
    Ensures (dispatch q packet id key sender m') (Does (Causes m e) m') := by
  have ha : Causes m e .aside := trivial
  have hnamed : (∃ cache, cacheValidate m'.cache key = .ok (cache, true)) → IsNodes packet q →
      ∀ nodes, benSearchDictStr packet 'n' = some (.list nodes) →
        ∀ x ∈ readContacts nodes, Causes m e (.nbhdPut x.1 x.2) := by
    rintro ⟨cache, hcache⟩ hnodes nodes hn x hx
    exact .reply h hcache hq hnodes hn hx
  refine ensures_ite (fun _ => ?_) fun _ => ensures_ite (fun _ => ?_) fun _ =>
    ensures_ite (fun _ => ?_) fun _ => ensures_ite (fun _ => ?_) fun _ =>
    ensures_ite (fun hpong => ?_) fun _ => ensures_ite (fun hfind => ?_) fun _ =>
    ensures_ite (fun hannounce => ?_) fun _ => ensures_ite (fun hlookup => ?_) fun _ =>
    ensures_ite (fun _ => ?_) fun _ => log_does ha m' _ _
  · exact aside_does (sendPong_aside sender m' key) ha
  · exact aside_does (p2pFind_aside packet key sender m') ha
  · exact aside_does (p2pAnnounce_aside packet key sender m') ha
  · exact aside_does (p2pLookup_aside packet key sender m') ha
  · subst hpong
    refine ifExpected_does ha hm fun ⟨cache, hcache⟩ m₁ _ => ?_
    have hpong : Causes m e (.nbhdPonged id sender) := ⟨packet, key, m', cache, h, hq, hcache⟩
    exact deed_does (.nbhdPonged id sender) hpong fun _ hp => .nbhdPonged hp
  · exact p2pNodeFind_does ha packet key hm fun hc => hnamed hc (.inl hfind)
  · exact p2pNodeAnnounce_does ha packet id key sender
      (fun hc hl => hnamed hc (.inr ⟨.inl hannounce, hl⟩)) (fun _ _ _ => trivial) hm
  · exact p2pNodeLookup_does ha packet id key sender
      (fun hc hl => hnamed hc (.inr ⟨.inr hlookup, hl⟩)) (fun _ _ _ => trivial) hm
  · exact p2pValue_does ha (fun _ _ _ => trivial) packet id key hm

theorem timed_moved (m : Main) (e : Event) : Moved m (m.timed e) := by
  rw [Main.timed]
  cases e.clock with
  | none => exact .refl m
  | some now => exact ⟨rfl, .refl⟩

theorem timed_packet {now : ℤ} {datagram : Bytes} (sender : Ip)
    (h : (datagram.take UDP_BUF).length ≠ 0) :
    m.timed (.packet now datagram sender) = m.tick now := by
  rw [Main.timed, Event.clock, if_neg h]

theorem handle_does (now : ℤ) (sender : Ip) {datagram : Bytes} {packet : ObjBen}
    (hdec : Decodes datagram packet) (hm : InOrder m) :
    Ensures (handle packet sender (m.timed (.packet now datagram sender)))
      (Does (Causes m (.packet now datagram sender)) (m.timed (.packet now datagram sender))) := by
  have ha : Causes m (.packet now datagram sender) .aside := trivial
  have hmt := (timed_moved m (.packet now datagram sender)).inOrder hm
  rw [handle]
  split
  · exact log_does ha _ _ _
  · rename_i id hid
    refine ensures_ite (fun _ => ensures_then fun empty => ?_) fun hme => ?_
    · cases empty with
      | true => exact ensures_ok.mpr (.refl _)
      | false => exact log_does ha _ _ _
    · have hforeign : ¬ nodeMe m id := by
        rwa [nodeMe, ← (timed_moved m (.packet now datagram sender)).conf]
      split
      · exact log_does ha _ _ _
      · rename_i key hkey
        intro m' hm'
        obtain ⟨m₁, hput, hrest⟩ := exec_bind_eq_ok.mp hm'
        have hheard : Heard m (.packet now datagram sender) packet id key sender m₁ :=
          .packet hdec hid hforeign hkey hput
        have hdoes : Does (Causes m (.packet now datagram sender)) _ m₁ :=
          .single (.nbhdPut hput) (.sender hheard)
        have hm₁ := (hdoes.moved hmt).inOrder hmt
        refine hdoes.trans (?_ : Does _ m₁ m')
        split at hrest
        · exact dispatch_does hheard hm₁ ‹_› m' hrest
        · exact log_does ha _ _ _ m' hrest

theorem udpInput_does (hm : InOrder m) (now : ℤ) (datagram : Bytes) (sender : Ip) :
    Ensures (udpInput now datagram sender m) (Does (Causes m (.packet now datagram sender))
      (m.timed (.packet now datagram sender))) := by
  have ha : Causes m (.packet now datagram sender) .aside := trivial
  refine ensures_ite (fun hlen => ?_) fun hlen => ?_
  · rw [Main.timed, Event.clock, if_pos hlen]
    exact log_does ha _ _ _
  · have hhandle : ∀ packet, Decodes datagram packet → _ := fun packet hdec =>
      handle_does now sender hdec hm
    rw [timed_packet sender hlen] at hhandle ⊢
    refine ensures_ite (fun _ => log_does ha _ _ _) fun _ => ?_
    intro m₁ hm₁
    obtain ⟨r, hvalid, hrest⟩ := exec_bind_eq_ok.mp hm₁
    cases r with
    | none => exact log_does ha _ _ _ m₁ hrest
    | some p =>
      obtain ⟨⟨packet, n⟩, hdec, hrest⟩ := exec_bind_eq_ok.mp hrest
      cases packet with
      | none => exact log_does ha _ _ _ m₁ hrest
      | some packet =>
        refine ensures_ite (fun _ => log_does ha _ _ _) (fun hdict => ?_) m₁ hrest
        exact hhandle packet ⟨hlen, ⟨p, hvalid⟩, ⟨n, hdec⟩, not_not.mp hdict⟩

/-- The packet of an event and its sender. -/
theorem Heard.unique {packet packet' : ObjBen} {id id' key key' : Id} {sa sa' : Ip} {m₁ m₂ : Main}
    (h : Heard m e packet id key sa m₁) (h' : Heard m e packet' id' key' sa' m₂) :
    packet' = packet ∧ id' = id ∧ sa' = sa := by
  cases h with
  | packet hdec hid hforeign hkey hput =>
    cases h' with
    | packet hdec' hid' hforeign' hkey' hput' =>
      obtain ⟨n, hn⟩ := hdec.decoded
      obtain ⟨n', hn'⟩ := hdec'.decoded
      have hr := Except.ok.inj (hn'.symm.trans hn)
      obtain rfl := Option.some.inj (congrArg Prod.fst hr)
      exact ⟨rfl, Option.some.inj (hid'.symm.trans hid), rfl⟩

/-- `p2p_decode` up to the `switch`. -/
theorem Heard.step {packet : ObjBen} {id key : Id} {sender : Ip} {m' : Main} {q : UInt8}
    (h : Heard m e packet id key sender m') (hq : benSearchDictStr packet 'q' = some (.str [q])) :
    m.step e = dispatch q packet id key sender m' := by
  cases h with
  | @packet now datagram _ _ _ _ _ hdec hid hforeign hkey hput =>
    obtain ⟨hlen, ⟨p, hvalid⟩, ⟨n, hpacket⟩, hdict⟩ := hdec
    rw [timed_packet sender hlen] at hput
    have hme : ¬ nodeMe (m.tick now) id := hforeign
    have hsize : ¬ (datagram.take UDP_BUF).length < 1 := by omega
    rw [Main.step, udpInput, if_neg hlen, p2pParse, if_neg hsize, hvalid, exec_ok_bind]
    dsimp only
    rw [p2pDecode, hpacket, exec_ok_bind]
    dsimp only
    rw [if_neg (not_not.mpr hdict), handle, hid]
    dsimp only
    rw [if_neg hme, hkey]
    dsimp only
    rw [hput, exec_ok_bind, hq]

/-- What `p2p_decode` does with an accepted PONG. -/
theorem AcceptsPong.step {id : Id} {sa : Ip} {m' : Main} (h : AcceptsPong m e id sa)
    (hs : m.step e = .ok m') : ¬ nodeMe m id ∧ ∃ m₁ cache, nbhdPut id sa (m.timed e) = .ok m₁ ∧
      nbhdPonged id sa { m₁ with cache := cache } = .ok m' := by
  obtain ⟨packet, key, m₁, cache, hheard, hq, hcache⟩ := h
  have hdispatch : dispatch (ch 'o') packet id key sa m₁ = p2pPong id key sa m₁ := rfl
  rw [hheard.step hq, hdispatch, p2pPong, ifExpected, hcache, exec_ok_bind] at hs
  cases hheard with
  | packet hdec hid hforeign hkey hput => exact ⟨hforeign, m₁, cache, hput, hs⟩

theorem IsNodes.mem {packet : ObjBen} {q : UInt8} (h : IsNodes packet q) :
    q ∈ ['F', 'A', 'L'].map ch := by
  rcases h with rfl | ⟨rfl | rfl, -⟩ <;> decide

/-- An accepted PONG names nobody but its sender. -/
theorem AcceptsPong.names {id id' : Id} {sa sa' : Ip} (h : AcceptsPong m e id sa)
    (hn : Names m e id' sa') : sa' = sa := by
  obtain ⟨packet, key, m₁, cache, hheard, hq, -⟩ := h
  cases hn with
  | sender h' => exact (hheard.unique h').2.2
  | @reply _ _ _ _ _ _ q _ h' _ hq' hnodes =>
    obtain rfl := (hheard.unique h').1
    obtain rfl : ch 'o' = q := by simpa using hq.symm.trans hq'
    exact absurd hnodes.mem (by decide)

end Packets

/-! ## Housekeeping -/

section Cron
variable {m : Main} {allowed : Act → Prop}

/-- A function of `p2p_cron` under its timer. -/
theorem every_does (ha : allowed .aside) (hm : InOrder m) {timer : P2p → ℤ}
    {act : Main → Exec Main} {delay : Main → ℤ × Main} {set : ℤ → P2p → P2p}
    (hact : ∀ m, InOrder m → Ensures (act m) (Does allowed m))
    (hdelay : ∀ m, Aside m (delay m).2) (hset : ∀ t p, (set t p).time_now = p.time_now) :
    Ensures (every timer act delay set m) (Does allowed m) := by
  refine ensures_ite (fun _ => ?_) fun _ => ensures_ok.mpr (.refl m)
  refine (hact m hm).bind fun m₁ h₁ => ensures_ok.mpr (h₁.trans (.single (.aside ?_) ha))
  exact (hdelay m₁).trans ⟨rfl, rfl, hset _ _, rfl, rfl, rfl⟩

theorem approx2_aside (m : Main) : Aside m (timeAdd2MinApprox m).2 := ⟨rfl, rfl, rfl, rfl, rfl, rfl⟩

theorem approx5_aside (m : Main) : Aside m (timeAdd5MinApprox m).2 := ⟨rfl, rfl, rfl, rfl, rfl, rfl⟩

theorem expireAll_does (e : Event) (m₀ : Main) (hm : InOrder m) :
    Ensures (expireAll m) (Does (Causes m₀ e) m) := by
  have ha : Causes m₀ e .aside := trivial
  have hann : Ensures (announceExpire m) (Does (Causes m₀ e) m) :=
    deed_does .announceExpire trivial fun _ h => .announceExpire h
  refine Does.bind hm hann fun m₁ hm₁ => ensures_then fun cache => ?_
  have hcache : Does (Causes m₀ e) m₁ { m₁ with cache := cache } :=
    .single (.aside ⟨rfl, rfl, rfl, rfl, rfl, rfl⟩) ha
  have hexpire : Ensures (nbhdExpire m₁.nbhd) fun nbhd =>
      Does (Causes m₀ e) m₁ { m₁ with cache := cache, nbhd := nbhd } := fun nbhd h =>
    hcache.trans (.single (.nbhdExpire h) (trivial : Causes m₀ e .nbhdExpire))
  refine hexpire.bind fun nbhd h₂ => ?_
  have hlkp : ∀ m, Ensures (lkpExpire m) (Does (Causes m₀ e) m) :=
    fun m => deed_does .lkpExpire trivial fun _ h => .lkpExpire h
  have hm₂ := (h₂.moved hm₁).inOrder hm₁
  refine (Does.bind hm₂ (hlkp _) fun m₃ _ => aside_does (dbExpire_aside m₃) ha).mono ?_
  exact fun _ h => h₂.trans h

theorem splitAll_does (e : Event) (m₀ m : Main) : Ensures (splitAll m) (Does (Causes m₀ e) m) := by
  have hsplit : Ensures (nbhdSplit m.conf.node_id 161 m.nbhd) fun nbhd =>
      Does (Causes m₀ e) m { m with nbhd := nbhd } := fun nbhd h =>
    .single (.nbhdSplit h) (trivial : Causes m₀ e .nbhdSplit)
  exact hsplit.bind fun nbhd h => ensures_ok.mpr h

theorem p2pBootstrap_aside (env : Env) (m : Main) : Ensures (p2pBootstrap env m) (Aside m) := by
  have hloop : ∀ info m, Ensures (bootstrapPings info m) (Aside m) := by
    intro info
    induction info with
    | nil => exact fun m => ensures_ok.mpr (.refl m)
    | cons p info ih => exact fun m => Aside.bind (sendPing_aside p m _) fun m' => ih m'
  rw [p2pBootstrap]
  cases env.bootstrap with
  | error rc => exact ensures_ok.mpr ((log_aside m _ _).trans (log_aside _ _ _))
  | ok info => exact (hloop info _).mono fun _ h => (log_aside m _ _).trans h

theorem p2pAnnounceMyself_does (e : Event) (m₀ m : Main) :
    Ensures (p2pAnnounceMyself m) (Does (Causes m₀ e) m) := by
  refine ensures_ite (fun _ => ?_) fun _ => ensures_ok.mpr (.refl m)
  refine (randUrandom_aside m).bind fun r hr => ?_
  have hput : Ensures (announcePut r.1 r.2.conf.host_id r.2) (Does (Causes m₀ e) r.2) :=
    deed_does (.announcePut r.1 r.2.conf.host_id) trivial fun _ h => .announcePut h
  exact hput.mono fun _ h => (Does.single (.aside hr) trivial).trans h

theorem udpMulticast_aside (env : Env) (m : Main) : Ensures (udpMulticast env m) (Aside m) :=
  ensures_ite (fun _ => ensures_error) fun _ => ensures_ite (fun _ => ensures_error) fun _ =>
    ensures_ite (fun _ => ensures_ok.mpr ⟨rfl, rfl, rfl, rfl, rfl, rfl⟩) fun _ =>
      ensures_ok.mpr (log_aside m _ _)

theorem p2pCron_does (hm : InOrder m) (now : ℤ) (env : Env) :
    Ensures (p2pCron now env m) (Does (Causes m (.cron now env)) (m.tick now)) := by
  have ha : Causes m (.cron now env) .aside := trivial
  have hm₀ := (timed_moved m (.cron now env)).inOrder hm
  have hmulti : ∀ m', InOrder m' → Ensures (if ¬ m'.udp.multicast then
      every P2p.time_multicast (udpMulticast env) timeAdd5MinApprox
        (fun t p => { p with time_multicast := t }) m'
      else pure m') (Does (Causes m (.cron now env)) m') := by
    intro m' hm'
    refine ensures_ite (fun _ => ?_) fun _ => ensures_ok.mpr (.refl m')
    exact every_does ha hm' (fun m _ => aside_does (udpMulticast_aside env m) ha) approx5_aside
      fun _ _ => rfl
  refine Does.bind hm₀ ?_ fun m₁ hm₁ => ensures_then fun empty =>
    ensures_ite (fun _ => ?_) fun _ => ?_
  · exact every_does ha hm₀ (fun _ hm => expireAll_does _ _ hm) approx2_aside fun _ _ => rfl
  · refine Does.bind hm₁ (every_does ha hm₁ (fun m _ => ?_) approx2_aside fun _ _ => rfl) hmulti
    exact aside_does (p2pBootstrap_aside env m) ha
  · refine Does.bind hm₁ (every_does ha hm₁ (fun m _ => splitAll_does _ _ m) approx2_aside
      fun _ _ => rfl) fun m₂ hm₂ => ?_
    refine Does.bind hm₂ (every_does ha hm₂ (fun _ hm => nbhdPing_does ha (fun _ => trivial) hm)
      approx2_aside fun _ _ => rfl) fun m₃ hm₃ => ?_
    refine Does.bind hm₃ (every_does ha hm₃ (fun m hm => nbhdFind_does ha trivial m.conf.node_id hm)
      approx2_aside fun _ _ => rfl) fun m₄ hm₄ => ?_
    refine Does.bind hm₄ (every_does ha hm₄ (fun _ hm => nbhdFindRandom_does ha trivial hm)
      approx2_aside fun _ _ => rfl) fun m₅ hm₅ => ?_
    exact Does.bind hm₅ (every_does ha hm₅ (fun m _ => p2pAnnounceMyself_does _ _ m) approx5_aside
      fun _ _ => rfl) hmulti

end Cron

/-! ## Runs -/

section Runs
variable {m : Main}

theorem lkpPut_does {m₀ : Main} (e : Event) (id : Id) (callback : Option ℕ) (ctx : ℕ) (m : Main) :
    Ensures (lkpPut id callback ctx m) (Does (Causes m₀ e) m) :=
  deed_does (.lkpPut id callback ctx) trivial fun _ h => .lkpPut h

/-- After the clock has been read, an event is a sequence of steps that it can cause. -/
theorem step_does (hm : InOrder m) (e : Event) :
    Ensures (m.step e) (Does (Causes m e) (m.timed e)) := by
  cases e with
  | packet now datagram sender => exact udpInput_does hm now datagram sender
  | cron now env => exact p2pCron_does hm now env
  | lookup callback ctx id =>
    refine ensures_then fun addr => ?_
    cases addr with
    | none => exact lkpPut_does _ id (some callback) ctx m
    | some addr =>
      exact ensures_ok.mpr (.single (.answer ⟨callback, ctx, id, some addr.addr⟩) trivial)
  | search id => exact lkpPut_does _ id none 0 m

theorem step_moved (hm : InOrder m) (e : Event) : Ensures (m.step e) (Moved m) := by
  have ht := timed_moved m e
  exact (step_does hm e).mono fun _ h => ht.trans (h.moved (ht.inOrder hm))

theorem run_moved (hm : InOrder m) (events : List Event) : Ensures (m.run events) (Moved m) := by
  have hstep : ∀ m₁ e, Moved m m₁ ∧ InOrder m₁ →
      Ensures (Main.step m₁ e) fun m₂ => Moved m m₂ ∧ InOrder m₂ := by
    rintro m₁ e ⟨h₁, hm₁⟩
    exact (step_moved hm₁ e).mono fun m₂ h₂ => ⟨h₁.trans h₂, h₂.inOrder hm₁⟩
  exact (ensures_foldlM hstep ⟨.refl m, hm⟩ events).mono fun _ h => h.1

/-- Reading the clock is a step of its own. -/
theorem timed_deeds (m : Main) (e : Event) : ∃ tr, Deeds m tr (m.timed e) := by
  rw [Main.timed]
  cases e.clock with
  | none => exact ⟨[], .nil m⟩
  | some now => exact ⟨_, .cons (.tick now) (.nil _)⟩

/-- A run is a sequence of steps, so what holds of all sequences holds of all runs. -/
theorem run_deeds (hm : InOrder m) (events : List Event) : Ensures (m.run events) fun m' =>
    ∃ tr, Deeds m tr m' := by
  have hstep : ∀ m₁ e, InOrder m₁ ∧ (∃ tr, Deeds m tr m₁) →
      Ensures (Main.step m₁ e) fun m₂ => InOrder m₂ ∧ ∃ tr, Deeds m tr m₂ := by
    rintro m₁ e ⟨hm₁, tr, hpast⟩ m₂ h₂
    obtain ⟨tr₁, hclock⟩ := timed_deeds m₁ e
    obtain ⟨tr₂, hdeeds, -⟩ := step_does hm₁ e m₂ h₂
    have hlater := hclock.append hdeeds
    exact ⟨(hlater.moved hm₁).inOrder hm₁, _, hpast.append hlater⟩
  exact (ensures_foldlM hstep ⟨hm, [], .nil m⟩ events).mono fun _ h => h.2

theorem nbhdPing_moved (hm : InOrder m) : Ensures (nbhdPing m) (Moved m) := by
  have hdoes : Ensures (nbhdPing m) (Does (fun _ => True) m) :=
    nbhdPing_does trivial (fun _ => trivial) hm
  exact hdoes.mono fun _ h => h.moved hm

theorem nbhdFind_moved (hm : InOrder m) (find_id : Id) :
    Ensures (nbhdFind find_id m) (Moved m) := by
  have hdoes : Ensures (nbhdFind find_id m) (Does (fun _ => True) m) :=
    nbhdFind_does trivial trivial find_id hm
  exact hdoes.mono fun _ h => h.moved hm

theorem mainInit_ensures (conf : Conf) (udp : Udp) (time_now : ℤ) (urandom : ℕ → Option Id)
    (random : ℕ → ℕ) : Ensures (mainInit conf udp time_now urandom random) fun m =>
      m.conf = conf ∧ InOrder m ∧ ∃ cs, Clean m.nbhd cs := by
  obtain ⟨t, hinit, hord, hclean⟩ := bcktInit_ordered conf.node_id
  rw [mainInit, hinit, exec_ok_bind]
  exact ensures_ok.mpr ⟨rfl, hord, hclean⟩

theorem mainInit_empty (conf : Conf) (udp : Udp) (time_now : ℤ) (urandom : ℕ → Option Id)
    (random : ℕ → ℕ) : Ensures (mainInit conf udp time_now urandom random) fun m =>
      allNodes m.nbhd = [] := by
  obtain ⟨t, hinit, hr⟩ := bcktInit_routed
  rw [mainInit, hinit, exec_ok_bind]
  refine ensures_ok.mpr ?_
  simp [allNodes, hr.parts]

theorem mainInit_clock (conf : Conf) (udp : Udp) (time_now : ℤ) (urandom : ℕ → Option Id)
    (random : ℕ → ℕ) : Ensures (mainInit conf udp time_now urandom random) fun m =>
      m.p2p.time_now = time_now :=
  ensures_then fun _ => ensures_ok.mpr rfl

end Runs

/-- The node after `main_init` and these events. -/
def nodeRun (conf : Conf) (udp : Udp) (time_now : ℤ) (urandom : ℕ → Option Id) (random : ℕ → ℕ)
    (events : List Event) : Exec Main := do
  let m ← mainInit conf udp time_now urandom random
  m.run events

theorem nodeRun_inOrder (conf : Conf) (udp : Udp) (time_now : ℤ) (urandom : ℕ → Option Id)
    (random : ℕ → ℕ) (events : List Event) :
    Ensures (nodeRun conf udp time_now urandom random events) InOrder :=
  (mainInit_ensures conf udp time_now urandom random).bind fun _ h₀ =>
    (run_moved h₀.2.1 events).mono fun _ h => h.inOrder h₀.2.1

end Masala.Daemon
