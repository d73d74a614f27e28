import Masala.Daemon.Workings

/-!
# Events as sequences of effects

What `udp_input` does with a packet, what a pass of `p2p_cron` does and what a
lookup starts, each as a trace of effects. Every fact about all runs of a node,
or of a network of nodes, is a fact about what each effect keeps.
-/
namespace Masala.Daemon
open Library Container Bencode Routing Session

/-! ## Packets -/

section Packets
variable {m₀ m : Main} {e : Event} {packet : ObjBen} {id key : Id} {sender : Ip} {m₁ : Main}

theorem log_works (format : String) (args : List LogArg) :
    Ensures (.ok (m.logInfo format args)) (Works m₀ e m) :=
  ensures_ok.mpr (idle_works (log_idle m format args))

theorem p2pFind_works (h : Heard m₀ e packet id key sender m₁) (hm : InOrder m)
    (hq : benSearchDictStr packet 'q' = some (.str [ch 'f'])) :
    Ensures (p2pFind packet key sender m) (Works m₀ e m) := by
  rw [p2pFind]
  split
  · exact log_works _ _
  · exact nbhdSend_works h hm _ key (.inl rfl) fun nodes hnodes => ⟨hq, hnodes⟩

theorem p2pAnnounce_works (h : Heard m₀ e packet id key sender m₁) (hm : InOrder m)
    (hq : benSearchDictStr packet 'q' = some (.str [ch 'a'])) :
    Ensures (p2pAnnounce packet key sender m) (Works m₀ e m) := by
  rw [p2pAnnounce]
  split
  · exact log_works _ _
  · rename_i host_id hf
    split
    · exact log_works _ _
    · rename_i lkp_id hl
      have hput : Ensures (dbPut host_id sender m) (Works m₀ e m) := fun m' hput =>
        .single (.host h hq hf hl hput (dbPut_filed host_id sender m m' hput).idle)
      exact Works.bind hm hput fun m' hm' =>
        nbhdSend_works h hm' _ lkp_id (.inr rfl) fun nodes hnodes => ⟨hq, hl, hnodes⟩

theorem p2pLookup_works (h : Heard m₀ e packet id key sender m₁) (hm : InOrder m)
    (hq : benSearchDictStr packet 'q' = some (.str [ch 'l'])) :
    Ensures (p2pLookup packet key sender m) (Works m₀ e m) := by
  rw [p2pLookup]
  split
  · exact log_works _ _
  · rename_i find_id hf
    split
    · exact log_works _ _
    · rename_i lkp_id hl
      refine (dbSend_works h hq hf hl).bind fun r hw => ?_
      refine ensures_ite (fun _ => ensures_ok.mpr hw) fun _ => ?_
      have hsend : Ensures (nbhdSend sender find_id (some lkp_id) key .L r.1) (Works m₀ e r.1) :=
        nbhdSend_works h (hw.inOrder hm) _ lkp_id (.inr rfl) fun nodes hnodes => ⟨hq, hl, hnodes⟩
      exact hsend.mono fun _ hw' => hw.trans hw'

/-- The session of a reply is looked up before anything else is done. -/
def Validated (m₀ : Main) (e : Event) (key : Id) (m m' : Main) : Prop :=
  ∃ cache valid, cacheValidate m.cache key = .ok (cache, valid) ∧
    Works m₀ e { m with cache := cache } m'

theorem Validated.works {m' : Main} (hv : Validated m₀ e key m m')
    (h : Heard m₀ e packet id key sender m₁) : Works m₀ e m m' := by
  obtain ⟨cache, valid, hvalid, hw⟩ := hv
  exact (Steps.single (.validate h hvalid)).trans hw

/-- A reply is handled only if its session is known. -/
theorem ifExpected_validated (hm : InOrder m) {unexpected : String} {handle : Main → Exec Main}
    (hh : (∃ cache, cacheValidate m.cache key = .ok (cache, true)) →
      ∀ m, InOrder m → Ensures (handle m) (Works m₀ e m)) :
    Ensures (ifExpected unexpected key handle m) (Validated m₀ e key m) := by
  rw [ifExpected]
  cases hvalid : cacheValidate m.cache key with
  | error err => exact ensures_error
  | ok r =>
    obtain ⟨cache, valid⟩ := r
    have hmoved : Moved m { m with cache := cache } := ⟨rfl, .refl⟩
    rw [exec_ok_bind]
    cases valid with
    | false => exact (log_works _ _).mono fun _ hw => ⟨cache, false, hvalid, hw⟩
    | true =>
      exact (hh ⟨cache, hvalid⟩ _ (hmoved.inOrder hm)).mono fun _ hw => ⟨cache, true, hvalid, hw⟩

theorem storeNodes_works {visit : Id → Ip → Main → Exec Main}
    (hv : ∀ id sa m, InOrder m → Ensures (visit id sa m) (Works m₀ e m)) (nodes : List ObjBen)
    (hn : ∀ x ∈ readContacts nodes, Names m₀ e x.1 x.2) (hm : InOrder m) :
    Ensures (storeNodes visit nodes m) (Works m₀ e m) := by
  induction nodes generalizing m with
  | nil => exact ensures_ok.mpr (.refl m)
  | cons node nodes ih =>
    rw [readContacts] at hn
    rw [storeNodes]
    by_cases hd : ¬ benIsDict (some node)
    · rw [if_pos hd]
      exact log_works _ _
    · rw [if_neg hd] at hn ⊢
      cases hi : p2pIsHash (benSearchDictStr node 'i') with
      | none => exact log_works _ _
      | some id =>
        cases hip : p2pIsIp (benSearchDictStr node 'a') with
        | none => exact log_works _ _
        | some ip =>
          cases hpo : p2pIsPort (benSearchDictStr node 'p') with
          | none => exact log_works _ _
          | some po =>
            simp only [hi, hip, hpo, List.mem_cons, forall_eq_or_imp] at hn
            refine Works.bind hm (hv id _ m hm) fun m₁ hm₁ => ?_
            exact Works.bind hm₁ (nbhdPut_works hm₁ hn.1) fun m₂ hm₂ => ih hn.2 hm₂

/-- The contacts of an accepted NODES reply are named by it. -/
theorem Heard.names {q : UInt8} (h : Heard m₀ e packet id key sender m)
    (hq : benSearchDictStr packet 'q' = some (.str [q])) (hnodes : IsNodes packet q)
    (hc : ∃ cache, cacheValidate m.cache key = .ok (cache, true)) {nodes : List ObjBen}
    (hn : benSearchDictStr packet 'n' = some (.list nodes)) :
    ∀ x ∈ readContacts nodes, Names m₀ e x.1 x.2 := by
  obtain ⟨cache, hcache⟩ := hc
  exact fun x hx => .reply h hcache hq hnodes hn hx

theorem p2pNodeFind_validated (h : Heard m₀ e packet id key sender m) (hm : InOrder m)
    (hq : benSearchDictStr packet 'q' = some (.str [ch 'F'])) :
    Ensures (p2pNodeFind packet key m) (Validated m₀ e key m) := by
  refine ifExpected_validated hm fun hc m hm => ?_
  split
  · rename_i nodes hn
    exact storeNodes_works (fun _ _ m _ => ensures_ok.mpr (.refl m)) nodes
      (h.names hq (.inl rfl) hc hn) hm
  · exact log_works _ _

theorem p2pNodeAnnounce_validated (h : Heard m₀ e packet id key sender m) (hm : InOrder m)
    (hq : benSearchDictStr packet 'q' = some (.str [ch 'A'])) :
    Ensures (p2pNodeAnnounce packet id key sender m) (Validated m₀ e key m) := by
  refine ifExpected_validated hm fun hc m hm => ?_
  split
  · rename_i nodes hn
    split
    · exact log_works _ _
    · rename_i lkp_id hl
      have hvisit : ∀ id sa m, InOrder m →
          Ensures (announceMyself lkp_id id sa m) (Works m₀ e m) := fun id sa m _ =>
        ensures_ite (fun _ => announceResolve_works lkp_id id sa) fun _ => ensures_ok.mpr (.refl m)
      have hnodes : IsNodes packet (ch 'A') := .inr ⟨.inl rfl, by simp [hl]⟩
      exact Works.bind hm (hvisit id sender m hm) fun m₁ hm₁ =>
        storeNodes_works hvisit nodes (h.names hq hnodes hc hn) hm₁
  · exact log_works _ _

theorem p2pNodeLookup_validated (h : Heard m₀ e packet id key sender m) (hm : InOrder m)
    (hq : benSearchDictStr packet 'q' = some (.str [ch 'L'])) :
    Ensures (p2pNodeLookup packet id key sender m) (Validated m₀ e key m) := by
  refine ifExpected_validated hm fun hc m hm => ?_
  split
  · rename_i nodes hn
    split
    · exact log_works _ _
    · rename_i lkp_id hl
      have hvisit : ∀ id sa m, InOrder m → Ensures (lkpResolve lkp_id id sa m) (Works m₀ e m) :=
        fun id sa m _ => lkpResolve_works lkp_id id sa
      have hnodes : IsNodes packet (ch 'L') := .inr ⟨.inr rfl, by simp [hl]⟩
      exact Works.bind hm (hvisit id sender m hm) fun m₁ hm₁ =>
        storeNodes_works hvisit nodes (h.names hq hnodes hc hn) hm₁
  · exact log_works _ _

theorem p2pValue_validated (h : Heard m₀ e packet id key sender m) (hm : InOrder m)
    (hq : benSearchDictStr packet 'q' = some (.str [ch 'V'])) :
    Ensures (p2pValue packet id key m) (Validated m₀ e key m) := by
  refine ifExpected_validated hm fun hc m' _ => ?_
  split
  · exact log_works _ _
  · rename_i address ha
    split
    · exact log_works _ _
    · rename_i lkp_id hl
      obtain ⟨cache, hcache⟩ := hc
      have haccepts : AcceptsReply m₀ e packet id key := ⟨sender, m, cache, h, hcache⟩
      exact fun m'' hsuccess => .single (.success haccepts hq hl ha hsuccess
        (lkpSuccess_idle lkp_id id address m' m'' hsuccess))

/-- The types of the replies. -/
def IsReply (q : UInt8) : Prop := q ∈ ['o', 'F', 'A', 'L', 'V'].map ch

instance (q : UInt8) : Decidable (IsReply q) := inferInstanceAs (Decidable (q ∈ _))

/-- A reply that the node accepts in this session. -/
def AcceptsAnswer (m : Main) (e : Event) (key : Id) : Prop :=
  ∃ packet id sender m₁ cache q, Heard m e packet id key sender m₁ ∧
    benSearchDictStr packet 'q' = some (.str [q]) ∧ IsReply q ∧
    cacheValidate m₁.cache key = .ok (cache, true)

theorem dispatch_validated {q : UInt8} (h : Heard m₀ e packet id key sender m) (hm : InOrder m)
    (hq : benSearchDictStr packet 'q' = some (.str [q])) (hreply : IsReply q) :
    Ensures (dispatch q packet id key sender m) (Validated m₀ e key m) := by
  simp only [IsReply, List.map_cons, List.map_nil, List.mem_cons, List.not_mem_nil,
    or_false] at hreply
  rcases hreply with rfl | rfl | rfl | rfl | rfl
  · exact ifExpected_validated hm fun _ m hm => nbhdPonged_works hm (.sender h)
  · exact p2pNodeFind_validated h hm hq
  · exact p2pNodeAnnounce_validated h hm hq
  · exact p2pNodeLookup_validated h hm hq
  · exact p2pValue_validated h hm hq

/-- After a packet has been heard the `switch` only has the effects of its type. -/
theorem dispatch_works {q : UInt8} (h : Heard m₀ e packet id key sender m) (hm : InOrder m)
    (hq : benSearchDictStr packet 'q' = some (.str [q])) :
    Ensures (dispatch q packet id key sender m) (Works m₀ e m) := by
  by_cases hreply : IsReply q
  · exact (dispatch_validated h hm hq hreply).mono fun _ hv => hv.works h
  · simp only [IsReply, List.map_cons, List.map_nil, List.mem_cons, List.not_mem_nil, or_false,
      not_or] at hreply
    obtain ⟨ho, hF, hA, hL, hV⟩ := hreply
    refine ensures_ite (fun hping => ?_) fun _ => ensures_ite (fun hfind => ?_) fun _ =>
      ensures_ite (fun hannounce => ?_) fun _ => ensures_ite (fun hlookup => ?_) fun _ => ?_
    · exact sendPong_works h (hping ▸ hq)
    · exact p2pFind_works h hm (hfind ▸ hq)
    · exact p2pAnnounce_works h hm (hannounce ▸ hq)
    · exact p2pLookup_works h hm (hlookup ▸ hq)
    · rw [if_neg ho, if_neg hF, if_neg hA, if_neg hL, if_neg hV]
      exact log_works _ _

theorem timed_works (m : Main) (e : Event) : Works m e m (m.timed e) := by
  rw [Main.timed]
  cases hclock : e.clock with
  | none => exact .refl m
  | some now => exact .single (.tick hclock)

theorem handle_works (now : ℤ) (sender : Ip) {datagram : Bytes} {packet : ObjBen}
    (hdec : Decodes datagram packet) (hm : InOrder m) :
    Ensures (handle packet sender (m.timed (.packet now datagram sender)))
      (Works m (.packet now datagram sender) (m.timed (.packet now datagram sender))) := by
  have hmt := (timed_moved m (.packet now datagram sender)).inOrder hm
  rw [handle]
  split
  · exact log_works _ _
  · rename_i id hid
    refine ensures_ite (fun _ => ensures_then fun empty => ?_) fun hme => ?_
    · cases empty with
      | true => exact ensures_ok.mpr (.refl _)
      | false => exact log_works _ _
    · have hforeign : ¬ nodeMe m id := by
        rwa [nodeMe, ← (timed_moved m (.packet now datagram sender)).conf]
      split
      · exact log_works _ _
      · rename_i key hkey
        intro m' hm'
        obtain ⟨m₁, hput, hrest⟩ := exec_bind_eq_ok.mp hm'
        have hheard : Heard m (.packet now datagram sender) packet id key sender m₁ :=
          .packet hdec hid hforeign hkey hput
        have hw := nbhdPut_works hmt (.sender hheard) m₁ hput
        refine hw.trans (?_ : Works m _ m₁ m')
        split at hrest
        · exact dispatch_works hheard (hw.inOrder hmt) ‹_› m' hrest
        · exact log_works _ _ m' hrest

theorem udpInput_works (hm : InOrder m) (now : ℤ) (datagram : Bytes) (sender : Ip) :
    Ensures (udpInput now datagram sender m) (Works m (.packet now datagram sender)
      (m.timed (.packet now datagram sender))) := by
  refine ensures_ite (fun hlen => ?_) fun hlen => ?_
  · rw [Main.timed, Event.clock, if_pos hlen]
    exact log_works _ _
  · have hhandle : ∀ packet, Decodes datagram packet → _ := fun packet hdec =>
      handle_works now sender hdec hm
    rw [timed_packet sender hlen] at hhandle ⊢
    refine ensures_ite (fun _ => log_works _ _) fun _ => ?_
    intro m₁ hm₁
    obtain ⟨r, hvalid, hrest⟩ := exec_bind_eq_ok.mp hm₁
    cases r with
    | none => exact log_works _ _ m₁ hrest
    | some p =>
      obtain ⟨⟨packet, n⟩, hdec, hrest⟩ := exec_bind_eq_ok.mp hrest
      cases packet with
      | none => exact log_works _ _ m₁ hrest
      | some packet =>
        refine ensures_ite (fun _ => log_works _ _) (fun hdict => ?_) m₁ hrest
        exact hhandle packet ⟨hlen, ⟨p, hvalid⟩, ⟨n, hdec⟩, not_not.mp hdict⟩

end Packets

/-! ## Housekeeping -/

section Cron
variable {m₀ m m' : Main} {e : Event}

/-- A function of `p2p_cron` under a timer that has passed, and the new timer. -/
theorem every_due {timer : P2p → ℤ} {act : Main → Exec Main} {delay : Main → ℤ × Main}
    {set : ℤ → P2p → P2p} (hdelay : ∀ m, Idle m (delay m).2)
    (hset : ∀ t p, (set t p).time_now = p.time_now) (hdue : m.p2p.time_now > timer m.p2p)
    (h : every timer act delay set m = .ok m') : ∃ m₁, act m = .ok m₁ ∧ Works m₀ e m₁ m' := by
  rw [every, if_pos hdue] at h
  obtain ⟨m₁, hact, h⟩ := exec_bind_eq_ok.mp h
  obtain rfl := Except.ok.inj h
  refine ⟨m₁, hact, idle_works ((hdelay m₁).trans ?_)⟩
  exact ⟨rfl, rfl, hset _ _, rfl, rfl, rfl, rfl, rfl, rfl, rfl, rfl, rfl⟩

theorem every_works (hm : InOrder m) {timer : P2p → ℤ} {act : Main → Exec Main}
    {delay : Main → ℤ × Main} {set : ℤ → P2p → P2p}
    (hact : ∀ m, InOrder m → Ensures (act m) (Works m₀ e m))
    (hdelay : ∀ m, Idle m (delay m).2) (hset : ∀ t p, (set t p).time_now = p.time_now) :
    Ensures (every timer act delay set m) (Works m₀ e m) := by
  intro m' h
  by_cases hdue : m.p2p.time_now > timer m.p2p
  · obtain ⟨m₁, hm₁, hw⟩ := every_due hdelay hset hdue h
    exact (hact m hm m₁ hm₁).trans hw
  · rw [every, if_neg hdue] at h
    exact Except.ok.inj h ▸ .refl m

theorem approx2_idle (m : Main) : Idle m (timeAdd2MinApprox m).2 :=
  ⟨rfl, rfl, rfl, rfl, rfl, rfl, rfl, rfl, rfl, rfl, rfl, rfl⟩

theorem approx5_idle (m : Main) : Idle m (timeAdd5MinApprox m).2 :=
  ⟨rfl, rfl, rfl, rfl, rfl, rfl, rfl, rfl, rfl, rfl, rfl, rfl⟩

/-- The lookups expire in the middle. -/
theorem expireAll_split (hm : InOrder m) (h : expireAll m = .ok m') : ∃ m₁ m₂,
    Works m₀ e m m₁ ∧ lkpExpire m₁ = .ok m₂ ∧ Works m₀ e m₁ m₂ ∧ Works m₀ e m₂ m' := by
  obtain ⟨m₁, hannounce, h⟩ := exec_bind_eq_ok.mp h
  obtain ⟨cache, hcache, h⟩ := exec_bind_eq_ok.mp h
  obtain ⟨nbhd, hnbhd, h⟩ := exec_bind_eq_ok.mp h
  obtain ⟨m₂, hlkp, hdb⟩ := exec_bind_eq_ok.mp h
  have hw : Works m₀ e m m₁ := announceExpire_works m₁ hannounce
  have hm₁ := hw.inOrder hm
  have hforget : Works m₀ e m₁ { m₁ with cache := cache } := .single (.forget hcache)
  have hexpire : Works m₀ e { m₁ with cache := cache } { m₁ with cache := cache, nbhd := nbhd } :=
    nodes_works (hforget.inOrder hm₁) (.nbhdExpire hnbhd) (by simp) (by simp)
  have hlate : Works m₀ e { m₁ with cache := cache, nbhd := nbhd } m₂ :=
    .single (.timeouts hlkp (lkpExpire_idle _ m₂ hlkp))
  exact ⟨_, m₂, hw.trans (hforget.trans hexpire), hlkp, hlate, dbExpire_works m' hdb⟩

theorem expireAll_works (hm : InOrder m) : Ensures (expireAll m) (Works m₀ e m) := by
  intro m' h
  obtain ⟨m₁, m₂, hw, -, hlate, hdb⟩ := expireAll_split hm h
  exact hw.trans (hlate.trans hdb)

theorem splitAll_works (hm : InOrder m) : Ensures (splitAll m) (Works m₀ e m) := by
  intro m' h
  obtain ⟨nbhd, hsplit, h⟩ := exec_bind_eq_ok.mp h
  obtain rfl := Except.ok.inj h
  exact nodes_works hm (.nbhdSplit hsplit) (by simp) (by simp)

theorem p2pBootstrap_works (env : Env) (hm : InOrder m) :
    Ensures (p2pBootstrap env m) (Works m₀ e m) := by
  have hloop : ∀ info m, InOrder m → Ensures (bootstrapPings info m) (Works m₀ e m) := by
    intro info
    induction info with
    | nil => exact fun m _ => ensures_ok.mpr (.refl m)
    | cons p info ih =>
      intro m hm
      refine Works.bind hm (sendPing_works _ ?_) ih
      split
      · exact .inr ‹_›
      · exact .inl rfl
  rw [p2pBootstrap]
  cases env.bootstrap with
  | error rc => exact ensures_ok.mpr (idle_works ((log_idle m _ _).trans (log_idle _ _ _)))
  | ok info =>
    have hlog : Works m₀ e m (m.logInfo "Connecting to a bootstrap server" []) :=
      idle_works (log_idle m _ _)
    exact (hloop info _ (hlog.inOrder hm)).mono fun _ hw => hlog.trans hw

theorem p2pAnnounceMyself_works : Ensures (p2pAnnounceMyself m) (Works m₀ e m) := by
  refine ensures_ite (fun hname => ?_) fun _ => ensures_ok.mpr (.refl m)
  refine ((randUrandom_works m₀ e m).and (randUrandom_aside m)).bind fun r hr => ?_
  have hname' : r.2.conf.hostname ≠ none := by rwa [hr.2.conf]
  exact (announcePut_works r.1 hname').mono fun _ hw => hr.1.trans hw

theorem udpMulticast_works (env : Env) : Ensures (udpMulticast env m) (Works m₀ e m) := by
  refine ensures_ite (fun _ => ensures_error) fun _ => ensures_ite (fun _ => ensures_error) fun _ =>
    ensures_ite (fun _ => ensures_ok.mpr (idle_works ?_)) fun _ => log_works _ _
  exact ⟨rfl, rfl, rfl, rfl, rfl, rfl, rfl, rfl, rfl, rfl, rfl, rfl⟩

/-- First the records expire, then come the other timers. -/
theorem p2pCron_split (hm : InOrder m) {now : ℤ} {env : Env} (h : p2pCron now env m = .ok m') :
    ∃ m₁, every P2p.time_expire expireAll timeAdd2MinApprox (fun t p => { p with time_expire := t })
        (m.tick now) = .ok m₁ ∧ Works m (.cron now env) (m.tick now) m₁ ∧
      Works m (.cron now env) m₁ m' := by
  have hm₀ : InOrder (m.tick now) := (timed_moved m (.cron now env)).inOrder hm
  obtain ⟨m₁, hexpire, hrest⟩ := exec_bind_eq_ok.mp h
  have hw : Works m (.cron now env) (m.tick now) m₁ := by
    refine every_works hm₀ (fun _ hm => expireAll_works hm) approx2_idle ?_ m₁ hexpire
    exact fun _ _ => rfl
  have hm₁ := hw.inOrder hm₀
  refine ⟨m₁, hexpire, hw, ?_⟩
  have hmulti : ∀ m', InOrder m' → Ensures (if ¬ m'.udp.multicast then
      every P2p.time_multicast (udpMulticast env) timeAdd5MinApprox
        (fun t p => { p with time_multicast := t }) m'
      else pure m') (Works m (.cron now env) m') := by
    intro m' hm'
    refine ensures_ite (fun _ => ?_) fun _ => ensures_ok.mpr (.refl m')
    exact every_works hm' (fun m _ => udpMulticast_works env) approx5_idle fun _ _ => rfl
  refine (show Ensures _ (Works m (.cron now env) m₁) from ensures_then fun empty =>
    ensures_ite (fun _ => ?_) fun _ => ?_) m' hrest
  · refine Works.bind hm₁ (every_works hm₁ (fun _ hm => p2pBootstrap_works env hm) approx2_idle
      fun _ _ => rfl) hmulti
  · refine Works.bind hm₁ (every_works hm₁ (fun _ hm => splitAll_works hm) approx2_idle
      fun _ _ => rfl) fun m₂ hm₂ => ?_
    refine Works.bind hm₂ (every_works hm₂ (fun _ hm => nbhdPing_works _ _ hm) approx2_idle
      fun _ _ => rfl) fun m₃ hm₃ => ?_
    refine Works.bind hm₃ (every_works hm₃ (fun m hm => nbhdFind_works _ _ m.conf.node_id hm)
      approx2_idle fun _ _ => rfl) fun m₄ hm₄ => ?_
    refine Works.bind hm₄ (every_works hm₄ (fun _ hm => nbhdFindRandom_works _ _ hm) approx2_idle
      fun _ _ => rfl) fun m₅ hm₅ => ?_
    exact Works.bind hm₅ (every_works hm₅ (fun _ _ => p2pAnnounceMyself_works) approx5_idle
      fun _ _ => rfl) hmulti

theorem p2pCron_works (hm : InOrder m) (now : ℤ) (env : Env) :
    Ensures (p2pCron now env m) (Works m (.cron now env) (m.tick now)) := by
  intro m' h
  obtain ⟨m₁, -, hexpire, hrest⟩ := p2pCron_split hm h
  exact hexpire.trans hrest

end Cron

/-! ## Events -/

/-- An event is a sequence of the effects that it allows. -/
theorem step_works {m : Main} (hm : InOrder m) (e : Event) : Ensures (m.step e) (Works m e m) := by
  cases e with
  | packet now datagram sender =>
    exact (udpInput_works hm now datagram sender).mono fun _ hw => (timed_works m _).trans hw
  | cron now env => exact (p2pCron_works hm now env).mono fun _ hw => (timed_works m _).trans hw
  | lookup callback ctx id =>
    intro m' h
    obtain ⟨r, haddress, h⟩ := exec_bind_eq_ok.mp h
    cases r with
    | some addr =>
      obtain rfl := Except.ok.inj h
      exact .single (.answer rfl haddress)
    | none => exact lkpPut_works rfl m' h
  | search id => exact lkpPut_works rfl

end Masala.Daemon
