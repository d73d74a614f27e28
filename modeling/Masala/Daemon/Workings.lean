import Masala.Daemon.Effects
import Masala.Daemon.ReplySize
import Masala.Daemon.Lookups

/-!
# The functions of a node as sequences of effects

Each function of the daemon, from `send_p2p.c` up to `udp_input` and
`p2p_cron`, only has the effects that its event allows.
-/
namespace Masala.Daemon
open Library Container Bencode Routing Session

/-! ## Messages -/

section Send
variable {m₀ m : Main} {e : Event} {sa : Ip}

/-- A request: a new session, a datagram and a line in the log. -/
theorem request_works (body : Body) (hbody : m.Wants body) (type : ℤ)
    (htype : type = SEND_UNICAST ∨ body = .ping ∧ sa.addr.bytes.head? = some 0xff)
    (format : String) (args : List LogArg) : Ensures (do
      let (session_id, m) ← newSession type m
      return (m.emit sa (Message.datagram ⟨m.conf.node_id, session_id, body⟩)).logInfo format args)
      (Works m₀ e m) := by
  rw [newSession, randUrandom]
  cases hread : m.urandom m.reads with
  | none => exact ensures_error
  | some session_id =>
    rw [exec_ok_bind]
    dsimp only
    cases hcache : cachePut m.p2p.time_now m.cache session_id type with
    | error err => exact ensures_error
    | ok cache =>
      refine ensures_ok.mpr ?_
      dsimp only
      rw [Main.emit_eq]
      exact (Steps.single (.request hbody htype hread hcache)).trans (idle_works (log_idle _ _ _))

theorem sendPing_works (type : ℤ)
    (htype : type = SEND_UNICAST ∨ sa.addr.bytes.head? = some 0xff) :
    Ensures (sendPing sa type m) (Works m₀ e m) := by
  rw [sendPing_eq]
  exact request_works .ping trivial type (htype.imp_right fun h => ⟨rfl, h⟩) _ _

theorem sendFind_works (node_id : Id) : Ensures (sendFind sa node_id m) (Works m₀ e m) := by
  rw [sendFind_eq]
  exact request_works (.find node_id) trivial SEND_UNICAST (.inl rfl) _ _

theorem sendAnnounce_works (lkp_id : Id) (hname : m.conf.hostname ≠ none) :
    Ensures (sendAnnounce sa lkp_id m.conf.host_id m) (Works m₀ e m) := by
  rw [sendAnnounce_eq]
  exact request_works (.announce lkp_id m.conf.host_id) ⟨rfl, hname⟩ SEND_UNICAST (.inl rfl) _ _

theorem sendLookup_works {lkp_id find_id : Id} (h : m.Pending lkp_id find_id) :
    Ensures (sendLookup sa find_id lkp_id m) (Works m₀ e m) := by
  rw [sendLookup_eq]
  exact request_works (.lookup lkp_id find_id) h SEND_UNICAST (.inl rfl) _ _

variable {packet : ObjBen} {id key : Id} {sender : Ip} {m₁ : Main}

theorem reply_works (h : Heard m₀ e packet id key sender m₁) (body : Body)
    (hbody : m.Answers packet body) (format : String) (args : List LogArg) :
    Works m₀ e m ((m.emit sender (Message.datagram ⟨m.conf.node_id, key, body⟩)).logInfo
      format args) := by
  rw [Main.emit_eq]
  exact (Steps.single (.reply h hbody)).trans (idle_works (log_idle _ _ _))

theorem sendPong_works (h : Heard m₀ e packet id key sender m₁)
    (hq : benSearchDictStr packet 'q' = some (.str [ch 'p'])) :
    Ensures (sendPong sender key m) (Works m₀ e m) := by
  rw [sendPong_eq]
  exact ensures_ok.mpr (reply_works h .pong hq _ _)

/-- The reply of `nbhd_send` names nodes of the table. -/
theorem nbhdSend_works (h : Heard m₀ e packet id key sender m₁) (hm : InOrder m) (target : Id)
    {reply_type : ReplyType} {lkp : Option Id} (lkp_id : Id)
    (hlkp : reply_type = .F ∨ lkp = some lkp_id)
    (hbody : ∀ nodes, m.Lists nodes → m.Answers packet (nodesBody lkp_id nodes reply_type)) :
    Ensures (nbhdSend sender target lkp key reply_type m) (Works m₀ e m) := by
  rw [nbhdSend]
  cases hany : bcktFindAnyMatch m.nbhd target with
  | error err => exact ensures_error
  | ok r =>
    rw [exec_ok_bind]
    cases r with
    | none => exact ensures_ok.mpr (.refl m)
    | some i =>
      dsimp only
      cases hitem : m.nbhd.item (some i) with
      | error err => exact ensures_error
      | ok b =>
        obtain ⟨c, hc, hholds⟩ := hm.chosen_cell ⟨i, b, hany, hitem, rfl⟩
        rw [exec_ok_bind, sendNode_eq sender m hholds key lkp_id reply_type hlkp]
        refine ensures_ok.mpr (reply_works h _ (hbody _ ⟨c.nodes.map Prod.snd, ?_, rfl⟩) _ _)
        exact fun n hn => mem_allNodes.mpr ⟨c, hc, hn⟩

end Send

/-! ## The neighbourhood -/

section Neighborhood
variable {m₀ m : Main} {e : Event}

/-- A step of the call machine on the table whose contact is named by the event. -/
theorem contact_works (hm : InOrder m) {act : Act} {m' : Main} (hd : Deed m act m') {id : Id}
    {sa : Ip} (hact : act = .nbhdPut id sa ∨ act = .nbhdPonged id sa) (h : Names m₀ e id sa) :
    Works m₀ e m { m with nbhd := m'.nbhd } := by
  refine .single (.contact h (hd.moved hm).nbhd fun id' sa' hknown => ?_)
  rcases hd.known hm hknown with hold | hnew | hnew
  · exact .inl hold
  · rcases hact with rfl | rfl
    · obtain ⟨rfl, rfl⟩ := Act.nbhdPut.inj hnew
      exact .inr ⟨rfl, rfl⟩
    · cases hnew
  · rcases hact with rfl | rfl
    · cases hnew
    · obtain ⟨rfl, rfl⟩ := Act.nbhdPonged.inj hnew
      exact .inr ⟨rfl, rfl⟩

/-- Any other step on the table adds no contact. -/
theorem nodes_works (hm : InOrder m) {act : Act} {m' : Main} (hd : Deed m act m')
    (hput : ∀ id sa, act ≠ .nbhdPut id sa) (hponged : ∀ id sa, act ≠ .nbhdPonged id sa) :
    Works m₀ e m { m with nbhd := m'.nbhd } := by
  refine .single (.nodes (hd.moved hm).nbhd fun id sa hknown => ?_)
  rcases hd.known hm hknown with hold | hnew | hnew
  · exact hold
  · exact absurd hnew (hput id sa)
  · exact absurd hnew (hponged id sa)

theorem nbhdPut_works (hm : InOrder m) {id : Id} {sa : Ip} (hn : Names m₀ e id sa) :
    Ensures (nbhdPut id sa m) (Works m₀ e m) := by
  intro m' hput
  have hcontact := contact_works hm (.nbhdPut hput) (.inl rfl) hn
  refine hcontact.trans ?_
  rw [nbhdPut] at hput
  by_cases hme : nodeMe m id
  · rw [if_pos hme] at hput
    obtain rfl := Except.ok.inj hput
    exact .refl _
  · rw [if_neg hme] at hput
    obtain ⟨r, -, hput⟩ := exec_bind_eq_ok.mp hput
    cases r with
    | some r =>
      obtain ⟨nbhd, -, hput⟩ := exec_bind_eq_ok.mp hput
      obtain rfl := Except.ok.inj hput
      exact .refl _
    | none =>
      obtain ⟨nbhd, -, hput⟩ := exec_bind_eq_ok.mp hput
      obtain ⟨m₁, hping, hfind⟩ := exec_bind_eq_ok.mp hput
      have hnbhd : m'.nbhd = nbhd := ((sendPing_aside _ _ _ _ hping).trans
        (sendFind_aside _ _ _ _ hfind)).nbhd
      have hdraws : Works m₀ e { m with nbhd := nbhd }
          { m with nbhd := nbhd, draws := m.draws + 1 + 1 } :=
        idle_works ⟨rfl, rfl, rfl, rfl, rfl, rfl, rfl, rfl, rfl, rfl, rfl, rfl⟩
      rw [hnbhd]
      exact hdraws.trans ((sendPing_works _ (.inl rfl) m₁ hping).trans (sendFind_works _ m' hfind))

theorem nbhdPonged_works (hm : InOrder m) {id : Id} {sa : Ip} (hn : Names m₀ e id sa) :
    Ensures (nbhdPonged id sa m) (Works m₀ e m) := by
  intro m' hponged
  refine (contact_works hm (.nbhdPonged hponged) (.inr rfl) hn).trans (idle_works ?_)
  obtain ⟨r, -, hponged⟩ := exec_bind_eq_ok.mp hponged
  cases r with
  | none =>
    obtain rfl := Except.ok.inj hponged
    exact .refl _
  | some r =>
    obtain ⟨nbhd, -, hponged⟩ := exec_bind_eq_ok.mp hponged
    obtain rfl := Except.ok.inj hponged
    exact ⟨rfl, rfl, rfl, rfl, rfl, rfl, rfl, rfl, rfl, rfl, rfl, rfl⟩

theorem nbhdPinged_works (hm : InOrder m) {n : Routing.Node} (hn : n ∈ allNodes m.nbhd)
    (hdue : m.p2p.time_now > n.time_ping) : Ensures (nbhdPinged n.id m) (Works m₀ e m) := by
  intro m' hpinged
  refine (nodes_works hm (.nbhdPinged hn hdue hpinged) (by simp) (by simp)).trans (idle_works ?_)
  obtain ⟨r, -, hpinged⟩ := exec_bind_eq_ok.mp hpinged
  cases r with
  | none =>
    obtain rfl := Except.ok.inj hpinged
    exact .refl _
  | some r =>
    obtain ⟨nbhd, -, hpinged⟩ := exec_bind_eq_ok.mp hpinged
    obtain rfl := Except.ok.inj hpinged
    exact ⟨rfl, rfl, rfl, rfl, rfl, rfl, rfl, rfl, rfl, rfl, rfl, rfl⟩

end Neighborhood

/-! ## Walks -/

section Walks
variable (m₀ : Main) (e : Event) {m : Main}

/-- The walk of `nbhd_ping` over the nodes at `qs`. -/
theorem pingNodes_works (b : Ptr) (qs : List Ptr) (j : ℕ) (hm : InOrder m)
    (h : StandsAt m.nbhd b qs) : Ensures (pingNodes (some b) qs.length j qs.head? m) fun m' =>
      Works m₀ e m m' ∧ Retouched m.nbhd m'.nbhd := by
  induction qs generalizing j m with
  | nil =>
    obtain ⟨cs, ds, hr⟩ := hm.routed
    exact ensures_ok.mpr ⟨.refl m, .refl hr.sound⟩
  | cons q qs ih =>
    obtain ⟨cs, ds, hr⟩ := hm.routed
    obtain ⟨it, n, hitem, hn, -, -, c, hc, -, hqn⟩ := h.read hr.sound
    have hmem : n.val ∈ allNodes m.nbhd := mem_allNodes.mpr ⟨c, hc, List.mem_map_of_mem hqn⟩
    rw [List.length_cons, List.head?_cons, pingNodes, hitem, exec_ok_bind, hn, exec_ok_bind]
    refine ensures_ite (fun hdue => ?_) fun _ => walk_next hm h (ih (j + 1) hm)
    have hpinged : ∀ m₁, Works m₀ e m m₁ ∧ Aside m m₁ → Ensures (nbhdPinged n.val.id m₁)
        fun m₂ => Works m₀ e m m₂ ∧ Retouched m.nbhd m₂.nbhd := by
      rintro m₁ ⟨hw, h₁⟩ m₂ h₂
      have hm₁ := hw.inOrder hm
      have ht := (nbhdPinged_retouched hm₁ _ m₂ h₂).2
      rw [h₁.nbhd] at ht
      exact ⟨hw.trans (nbhdPinged_works hm₁ (by rwa [h₁.nbhd]) (by rwa [h₁.clock]) m₂ h₂), ht⟩
    have hrest : ∀ m₂, Works m₀ e m m₂ ∧ Retouched m.nbhd m₂.nbhd → Ensures (do
        let it ← m₂.nbhd.item (some b)
        let item_n ← listNext it.val.nodes (some q)
        pingNodes (some b) qs.length (j + 1) item_n m₂) fun m' =>
          Works m₀ e m m' ∧ Retouched m.nbhd m'.nbhd := by
      rintro m₂ ⟨hw, ht⟩
      have hm₂ := hw.inOrder hm
      refine walk_next hm₂ (h.retouched ht) fun hqs => (ih (j + 1) hm₂ hqs).mono ?_
      exact fun m' h' => ⟨hw.trans h'.1, ht.trans h'.2⟩
    have hping : Ensures (sendPing n.val.c_addr SEND_UNICAST m) (Works m₀ e m) :=
      sendPing_works _ (.inl rfl)
    refine ensures_ite (fun _ => ?_) fun _ => ?_
    · refine (hping.and (sendPing_aside _ m SEND_UNICAST)).bind fun m₁ h₁ => ?_
      exact (hpinged m₁ h₁).bind hrest
    · exact (hpinged m ⟨.refl m, .refl m⟩).bind hrest

/-- The walk of `nbhd_ping` over the buckets at `ps`. -/
theorem pingBuckets_works (os ps : List Ptr) (hm : InOrder m)
    (h : (cells m.nbhd).map Cell.ptr = os ++ ps) :
    Ensures (pingBuckets ps.length ps.head? m) (Works m₀ e m) := by
  induction ps generalizing os m with
  | nil => exact ensures_ok.mpr (.refl m)
  | cons p ps ih =>
    obtain ⟨cs, ds, hr⟩ := hm.routed
    obtain ⟨cs₁, cs', hcells, hos, hps⟩ := List.map_eq_append_iff.mp h
    obtain ⟨c, cs₂, rfl, rfl, -⟩ := List.map_eq_cons_iff.mp hps
    obtain ⟨it, hitem, hcounter, hstart, hstands⟩ := standsAt_start hr.sound hcells
    rw [List.length_cons, List.head?_cons, pingBuckets, hitem, exec_ok_bind, hcounter, hstart]
    refine (pingNodes_works m₀ e _ _ 0 hm hstands).bind fun m' hm' => ?_
    obtain ⟨hw, ht⟩ := hm'
    obtain ⟨cs₁', cs', hcells', hos', hps'⟩ := List.map_eq_append_iff.mp (ht.ptrs.trans h)
    obtain ⟨c', cs₂', rfl, hptr, rfl⟩ := List.map_eq_cons_iff.mp hps'
    have hnext := ht.sound.next_eq hcells'
    rw [hptr] at hnext
    rw [hnext, exec_ok_bind, headPtr, ← List.head?_map]
    have hsnoc : (cells m'.nbhd).map Cell.ptr = (os ++ [c.ptr]) ++ cs₂'.map Cell.ptr := by
      rw [ht.ptrs, h, List.append_cons]
    exact (ih _ (hw.inOrder hm) hsnoc).mono fun _ h' => hw.trans h'

theorem nbhdPing_works (hm : InOrder m) : Ensures (nbhdPing m) (Works m₀ e m) := by
  obtain ⟨cs, ds, hr⟩ := hm.routed
  have hcount : m.nbhd.counter = ((cells m.nbhd).map Cell.ptr).length := by
    rw [hr.sound.linked.counter, cells, List.length_map, List.length_map]
  have hstart : m.nbhd.start = ((cells m.nbhd).map Cell.ptr).head? := by
    rw [hr.sound.linked.start, firstPtr_eq_headPtr, headPtr, ← cells, List.head?_map]
  rw [nbhdPing, hcount, hstart]
  exact pingBuckets_works m₀ e [] _ hm (List.nil_append _).symm

/-- The walk of `nbhd_find` over the nodes at `qs`. -/
theorem findNodes_works (find_id : Id) (b : Ptr) (qs : List Ptr) (hm : InOrder m)
    (h : StandsAt m.nbhd b qs) :
    Ensures (findNodes find_id (some b) qs.length qs.head? m) (Works m₀ e m) := by
  induction qs generalizing m with
  | nil => exact ensures_ok.mpr (.refl m)
  | cons q qs ih =>
    obtain ⟨cs, ds, hr⟩ := hm.routed
    obtain ⟨it, n, hitem, hn, -, -, c, hc, rfl, hqn⟩ := h.read hr.sound
    rw [List.length_cons, List.head?_cons, findNodes, hitem, exec_ok_bind, hn, exec_ok_bind]
    refine ensures_ite (fun hdue => ?_) fun _ => walk_next hm h (ih hm)
    have hfind : Ensures (sendFind n.val.c_addr find_id m) (Works m₀ e m) := sendFind_works _
    refine (hfind.and (sendFind_aside _ m find_id)).bind fun m₁ h₁ => ?_
    obtain ⟨hw, h₁⟩ := h₁
    have hc₁ : c ∈ cells m₁.nbhd := by rwa [h₁.nbhd]
    have hm₁ := hw.inOrder hm
    let m₂ : Main := { m₁ with draws := m₁.draws + 1 }
    let f : Routing.Node → Routing.Node := fun n => { n with time_find := (timeAdd5MinApprox m₁).1 }
    have hset : Ensures (m₂.nbhd.setNode (some c.ptr) (some q) f) fun nbhd =>
        Works m₀ e m { m₂ with nbhd := nbhd } ∧ Retouched m.nbhd nbhd := by
      intro nbhd ht
      have hdraw : Works m₀ e m₁ m₂ :=
        idle_works ⟨rfl, rfl, rfl, rfl, rfl, rfl, rfl, rfl, rfl, rfl, rfl, rfl⟩
      have hdeed : Deed m₂ .nbhdFind { m₂ with nbhd := nbhd } := .nbhdFind hc₁ hqn ht
      have hretouched := hm₁.retouched hc₁ hqn ht fun _ => rfl
      rw [h₁.nbhd] at hretouched
      have hm₂ : InOrder m₂ := hm₁
      exact ⟨hw.trans (hdraw.trans (nodes_works hm₂ hdeed (by simp) (by simp))), hretouched⟩
    refine hset.bind fun nbhd ht => ?_
    obtain ⟨hw', ht⟩ := ht
    have hm₃ := hw'.inOrder hm
    exact walk_next hm₃ (h.retouched ht) fun hqs => (ih hm₃ hqs).mono fun _ h' => hw'.trans h'

theorem nbhdFind_works (find_id : Id) (hm : InOrder m) :
    Ensures (nbhdFind find_id m) (Works m₀ e m) := by
  obtain ⟨cs, ds, hr⟩ := hm.routed
  refine (hr.findAny find_id).bind fun r hr' => ?_
  cases r with
  | none => exact ensures_ok.mpr (.refl m)
  | some item_b =>
    obtain ⟨cs₁, c, cs₂, hcells, rfl, -⟩ := hr' item_b rfl
    obtain ⟨it, hitem, hcounter, hstart, hstands⟩ := standsAt_start hr.sound hcells
    dsimp only
    rw [hitem, exec_ok_bind, hcounter, hstart]
    exact findNodes_works m₀ e find_id _ _ hm hstands

theorem randUrandom_works (m : Main) : Ensures (randUrandom m) fun r => Works m₀ e m r.2 := by
  rw [randUrandom]
  cases hread : m.urandom m.reads with
  | none => exact ensures_error
  | some buffer => exact ensures_ok.mpr (.single (.draw hread))

theorem nbhdFindRandom_works (hm : InOrder m) : Ensures (nbhdFindRandom m) (Works m₀ e m) :=
  (randUrandom_works m₀ e m).bind fun r hr =>
    (nbhdFind_works m₀ e r.1 (hr.inOrder hm)).mono fun _ h => hr.trans h

end Walks

/-! ## Lookups, announcements and the database -/

section Requests
variable {m₀ m : Main} {e : Event}

theorem lkpRemember_works (i : Ptr) (node_id : Id) :
    Ensures (lkpRemember i node_id m) (Works m₀ e m) := by
  intro m' h
  obtain ⟨l, hitem, h⟩ := exec_bind_eq_ok.mp h
  obtain ⟨asked, -, h⟩ := exec_bind_eq_ok.mp h
  obtain ⟨list, hlist, h⟩ := exec_bind_eq_ok.mp h
  obtain rfl := Except.ok.inj h
  exact .single (.remember hitem hlist)

theorem announced_works {m' : Main} (h : ∃ announce, m' = { m with announce := announce }) :
    Works m₀ e m m' := by
  obtain ⟨announce, rfl⟩ := h
  exact .single (.announced announce)

theorem announceRemember_announces (i : Ptr) (node_id : Id) (m : Main) :
    Ensures (announceRemember i node_id m) fun m' =>
      ∃ announce, m' = { m with announce := announce } :=
  ensures_then fun _ => ensures_then fun _ => ensures_then fun _ => ensures_ok.mpr ⟨_, rfl⟩

theorem setVal_item {α : Type} {l l' : ObjList α} {i : Ptr} {v : α}
    (h : l.setVal (some i) v = .ok l') : ∃ it, l'.item (some i) = .ok it ∧ it.val = v := by
  rw [ObjList.setVal, ObjList.write] at h
  split at h
  · rename_i it hit
    obtain rfl := Except.ok.inj h
    exact ⟨{ it with val := v }, by simp [ObjList.item], rfl⟩
  · cases h

/-- The lookup at `i` has these ids. -/
def Main.Selects (m : Main) (i : Ptr) (lkp_id find_id : Id) : Prop :=
  ∃ l, m.lkps.list.item (some i) = .ok l ∧ l.val.lkp_id = lkp_id ∧ l.val.find_id = find_id

theorem Main.Selects.pending {i : Ptr} {lkp_id find_id : Id} (h : m.Selects i lkp_id find_id) :
    m.Pending lkp_id find_id := by
  obtain ⟨l, hitem, hlkp, hfind⟩ := h
  exact ⟨i, l, hitem, hfind, .inl hlkp⟩

theorem Main.Selects.remember {i : Ptr} {lkp_id find_id : Id} (h : m.Selects i lkp_id find_id)
    (node_id : Id) : Ensures (lkpRemember i node_id m) fun m' => m'.Selects i lkp_id find_id := by
  intro m' hrem
  obtain ⟨l, hitem, hlkp, hfind⟩ := h
  obtain ⟨l', hitem', hrem⟩ := exec_bind_eq_ok.mp hrem
  obtain ⟨asked, -, hrem⟩ := exec_bind_eq_ok.mp hrem
  obtain rfl := Except.ok.inj (hitem.symm.trans hitem')
  obtain ⟨list, hlist, hrem⟩ := exec_bind_eq_ok.mp hrem
  obtain rfl := Except.ok.inj hrem
  obtain ⟨l₂, hitem₂, hval⟩ := setVal_item hlist
  exact ⟨l₂, hitem₂, by rw [hval, hlkp], by rw [hval, hfind]⟩

/-- The first round of a lookup asks for its target under its id. -/
theorem nbhdLookup_works (i : Ptr) : Ensures (nbhdLookup i m) (Works m₀ e m) := by
  intro m' h
  obtain ⟨l, hitem, h⟩ := exec_bind_eq_ok.mp h
  let R : Main → Main → Prop := fun m m' => m.Selects i l.val.lkp_id l.val.find_id →
    Works m₀ e m m' ∧ m'.Selects i l.val.lkp_id l.val.find_id
  have hrefl : ∀ m, R m m := fun m hs => ⟨.refl m, hs⟩
  have htrans : ∀ {m m' m''}, R m m' → R m' m'' → R m m'' := by
    intro m m' m'' h h' hs
    obtain ⟨hw, hs'⟩ := h hs
    exact ⟨hw.trans (h' hs').1, (h' hs').2⟩
  have hask : ∀ (n : Routing.Node) (m : Main), Ensures (do
      let m ← lkpRemember i n.id m
      sendLookup n.c_addr l.val.find_id l.val.lkp_id m) (R m) := by
    intro n m m₂ h₂ hs
    obtain ⟨m₁, hrem, hsend⟩ := exec_bind_eq_ok.mp h₂
    have hs₁ := hs.remember n.id m₁ hrem
    have hlkps := (sendLookup_aside _ _ _ _ m₂ hsend).lkps
    refine ⟨(lkpRemember_works i n.id m₁ hrem).trans (sendLookup_works hs₁.pending m₂ hsend), ?_⟩
    rwa [Main.Selects, hlkps]
  exact (askBucket_keeps hrefl htrans hask l.val.find_id m m' h ⟨l, hitem, rfl, rfl⟩).1

theorem lkpPut_works {find_id : Id} {callback : Option ℕ} {ctx : ℕ}
    (he : e.search? = some (find_id, callback, ctx)) :
    Ensures (lkpPut find_id callback ctx m) (Works m₀ e m) := by
  rw [lkpPut, randUrandom]
  cases hread : m.urandom m.reads with
  | none => exact ensures_error
  | some lkp_id =>
    rw [exec_ok_bind]
    dsimp only
    intro m' h
    obtain ⟨⟨list, i⟩, hlist, h⟩ := exec_bind_eq_ok.mp h
    obtain ⟨hash, hhash, h⟩ := exec_bind_eq_ok.mp h
    exact (Steps.single (.search he hread hlist hhash)).trans (nbhdLookup_works i m' h)

theorem lkpResolve_works (lkp_id node_id : Id) (c_addr : Ip) :
    Ensures (lkpResolve lkp_id node_id c_addr m) (Works m₀ e m) := by
  intro m' h
  obtain ⟨r, hget, h⟩ := exec_bind_eq_ok.mp h
  cases r with
  | none =>
    obtain rfl := Except.ok.inj h
    exact .refl m
  | some i =>
    obtain ⟨l, hitem, h⟩ := exec_bind_eq_ok.mp h
    obtain ⟨known, -, h⟩ := exec_bind_eq_ok.mp h
    have hpending : m.Pending lkp_id l.val.find_id := ⟨i, l, hitem, rfl, .inr hget⟩
    refine ensures_ite (fun _ => ?_) (fun _ => ?_) m' h
    · exact ensures_ok.mpr (.refl m)
    · refine ensures_ite (fun _ => lkpRemember_works i node_id) fun _ => ?_
      exact (sendLookup_works hpending).bind fun m₁ hw =>
        (lkpRemember_works i node_id).mono fun _ hw' => hw.trans hw'

theorem lkpDel_eqs (i : Ptr) (m : Main) : Ensures (lkpDel i m) fun m' =>
    m' = { m with lkps := m'.lkps } :=
  ensures_then fun _ => ensures_then fun _ => ensures_then fun _ => ensures_ok.mpr rfl

/-- The callback of a lookup and its end only change lookups and calls. -/
theorem lkpDel_call_eqs (i : Ptr) (l : Lookup) (node_id : Id) (address : Option (Octets 16))
    (m : Main) : Ensures (lkpDel i (l.call node_id address m)) fun m' =>
      m' = { m with lkps := m'.lkps, calls := m'.calls } := by
  refine (lkpDel_eqs i _).mono fun m' h => ?_
  rw [Lookup.call_eq] at h
  rw [h]

theorem lkpSuccess_idle (lkp_id node_id : Id) (address : Octets 16) (m : Main) :
    Ensures (lkpSuccess lkp_id node_id address m) fun m' =>
      Idle { m with lkps := m'.lkps, calls := m'.calls } m' := by
  refine ensures_then fun r => ?_
  cases r with
  | none => exact ensures_ok.mpr (.refl m)
  | some i =>
    refine ensures_then fun l => (lkpDel_call_eqs i l.val node_id (some address) m).mono ?_
    intro m' h
    rw [← h]
    exact .refl m'

theorem lkpExpire_idle (m : Main) : Ensures (lkpExpire m) fun m' =>
    Idle { m with lkps := m'.lkps, calls := m'.calls } m' := by
  have hloop : ∀ fuel item m, Ensures (lkpExpireLoop fuel item m) fun m' =>
      m' = { m with lkps := m'.lkps, calls := m'.calls } := by
    intro fuel
    induction fuel with
    | zero =>
      intro item m
      cases item with
      | none => exact ensures_ok.mpr rfl
      | some i => exact ensures_error
    | succ fuel ih =>
      intro item m
      cases item with
      | none => exact ensures_ok.mpr rfl
      | some i =>
        refine ensures_then fun l => ensures_then fun next => ensures_ite (fun _ => ?_) fun _ => ?_
        · refine (lkpDel_call_eqs i l.val l.val.find_id none m).bind fun m₁ h₁ => ?_
          refine (ih next m₁).mono fun m' h' => ?_
          rw [h', h₁]
        · exact ih next m
  refine (hloop _ _ m).mono fun m' h => ?_
  rw [← h]
  exact .refl m'

/-! Announcements -/

theorem announceRemember_works (i : Ptr) (node_id : Id) :
    Ensures (announceRemember i node_id m) (Works m₀ e m) :=
  (announceRemember_announces i node_id m).mono fun _ h => announced_works h

theorem nbhdAnnounce_works (i : Ptr) (hname : m.conf.hostname ≠ none) :
    Ensures (nbhdAnnounce i m.conf.host_id m) (Works m₀ e m) := by
  intro m' h
  obtain ⟨a, -, h⟩ := exec_bind_eq_ok.mp h
  let R : Main → Main → Prop := fun m₁ m₂ => m₁.conf = m.conf → Works m₀ e m₁ m₂ ∧ m₂.conf = m.conf
  have hrefl : ∀ m, R m m := fun m hs => ⟨.refl m, hs⟩
  have htrans : ∀ {m m' m''}, R m m' → R m' m'' → R m m'' := by
    intro m m' m'' h h' hs
    obtain ⟨hw, hs'⟩ := h hs
    exact ⟨hw.trans (h' hs').1, (h' hs').2⟩
  have hask : ∀ (n : Routing.Node) (m₁ : Main), Ensures (do
      let m₁ ← announceRemember i n.id m₁
      sendAnnounce n.c_addr a.val.lkp_id m.conf.host_id m₁) (R m₁) := by
    intro n m₁ m₃ h₃ hconf
    obtain ⟨m₂, hrem, hsend⟩ := exec_bind_eq_ok.mp h₃
    have hconf₂ : m₂.conf = m.conf :=
      (announceRemember_announced i n.id m₁ m₂ hrem).conf.trans hconf
    rw [← hconf₂] at hsend hname
    refine ⟨(announceRemember_works i n.id m₂ hrem).trans (sendAnnounce_works _ hname m₃ hsend), ?_⟩
    rw [(sendAnnounce_aside _ _ _ _ m₃ hsend).conf, hconf₂]
  exact (askBucket_keeps hrefl htrans hask m.conf.host_id m m' h rfl).1

theorem announcePut_works (lkp_id : Id) (hname : m.conf.hostname ≠ none) :
    Ensures (announcePut lkp_id m.conf.host_id m) (Works m₀ e m) := by
  intro m' h
  obtain ⟨⟨list, i⟩, -, h⟩ := exec_bind_eq_ok.mp h
  obtain ⟨hash, -, h⟩ := exec_bind_eq_ok.mp h
  have hput : Works m₀ e m { m with announce := ⟨list, hash⟩ } := announced_works ⟨_, rfl⟩
  have hname' : ({ m with announce := ⟨list, hash⟩ } : Main).conf.hostname ≠ none := hname
  exact hput.trans (nbhdAnnounce_works i hname' m' h)

theorem announceResolve_works (lkp_id node_id : Id) (c_addr : Ip) :
    Ensures (announceResolve lkp_id node_id c_addr m) (Works m₀ e m) := by
  refine ensures_then fun i => ?_
  cases i with
  | none => exact ensures_ok.mpr (.refl m)
  | some i =>
    refine ensures_then fun a => ensures_then fun known => ensures_ite (fun _ => ?_) fun _ => ?_
    · exact ensures_ok.mpr (.refl m)
    · refine ensures_ite (fun hask => ?_) fun _ => announceRemember_works i node_id
      exact (sendAnnounce_works lkp_id hask.2).bind fun m₁ hw =>
        (announceRemember_works i node_id).mono fun _ hw' => hw.trans hw'

theorem announceExpire_works : Ensures (announceExpire m) (Works m₀ e m) := by
  have hloop : ∀ fuel item m, Ensures (announceExpireLoop fuel item m) (Works m₀ e m) := by
    intro fuel
    induction fuel with
    | zero =>
      intro item m
      cases item with
      | none => exact ensures_ok.mpr (.refl m)
      | some i => exact ensures_error
    | succ fuel ih =>
      intro item m
      cases item with
      | none => exact ensures_ok.mpr (.refl m)
      | some i =>
        refine ensures_then fun a => ensures_then fun n => ensures_ite (fun _ => ?_) fun _ => ?_
        · have hdel : Ensures (announceDel i m) (Works m₀ e m) := ensures_then fun _ =>
            ensures_then fun _ => ensures_then fun _ => ensures_ok.mpr (announced_works ⟨_, rfl⟩)
          exact hdel.bind fun m₁ hw => (ih n m₁).mono fun _ hw' => hw.trans hw'
        · exact ih n m
  exact hloop _ _ m

/-! The database -/

/-- Only the database and the log differ. -/
def Filed (m m' : Main) : Prop := m' = { m with database := m'.database, log := m'.log }

theorem Filed.idle {m' : Main} (h : Filed m m') : Idle { m with database := m'.database } m' := by
  rw [h]
  exact ⟨rfl, rfl, rfl, rfl, rfl, rfl, rfl, rfl, rfl, rfl, rfl, rfl⟩

theorem Filed.trans {m' m'' : Main} (h : Filed m m') (h' : Filed m' m'') : Filed m m'' := by
  rw [Filed, h', h]

theorem dbUpdate_filed (i : Ptr) (sa : Ip) (m : Main) : Ensures (dbUpdate i sa m) (Filed m) :=
  ensures_then fun _ => ensures_then fun _ => ensures_ok.mpr rfl

theorem dbPut_filed (host_id : Id) (sa : Ip) (m : Main) :
    Ensures (dbPut host_id sa m) (Filed m) := by
  refine ensures_then fun i => ?_
  cases i with
  | none =>
    refine ensures_then fun r => ensures_then fun hash => (dbUpdate_filed r.2 sa _).mono ?_
    intro m' h
    rw [Filed, h]
    rfl
  | some i => exact dbUpdate_filed i sa m

theorem dbExpire_filed (m : Main) : Ensures (dbExpire m) (Filed m) := by
  have hloop : ∀ fuel j i m, Ensures (dbExpireLoop fuel j i m) (Filed m) := by
    intro fuel
    induction fuel with
    | zero => exact fun _ _ _ => ensures_error
    | succ fuel ih =>
      intro j i m
      refine ensures_ite (fun _ => ?_) fun _ => ensures_ok.mpr rfl
      cases i with
      | none => exact ensures_error
      | some i =>
        refine ensures_then fun db => ensures_then fun n => ensures_ite (fun _ => ?_) fun _ => ?_
        · have hdel : Ensures (dbDel i m) (Filed m) := ensures_then fun _ => ensures_then fun _ =>
            ensures_then fun _ => ensures_ok.mpr rfl
          refine hdel.bind fun m₁ h₁ => (ih _ n _).mono fun m' h' => h₁.trans ?_
          rw [Filed, h']
          rfl
        · exact ih _ n m
  exact hloop _ _ _ m

theorem dbExpire_works : Ensures (dbExpire m) (Works m₀ e m) :=
  fun m' h => .single (.hosts h (dbExpire_filed m m' h).idle)

/-- A host that `db_send` finds is answered with its address in the database. -/
theorem dbSend_works {packet : ObjBen} {id key : Id} {sender : Ip} {m₁ : Main}
    (h : Heard m₀ e packet id key sender m₁)
    (hq : benSearchDictStr packet 'q' = some (.str [ch 'l'])) {find_id lkp_id : Id}
    (hf : p2pIsHash (benSearchDictStr packet 'f') = some find_id)
    (hl : p2pIsHash (benSearchDictStr packet 'l') = some lkp_id) :
    Ensures (dbSend sender find_id lkp_id key m) fun r => Works m₀ e m r.1 := by
  intro r hr
  obtain ⟨i, hfind, hr⟩ := exec_bind_eq_ok.mp hr
  cases i with
  | none =>
    obtain rfl := Except.ok.inj hr
    exact .refl m
  | some i =>
    obtain ⟨db, hitem, hr⟩ := exec_bind_eq_ok.mp hr
    obtain ⟨m', hsend, hr⟩ := exec_bind_eq_ok.mp hr
    obtain rfl := Except.ok.inj hr
    have haddress : dbAddress find_id m = .ok (some db.val.c_addr) := by
      rw [dbAddress, hfind, exec_ok_bind]
      dsimp only
      rw [hitem]
      rfl
    rw [sendValue_eq] at hsend
    obtain rfl := Except.ok.inj hsend
    refine reply_works h (.value lkp_id db.val.c_addr.addr) ?_ _ _
    exact ⟨hq, hl, find_id, db.val.c_addr, hf, haddress, rfl⟩

end Requests
end Masala.Daemon
