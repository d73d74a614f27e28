import Masala.Bencode.Canonical
import Masala.Daemon.Handling

/-!
# How much one packet makes a node send

A packet without a live session is answered with at most three datagrams, all
of them to the address it came from. Only the reply to a request of the node
itself makes it send to others, three datagrams for each node that the reply
lists, and a packet has no room for more than twenty-four.
-/
namespace Masala.Daemon
open Library Container Bencode Routing Session

/-- At most `k` datagrams leave, all to such addresses. -/
def Emits (k : ℕ) (To : Ip → Prop) (m m' : Main) : Prop :=
  ∃ ds, m'.out = m.out ++ ds ∧ ds.length ≤ k ∧ ∀ d ∈ ds, To d.1

section Rules
variable {j k : ℕ} {To To' : Ip → Prop} {m m' m'' : Main}

theorem Emits.none (h : m'.out = m.out) : Emits k To m m' :=
  ⟨[], by rw [h, List.append_nil], Nat.zero_le _, by simp⟩

theorem Emits.mono (h : Emits j To m m') (hjk : j ≤ k) (hto : ∀ sa, To sa → To' sa) :
    Emits k To' m m' := by
  obtain ⟨ds, hout, hlen, hds⟩ := h
  exact ⟨ds, hout, hlen.trans hjk, fun d hd => hto _ (hds d hd)⟩

theorem Emits.trans (h : Emits j To m m') (h' : Emits k To m' m'') : Emits (j + k) To m m'' := by
  obtain ⟨ds, hout, hlen, hds⟩ := h
  obtain ⟨ds', hout', hlen', hds'⟩ := h'
  refine ⟨ds ++ ds', by rw [hout', hout, List.append_assoc], ?_, fun d hd => ?_⟩
  · rw [List.length_append]
    exact Nat.add_le_add hlen hlen'
  · exact (List.mem_append.mp hd).elim (hds d) (hds' d)

theorem Emits.bind {x : Exec Main} {f : Main → Exec Main} (hx : Ensures x (Emits j To m))
    (hf : ∀ m', Ensures (f m') (Emits k To m')) : Ensures (x >>= f) (Emits (j + k) To m) :=
  hx.bind fun m' h => (hf m').mono fun _ h' => h.trans h'

end Rules

/-! ## Messages -/

section Send
variable {sa : Ip} {To : Ip → Prop} {m : Main}

theorem log_emits (k : ℕ) (format : String) (args : List LogArg) :
    Ensures (.ok (m.logInfo format args)) (Emits k To m) := ensures_ok.mpr (.none rfl)

theorem emit_emits (hsa : To sa) (datagram : Bytes) (format : String) (args : List LogArg) :
    Emits 1 To m ((m.emit sa datagram).logInfo format args) := by
  rw [Main.emit_eq]
  refine ⟨m.departs sa datagram, rfl, ?_, fun d hd => ?_⟩
  · rw [Main.departs]
    split
    · exact Nat.zero_le 1
    · exact Nat.le_refl 1
  · rw [Main.departs] at hd
    split at hd
    · cases hd
    · rw [List.mem_singleton.mp hd]
      exact hsa

theorem request_emits (hsa : To sa) (type : ℤ) (body : Body) (format : String)
    (args : List LogArg) : Ensures (do
      let (session_id, m) ← newSession type m
      return (m.emit sa (Message.datagram ⟨m.conf.node_id, session_id, body⟩)).logInfo format args)
      (Emits 1 To m) := by
  refine (newSession_ensures type m).bind ?_
  rintro ⟨session_id, m'⟩ ⟨-, cache, rfl⟩
  exact ensures_ok.mpr (emit_emits hsa _ _ _)

theorem sendPing_emits (hsa : To sa) (type : ℤ) : Ensures (sendPing sa type m) (Emits 1 To m) := by
  rw [sendPing_eq]
  exact request_emits hsa type _ _ _

theorem sendFind_emits (hsa : To sa) (node_id : Id) :
    Ensures (sendFind sa node_id m) (Emits 1 To m) := by
  rw [sendFind_eq]
  exact request_emits hsa SEND_UNICAST _ _ _

theorem sendAnnounce_emits (hsa : To sa) (lkp_id host_id : Id) :
    Ensures (sendAnnounce sa lkp_id host_id m) (Emits 1 To m) := by
  rw [sendAnnounce_eq]
  exact request_emits hsa SEND_UNICAST _ _ _

theorem sendLookup_emits (hsa : To sa) (node_id lkp_id : Id) :
    Ensures (sendLookup sa node_id lkp_id m) (Emits 1 To m) := by
  rw [sendLookup_eq]
  exact request_emits hsa SEND_UNICAST _ _ _

theorem sendPong_emits (hsa : To sa) (session_id : Id) :
    Ensures (sendPong sa session_id m) (Emits 1 To m) := by
  rw [sendPong_eq]
  exact ensures_ok.mpr (emit_emits hsa _ _ _)

theorem sendValue_emits (hsa : To sa) (value : Ip) (session_id lkp_id : Id) :
    Ensures (sendValue sa value session_id lkp_id m) (Emits 1 To m) := by
  rw [sendValue_eq]
  exact ensures_ok.mpr (emit_emits hsa _ _ _)

theorem nbhdSend_emits (hsa : To sa) (node_id : Id) (lkp_id : Option Id) (session_id : Id)
    (reply_type : ReplyType) :
    Ensures (nbhdSend sa node_id lkp_id session_id reply_type m) (Emits 1 To m) := by
  refine ensures_then fun i => ?_
  cases i with
  | none => exact ensures_ok.mpr (.none rfl)
  | some i =>
    refine ensures_then fun b => ensures_then fun dict => ?_
    rw [sendDict_eq]
    exact ensures_ok.mpr (emit_emits hsa _ _ _)

/-- A contact that is new to the table is pinged and asked. -/
theorem nbhdPut_emits (hsa : To sa) (id : Id) : Ensures (nbhdPut id sa m) (Emits 2 To m) := by
  refine ensures_ite (fun _ => ensures_ok.mpr (.none rfl)) fun _ => ensures_then fun r => ?_
  cases r with
  | some r => exact ensures_then fun nbhd => ensures_ok.mpr (.none rfl)
  | none =>
    refine ensures_then fun nbhd => ?_
    exact Emits.bind (sendPing_emits hsa SEND_UNICAST) fun m' => sendFind_emits hsa _

end Send

/-! ## Handlers -/

section Handlers
variable {sa : Ip} {To : Ip → Prop} {m : Main}

theorem lkpRemember_emits (i : Ptr) (node_id : Id) :
    Ensures (lkpRemember i node_id m) (Emits 0 To m) :=
  ensures_then fun _ => ensures_then fun _ => ensures_then fun _ => ensures_ok.mpr (.none rfl)

theorem announceRemember_emits (i : Ptr) (node_id : Id) :
    Ensures (announceRemember i node_id m) (Emits 0 To m) :=
  ensures_then fun _ => ensures_then fun _ => ensures_then fun _ => ensures_ok.mpr (.none rfl)

theorem lkpResolve_emits (hsa : To sa) (lkp_id node_id : Id) :
    Ensures (lkpResolve lkp_id node_id sa m) (Emits 1 To m) := by
  refine ensures_then fun r => ?_
  cases r with
  | none => exact ensures_ok.mpr (.none rfl)
  | some i =>
    refine ensures_then fun l => ensures_then fun known => ?_
    refine ensures_ite (fun _ => ensures_ok.mpr (.none rfl)) fun _ => ?_
    refine ensures_ite (fun _ => ?_) fun _ => ?_
    · exact (lkpRemember_emits i node_id).mono fun _ h => h.mono (Nat.zero_le 1) fun _ hsa => hsa
    · exact Emits.bind (sendLookup_emits hsa _ _) fun m' => lkpRemember_emits i node_id

theorem announceMyself_emits (hsa : To sa) (lkp_id node_id : Id) :
    Ensures (announceMyself lkp_id node_id sa m) (Emits 1 To m) := by
  refine ensures_ite (fun _ => ensures_then fun r => ?_) fun _ => ensures_ok.mpr (.none rfl)
  cases r with
  | none => exact ensures_ok.mpr (.none rfl)
  | some i =>
    refine ensures_then fun a => ensures_then fun known => ?_
    refine ensures_ite (fun _ => ensures_ok.mpr (.none rfl)) fun _ => ?_
    refine ensures_ite (fun _ => ?_) fun _ => ?_
    · exact Emits.bind (sendAnnounce_emits hsa _ _) fun m' => announceRemember_emits i node_id
    · exact (announceRemember_emits i node_id).mono fun _ h =>
        h.mono (Nat.zero_le 1) fun _ hsa => hsa

/-- Three datagrams for each node that is listed in front of the first broken one. -/
theorem storeNodes_emits {visit : Id → Ip → Main → Exec Main}
    (hv : ∀ id sa m, To sa → Ensures (visit id sa m) (Emits 1 To m)) (nodes : List ObjBen)
    (hto : ∀ x ∈ readContacts nodes, To x.2) :
    Ensures (storeNodes visit nodes m) (Emits (3 * (readContacts nodes).length) To m) := by
  induction nodes generalizing m with
  | nil => exact ensures_ok.mpr (.none rfl)
  | cons node nodes ih =>
    rw [readContacts] at hto ⊢
    rw [storeNodes]
    by_cases hd : ¬ benIsDict (some node)
    · rw [if_pos hd]
      exact log_emits _ _ _
    · rw [if_neg hd] at hto ⊢
      rw [if_neg hd]
      cases hi : p2pIsHash (benSearchDictStr node 'i') with
      | none => exact log_emits _ _ _
      | some id =>
        cases hip : p2pIsIp (benSearchDictStr node 'a') with
        | none => exact log_emits _ _ _
        | some ip =>
          cases hpo : p2pIsPort (benSearchDictStr node 'p') with
          | none => exact log_emits _ _ _
          | some po =>
            simp only [hi, hip, hpo, List.mem_cons, forall_eq_or_imp] at hto
            have hnext : ∀ m', Ensures (nbhdPut id ⟨AF_INET6, po, 0, ip, 0⟩ m' >>=
                storeNodes visit nodes) (Emits (2 + 3 * (readContacts nodes).length) To m') :=
              fun m' => Emits.bind (nbhdPut_emits hto.1 id) fun m'' => ih hto.2
            have hall := Emits.bind (hv id _ m hto.1) hnext
            refine hall.mono fun _ h => h.mono ?_ fun _ hsa => hsa
            rw [List.length_cons]
            omega

theorem dbPut_emits (host_id : Id) (sa : Ip) : Ensures (dbPut host_id sa m) (Emits 0 To m) := by
  have hupdate : ∀ i m, Ensures (dbUpdate i sa m) (Emits 0 To m) := fun i m =>
    ensures_then fun _ => ensures_then fun _ => ensures_ok.mpr (.none rfl)
  refine ensures_then fun i => ?_
  cases i with
  | none => exact ensures_then fun r => ensures_then fun hash => hupdate r.2 _
  | some i => exact hupdate i m

/-- The database answers with one datagram or leaves the answer to the table. -/
theorem dbSend_emits (hsa : To sa) (host_id lkp_id session_id : Id) :
    Ensures (dbSend sa host_id lkp_id session_id m) fun r =>
      Emits (if r.2 then 1 else 0) To m r.1 := by
  refine ensures_then fun i => ?_
  cases i with
  | none => exact ensures_ok.mpr (.none rfl)
  | some i =>
    refine ensures_then fun db => (sendValue_emits hsa _ _ _).bind fun m' h => ?_
    exact ensures_ok.mpr h

theorem nbhdPonged_emits (k : ℕ) (id : Id) (sa : Ip) :
    Ensures (nbhdPonged id sa m) (Emits k To m) := by
  refine ensures_then fun r => ?_
  cases r with
  | none => exact ensures_ok.mpr (.none rfl)
  | some r => exact ensures_then fun nbhd => ensures_ok.mpr (.none rfl)

theorem lkpSuccess_emits (k : ℕ) (lkp_id node_id : Id) (address : Octets 16) :
    Ensures (lkpSuccess lkp_id node_id address m) (Emits k To m) :=
  (lkpSuccess_idle lkp_id node_id address m).mono fun _ h => .none h.out

end Handlers

/-! ## Requests and replies -/

section Dispatch
variable {packet : ObjBen} {id key : Id} {sender : Ip} {To : Ip → Prop} {m₀ m : Main} {e : Event}

/-- Any packet that is no reply is answered with one datagram. -/
theorem request_emitted {q : UInt8} (hq : ¬ IsReply q) (hto : To sender) :
    Ensures (dispatch q packet id key sender m) (Emits 1 To m) := by
  simp only [IsReply, List.map_cons, List.map_nil, List.mem_cons, List.not_mem_nil, or_false,
    not_or] at hq
  obtain ⟨ho, hF, hA, hL, hV⟩ := hq
  refine ensures_ite (fun _ => sendPong_emits hto key) fun _ => ensures_ite (fun _ => ?_) fun _ =>
    ensures_ite (fun _ => ?_) fun _ => ensures_ite (fun _ => ?_) fun _ => ?_
  · rw [p2pFind]
    split
    · exact log_emits _ _ _
    · exact nbhdSend_emits hto _ _ _ _
  · rw [p2pAnnounce]
    split
    · exact log_emits _ _ _
    · split
      · exact log_emits _ _ _
      · exact (Emits.bind (dbPut_emits _ sender) fun m' => nbhdSend_emits hto _ _ _ _).mono
          fun _ h => h.mono (Nat.le_refl 1) fun _ hsa => hsa
  · rw [p2pLookup]
    split
    · exact log_emits _ _ _
    · split
      · exact log_emits _ _ _
      · refine Ensures.bind (dbSend_emits hto _ _ key) fun r hr => ?_
        obtain ⟨m', sent⟩ := r
        cases sent with
        | true => exact ensures_ok.mpr hr
        | false =>
          refine (nbhdSend_emits hto _ _ _ _).mono fun _ h => ?_
          exact (Emits.trans hr h).mono (Nat.le_refl 1) fun _ hsa => hsa
  · rw [if_neg ho, if_neg hF, if_neg hA, if_neg hL, if_neg hV]
    exact log_emits _ _ _

/-- A reply has no answer unless its session is known. -/
theorem ifExpected_emitted {k : ℕ} {unexpected : String} {handle : Main → Exec Main}
    (hh : (∃ cache, cacheValidate m.cache key = .ok (cache, true)) →
      ∀ m, Ensures (handle m) (Emits k To m)) :
    Ensures (ifExpected unexpected key handle m) fun m' => m'.out = m.out ∨
      (∃ cache, cacheValidate m.cache key = .ok (cache, true)) ∧ Emits k To m m' := by
  rw [ifExpected]
  cases hvalid : cacheValidate m.cache key with
  | error err => exact ensures_error
  | ok r =>
    obtain ⟨cache, valid⟩ := r
    rw [exec_ok_bind]
    cases valid with
    | false => exact ensures_ok.mpr (.inl rfl)
    | true =>
      refine (hh ⟨cache, hvalid⟩ { m with cache := cache }).mono fun _ h => ?_
      exact .inr ⟨⟨cache, rfl⟩, h⟩

/-- The reply to a request of the node: what it lists bounds what the node sends. -/
theorem reply_emitted {q : UInt8} (h : Heard m₀ e packet id key sender m)
    (hq : benSearchDictStr packet 'q' = some (.str [q])) (hreply : IsReply q) {n : ℕ}
    (hn : ∀ nodes, benSearchDictStr packet 'n' = some (.list nodes) →
      (readContacts nodes).length ≤ n) :
    Ensures (dispatch q packet id key sender m) fun m' => m'.out = m.out ∨
      (∃ cache, cacheValidate m.cache key = .ok (cache, true)) ∧
        Emits (1 + 3 * n) (fun sa => ∃ x, Names m₀ e x sa) m m' := by
  have hsender : ∃ x, Names m₀ e x sender := ⟨id, .sender h⟩
  have hstore (visit : Id → Ip → Main → Exec Main) (hv : ∀ x sa m, (∃ y, Names m₀ e y sa) →
      Ensures (visit x sa m) (Emits 1 (fun sa => ∃ y, Names m₀ e y sa) m))
      (hnodes : IsNodes packet q) (hc : ∃ cache, cacheValidate m.cache key = .ok (cache, true))
      {nodes : List ObjBen}
      (hlist : benSearchDictStr packet 'n' = some (.list nodes)) (m' : Main) :
      Ensures (storeNodes visit nodes m') (Emits (3 * n) (fun sa => ∃ y, Names m₀ e y sa) m') := by
    refine (storeNodes_emits hv nodes fun x hx => ⟨x.1, h.names hq hnodes hc hlist x hx⟩).mono ?_
    exact fun _ hs => hs.mono (Nat.mul_le_mul_left 3 (hn nodes hlist)) fun _ hsa => hsa
  simp only [IsReply, List.map_cons, List.map_nil, List.mem_cons, List.not_mem_nil,
    or_false] at hreply
  rcases hreply with rfl | rfl | rfl | rfl | rfl
  · exact ifExpected_emitted fun _ m' => nbhdPonged_emits _ id sender
  · change Ensures (p2pNodeFind packet key m) _
    refine ifExpected_emitted fun hc m' => ?_
    split
    · rename_i nodes hlist
      refine (hstore _ (fun _ _ m _ => ensures_ok.mpr (.none rfl)) (.inl rfl) hc hlist m').mono ?_
      exact fun _ hs => hs.mono (Nat.le_add_left _ 1) fun _ hsa => hsa
    · exact log_emits _ _ _
  · change Ensures (p2pNodeAnnounce packet id key sender m) _
    refine ifExpected_emitted fun hc m' => ?_
    split
    · rename_i nodes hlist
      split
      · exact log_emits _ _ _
      · rename_i lkp_id hl
        have hnodes : IsNodes packet (ch 'A') := .inr ⟨.inl rfl, by simp [hl]⟩
        have hvisit : ∀ x sa m, (∃ y, Names m₀ e y sa) →
            Ensures (announceMyself lkp_id x sa m) (Emits 1 (fun sa => ∃ y, Names m₀ e y sa) m) :=
          fun x sa m hsa => announceMyself_emits hsa lkp_id x
        exact Emits.bind (announceMyself_emits hsender lkp_id id) (hstore _ hvisit hnodes hc hlist)
    · exact log_emits _ _ _
  · change Ensures (p2pNodeLookup packet id key sender m) _
    refine ifExpected_emitted fun hc m' => ?_
    split
    · rename_i nodes hlist
      split
      · exact log_emits _ _ _
      · rename_i lkp_id hl
        have hnodes : IsNodes packet (ch 'L') := .inr ⟨.inr rfl, by simp [hl]⟩
        have hvisit : ∀ x sa m, (∃ y, Names m₀ e y sa) →
            Ensures (lkpResolve lkp_id x sa m) (Emits 1 (fun sa => ∃ y, Names m₀ e y sa) m) :=
          fun x sa m hsa => lkpResolve_emits hsa lkp_id x
        exact Emits.bind (lkpResolve_emits hsender lkp_id id) (hstore _ hvisit hnodes hc hlist)
    · exact log_emits _ _ _
  · change Ensures (p2pValue packet id key m) _
    refine ifExpected_emitted fun _ m' => ?_
    split
    · exact log_emits _ _ _
    · split
      · exact log_emits _ _ _
      · exact lkpSuccess_emits _ _ id _

end Dispatch

/-! ## The room in a packet -/

section Room
variable {datagram : Bytes} {packet : ObjBen}

/-- The text of the tree of a packet is not longer than the receive buffer. -/
theorem Decodes.room (h : Decodes datagram packet) : (encode packet).length ≤ UDP_BUF := by
  obtain ⟨-, ⟨p, hvalid⟩, ⟨n, hdec⟩, -⟩ := h
  have htake : (datagram.take UDP_BUF).length ≤ UDP_BUF := List.length_take_le _ _
  have hbuffer : udpBuffer (datagram.take UDP_BUF) = datagram.take UDP_BUF ++
      0 :: List.replicate (UDP_BUF - (datagram.take UDP_BUF).length) 0 := by
    rw [udpBuffer, ← List.replicate_succ, Nat.sub_add_comm htake]
  have hsize : (datagram.take UDP_BUF).length ≤ (udpBuffer (datagram.take UDP_BUF)).length := by
    simp [udpBuffer]
  rcases benValidate_sound hsize hvalid with ⟨bs, t, value, hat, hp, hle⟩ |
    ⟨-, bs, htrunc, hat, hend⟩
  · have hfuel : bs.length < (datagram.take UDP_BUF).length + 1 := by omega
    rw [benDec_value value (At.zero_iff.mp hat) hfuel] at hdec
    simp only [Except.ok.injEq, Prod.mk.injEq, Option.some.injEq] at hdec
    rw [← hdec.1]
    exact (value_shortest value).2.trans (by omega)
  · -- a truncated token would fill the packet, and the decoder would hang behind it
    have hbs : bs = datagram.take UDP_BUF := by
      refine (List.prefix_of_prefix_length_le (At.zero_iff.mp hat) ?_ (by omega)).eq_of_length
        (by omega)
      rw [hbuffer]
      exact List.prefix_append _ _
    rw [hbuffer, benDec_hangs (hbs ▸ htrunc)] at hdec
    cases hdec

theorem p2pIsString_some {n : ℕ} {node : Option ObjBen} {x : Octets n}
    (h : p2pIsString n node = some x) : ∃ s, node = some (.str s) ∧ s.length = n := by
  cases node with
  | none => cases h
  | some t =>
    cases t with
    | str s =>
      by_cases hlen : s.length = n
      · exact ⟨s, rfl, hlen⟩
      · rw [p2pIsString, dif_neg hlen] at h
        cases h
    | _ => cases h

/-- The room that an entry of the protocol takes: the key, which is one letter, and the value. -/
theorem entryCost_letter {d : List (Bytes × ObjBen)} {c : Char} {t : ObjBen}
    (h : searchTuple [ch c] d = some t) : entryCost d [ch c] = 3 + (encode t).length := by
  have hkey : (encodeStr [ch c]).length = 3 := by
    rw [encodeStr]
    rfl
  rw [entryCost, h, hkey]

theorem entryCost_str {d : List (Bytes × ObjBen)} {c : Char} {s : Bytes}
    (h : searchTuple [ch c] d = some (.str s)) :
    entryCost d [ch c] = 4 + (decimal s.length).length + s.length := by
  rw [entryCost_letter h, show encode (.str s) = encodeStr s from rfl, encodeStr,
    List.length_append, List.length_cons]
  omega

/-- A listed node takes at least fifty-seven bytes. -/
theorem readContacts_room (nodes : List ObjBen) :
    57 * (readContacts nodes).length ≤ (encodeL nodes).length := by
  have hdigits : (decimal SHA_DIGEST_LENGTH).length = 2 ∧ (decimal 16).length = 2 ∧
    (decimal 2).length = 1 := by decide +kernel
  induction nodes with
  | nil => exact Nat.le_refl _
  | cons node nodes ih =>
    rw [readContacts, encodeL, List.length_append]
    cases node with
    | dict d =>
      rw [if_neg (by simp [benIsDict])]
      split
      · rename_i id ip po hi hip hpo
        obtain ⟨i, hi, hilen⟩ := p2pIsString_some hi
        obtain ⟨a, ha, halen⟩ := p2pIsString_some hip
        obtain ⟨p, hp, hplen⟩ := p2pIsString_some hpo
        have hkeys : [[ch 'i'], [ch 'a'], [ch 'p']].Nodup := by decide
        have hroom := entryCost_sum_le d hkeys
        have hdict : (encode (.dict d)).length = (encodeD d).length + 2 := by
          rw [encode, List.length_cons, List.length_append, List.length_singleton]
        simp only [List.map_cons, List.map_nil, List.sum_cons, List.sum_nil, entryCost_str hi,
          entryCost_str ha, entryCost_str hp, hilen, halen, hplen, hdigits] at hroom
        rw [List.length_cons, hdict]
        simp only [SHA_DIGEST_LENGTH] at hroom
        omega
      · exact Nat.zero_le _
    | _ => exact Nat.zero_le _

/-- Beside its id, session and type a packet has room for twenty-four nodes. -/
theorem Decodes.listed (h : Decodes datagram packet) {id key : Id} {q : UInt8}
    (hid : p2pIsHash (benSearchDictStr packet 'i') = some id)
    (hkey : p2pIsHash (benSearchDictStr packet 'k') = some key)
    (hq : benSearchDictStr packet 'q' = some (.str [q])) {nodes : List ObjBen}
    (hn : benSearchDictStr packet 'n' = some (.list nodes)) : (readContacts nodes).length ≤ 24 := by
  have hdigits : (decimal SHA_DIGEST_LENGTH).length = 2 ∧ (decimal 1).length = 1 := by
    decide +kernel
  have hdict := h.dict
  have hpacket := h.room
  have hnodes := readContacts_room nodes
  cases packet with
  | dict d =>
    obtain ⟨i, hi, hilen⟩ := p2pIsString_some hid
    obtain ⟨k, hk, hklen⟩ := p2pIsString_some hkey
    have hkeys : [[ch 'i'], [ch 'k'], [ch 'q'], [ch 'n']].Nodup := by decide
    have hroom := entryCost_sum_le d hkeys
    have htree : (encode (.dict d)).length = (encodeD d).length + 2 := by
      rw [encode, List.length_cons, List.length_append, List.length_singleton]
    have hlist : (encode (.list nodes)).length = (encodeL nodes).length + 2 := by
      rw [encode, List.length_cons, List.length_append, List.length_singleton]
    simp only [List.map_cons, List.map_nil, List.sum_cons, List.sum_nil, entryCost_str hi,
      entryCost_str hk, entryCost_str hq, entryCost_letter hn, hlist, hilen, hklen, hdigits,
      List.length_singleton] at hroom
    simp only [SHA_DIGEST_LENGTH] at hroom
    simp only [UDP_BUF] at hpacket
    omega
  | _ => cases hdict

end Room

/-! ## Packets -/

section Packets
variable {m : Main} {datagram : Bytes} {packet : ObjBen}

/-- A node sends up to three datagrams back where the packet came from. For the reply to a request
of its own these are up to seventy-five, to the sender and to nodes that the reply lists. -/
def Reacts (m₀ : Main) (e : Event) (sender : Ip) (m m' : Main) : Prop :=
  Emits 3 (Eq sender) m m' ∨ (∃ key, AcceptsAnswer m₀ e key) ∧
    Emits 75 (fun sa => ∃ id, Names m₀ e id sa) m m'

theorem log_reacts {m₀ : Main} {e : Event} (sender : Ip) (format : String) (args : List LogArg) :
    Ensures (.ok (m.logInfo format args)) (Reacts m₀ e sender m) :=
  (log_emits 3 format args).mono fun _ => .inl

theorem handle_reacts (now : ℤ) (sender : Ip) (hdec : Decodes datagram packet) :
    Ensures (handle packet sender (m.timed (.packet now datagram sender)))
      (Reacts m (.packet now datagram sender) sender
        (m.timed (.packet now datagram sender))) := by
  rw [handle]
  split
  · exact log_reacts _ _ _
  · rename_i id hid
    refine ensures_ite (fun _ => ensures_then fun empty => ?_) fun hme => ?_
    · cases empty with
      | true => exact ensures_ok.mpr (.inl (.none rfl))
      | false => exact log_reacts _ _ _
    · have hforeign : ¬ nodeMe m id := by
        rwa [nodeMe, ← (timed_moved m (.packet now datagram sender)).conf]
      split
      · exact log_reacts _ _ _
      · rename_i key hkey
        intro m' hm'
        obtain ⟨m₁, hput, hrest⟩ := exec_bind_eq_ok.mp hm'
        have hheard : Heard m (.packet now datagram sender) packet id key sender m₁ :=
          .packet hdec hid hforeign hkey hput
        have hback := nbhdPut_emits (Eq.refl sender) id m₁ hput
        split at hrest
        · rename_i q hq
          by_cases hreply : IsReply q
          · have hlisted : ∀ nodes, benSearchDictStr packet 'n' = some (.list nodes) →
                (readContacts nodes).length ≤ 24 := fun _ hn => hdec.listed hid hkey hq hn
            rcases reply_emitted hheard hq hreply hlisted m' hrest with
              hsame | ⟨⟨cache, hcache⟩, hemits⟩
            · exact .inl (hback.trans (k := 1) (.none hsame))
            · have hnamed : Emits 2 (fun sa => ∃ x, Names m _ x sa) _ m₁ :=
                nbhdPut_emits ⟨id, .sender hheard⟩ id m₁ hput
              refine .inr ⟨⟨key, packet, id, sender, m₁, cache, q, hheard, hq, hreply, hcache⟩, ?_⟩
              exact (hnamed.trans hemits).mono (by omega) fun _ h => h
          · exact .inl (hback.trans (request_emitted hreply rfl m' hrest))
        · exact .inl (hback.trans (log_emits 1 _ _ m' hrest))

/-- However a packet is made, at most three datagrams leave the node for it, back to its sender,
unless it is the reply to a request of the node: then at most seventy-five leave, only to the
sender and to nodes that the reply lists. -/
theorem packet_traffic (now : ℤ) (datagram : Bytes) (sender : Ip) (m : Main) :
    Ensures (m.step (.packet now datagram sender))
      (Reacts m (.packet now datagram sender) sender m) := by
  have hstep : Ensures (m.step (.packet now datagram sender))
      (Reacts m (.packet now datagram sender) sender
        (m.timed (.packet now datagram sender))) := by
    refine ensures_ite (fun hlen => ?_) fun hlen => ?_
    · rw [Main.timed, Event.clock, if_pos hlen]
      exact log_reacts _ _ _
    · have hhandle : ∀ packet, Decodes datagram packet → _ := fun packet hdec =>
        handle_reacts (m := m) now sender hdec
      rw [timed_packet sender hlen] at hhandle ⊢
      refine ensures_ite (fun _ => log_reacts _ _ _) fun _ => ?_
      intro m₁ hm₁
      obtain ⟨r, hvalid, hrest⟩ := exec_bind_eq_ok.mp hm₁
      cases r with
      | none => exact log_reacts _ _ _ m₁ hrest
      | some p =>
        obtain ⟨⟨packet, n⟩, hdec, hrest⟩ := exec_bind_eq_ok.mp hrest
        cases packet with
        | none => exact log_reacts _ _ _ m₁ hrest
        | some packet =>
          refine ensures_ite (fun _ => log_reacts _ _ _) (fun hdict => ?_) m₁ hrest
          exact hhandle packet ⟨hlen, ⟨p, hvalid⟩, ⟨n, hdec⟩, not_not.mp hdict⟩
  have hout : (m.timed (.packet now datagram sender)).out = m.out := by
    rw [Main.timed]
    split <;> rfl
  refine hstep.mono fun m' h => ?_
  rwa [Reacts, Emits, Emits, hout] at h

/-- Somebody new says hello. -/
def hello : Event :=
  .packet 1 (Message.datagram ⟨headId 5, headId 9, .ping⟩) (newNode (headId 5)).c_addr

/-- It answers the FIND that it has got with a node. -/
def oneNode : Event :=
  .packet 2 (Message.datagram ⟨headId 5, headId 1, .nodesFind
    [⟨headId 6, .replicate 16 6, .replicate 2 6⟩]⟩) (newNode (headId 5)).c_addr

/-- The PONG, a PING and a FIND go back, and another two datagrams to the node that is listed. -/
theorem packet_traffic_hello : ∃ m m₁ m₂,
    nodeRun ⟨headId 0xff, headId 0, none, none⟩ ⟨3, true⟩ 0
      (fun k => if k < 8 then some (headId k.toUInt8) else none) (fun _ => 0) [] = .ok m ∧
    m.step hello = .ok m₁ ∧ m₁.step oneNode = .ok m₂ ∧
    m.out.length = 0 ∧ m₁.out.length = 3 ∧ m₂.out.length = 5 ∧
    Reacts m hello (newNode (headId 5)).c_addr m m₁ ∧
    Reacts m₁ oneNode (newNode (headId 5)).c_addr m₁ m₂ := by
  have hcalc : (do
      let m ← nodeRun ⟨headId 0xff, headId 0, none, none⟩ ⟨3, true⟩ 0
        (fun k => if k < 8 then some (headId k.toUInt8) else none) (fun _ => 0) []
      let m₁ ← m.step hello
      let m₂ ← m₁.step oneNode
      return (m.out.length, m₁.out.length, m₂.out.length)) = .ok (0, 3, 5) := by decide +kernel
  obtain ⟨m, hrun, hcalc⟩ := exec_bind_eq_ok.mp hcalc
  obtain ⟨m₁, h₁, hcalc⟩ := exec_bind_eq_ok.mp hcalc
  obtain ⟨m₂, h₂, hcalc⟩ := exec_bind_eq_ok.mp hcalc
  simp only [exec_pure, Except.ok.injEq, Prod.mk.injEq] at hcalc
  exact ⟨m, m₁, m₂, hrun, h₁, h₂, hcalc.1, hcalc.2.1, hcalc.2.2,
    packet_traffic 1 _ _ m m₁ h₁, packet_traffic 2 _ _ m₁ m₂ h₂⟩

end Packets
end Masala.Daemon
