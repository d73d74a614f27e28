import Masala.Daemon.Handling
import Masala.Daemon.Database
import Masala.Daemon.Lifetime

/-!
# The hosts of a run

What the database of a node answers after a run: a host has the address from
which it has been announced last, and keeps it until fifteen minutes later.
-/
namespace Masala.Daemon
open Library Container Bencode Routing Session

/-! ## Entries -/

section Entries
variable {m m' : Main} {ys : List (Ptr × Db)}

/-- The address of a host is that of its entry. -/
theorem dbAddress_entry (h : Registered Db.key m.database ys) {host_id : Id} {sa : Ip}
    (haddress : dbAddress host_id m = .ok (some sa)) :
    ∃ y ∈ ys, y.2.host_id = host_id ∧ y.2.c_addr = sa := by
  obtain ⟨r, hfind, haddress⟩ := exec_bind_eq_ok.mp haddress
  cases r with
  | none => cases haddress
  | some i =>
    obtain ⟨db, hitem, haddress⟩ := exec_bind_eq_ok.mp haddress
    rcases h.get_cases host_id.bytes with ⟨hget, -⟩ | ⟨as, p, v, bs, rfl, hkey, hget⟩
    · cases hget.symm.trans hfind
    · obtain rfl := Option.some.inj (Except.ok.inj (hget.symm.trans hfind))
      obtain rfl := Except.ok.inj (h.list.item_eq.symm.trans hitem)
      obtain rfl := Option.some.inj (Except.ok.inj haddress)
      exact ⟨(p, v), by simp, key_eq_iff.mp hkey, rfl⟩

/-- A host with an entry is found. -/
theorem dbAddress_present (h : Registered Db.key m.database ys) {y : Ptr × Db} (hy : y ∈ ys) :
    dbAddress y.2.host_id m = .ok (some y.2.c_addr) := by
  obtain ⟨p, db⟩ := y
  obtain ⟨as, bs, rfl⟩ := List.append_of_mem hy
  have hfind := dbFind_present h
  rw [dbAddress, hfind, exec_ok_bind]
  dsimp only
  rw [h.list.item_eq]
  rfl

theorem dbAddress_total (h : Registered Db.key m.database ys) (host_id : Id) :
    ∃ r, dbAddress host_id m = .ok r := by
  by_cases hy : ∃ y ∈ ys, y.2.host_id = host_id
  · obtain ⟨y, hy, rfl⟩ := hy
    exact ⟨_, dbAddress_present h hy⟩
  · exact ⟨none, (db_silent h fun y hmem he => hy ⟨y, hmem, he⟩).2.1⟩

/-- `db_put` of a host gives it the address and keeps the other hosts. -/
theorem dbPut_entries (h : Registered Db.key m.database ys) {host_id : Id} {sa : Ip}
    (hput : dbPut host_id sa m = .ok m') : ∃ ws, Registered Db.key m'.database ws ∧
      (∀ w ∈ ws, w.2.host_id = host_id ∧ w.2.c_addr = sa ∧ w.2.time_anno = timeAdd15Min m ∨
        w ∈ ys) ∧
      (∃ w ∈ ws, w.2 = ⟨host_id, sa, timeAdd15Min m⟩) ∧
      ∀ y ∈ ys, y.2.host_id ≠ host_id → y ∈ ws := by
  by_cases hknown : ∃ y ∈ ys, y.2.host_id = host_id
  · obtain ⟨⟨p, db⟩, hy, rfl⟩ := hknown
    obtain ⟨as, bs, rfl⟩ := List.append_of_mem hy
    obtain ⟨m₁, hput₁, -, hreg⟩ := dbPut_known h sa
    obtain rfl := Except.ok.inj (hput₁.symm.trans hput)
    refine ⟨_, hreg, fun w hw => ?_, ⟨_, List.mem_append_right as List.mem_cons_self, rfl⟩, ?_⟩
    · rcases List.mem_append.mp hw with hw | hw
      · exact .inr (by simp [hw])
      · rcases List.mem_cons.mp hw with rfl | hw
        · exact .inl ⟨rfl, rfl, rfl⟩
        · exact .inr (by simp [hw])
    · intro y hy hne
      rcases List.mem_append.mp hy with hy | hy
      · exact List.mem_append_left _ hy
      · rcases List.mem_cons.mp hy with rfl | hy
        · exact absurd rfl hne
        · exact List.mem_append_right as (List.mem_cons_of_mem _ hy)
  · have hne : ∀ y ∈ ys, y.2.host_id ≠ host_id := fun y hy he => hknown ⟨y, hy, he⟩
    obtain ⟨m₁, p, hput₁, -, hreg⟩ := dbPut_new h sa hne
    obtain rfl := Except.ok.inj (hput₁.symm.trans hput)
    refine ⟨_, hreg, fun w hw => ?_, ⟨_, List.mem_append_right ys List.mem_cons_self, rfl⟩, ?_⟩
    · rcases List.mem_append.mp hw with hw | hw
      · exact .inr hw
      · obtain rfl := List.mem_singleton.mp hw
        exact .inl ⟨rfl, rfl, rfl⟩
    · exact fun y hy _ => List.mem_append_left _ hy

end Entries

/-! ## Announcements -/

/-- The event is an ANNOUNCE of this host from a foreign node at this address, which arrives at
this time. -/
def Announces (own : Id) (e : Event) (host_id : Id) (sa : Ip) (now : ℤ) : Prop :=
  ∃ datagram packet id key lkp_id, e = .packet now datagram sa ∧ Decodes datagram packet ∧
    p2pIsHash (benSearchDictStr packet 'i') = some id ∧ ¬ nodeEqual id own ∧
    p2pIsHash (benSearchDictStr packet 'k') = some key ∧
    benSearchDictStr packet 'q' = some (.str [ch 'a']) ∧
    p2pIsHash (benSearchDictStr packet 'f') = some host_id ∧
    p2pIsHash (benSearchDictStr packet 'l') = some lkp_id

/-- The last of the events that announces the host does it from this address at this time, and
`post` comes after it. -/
def LastAnnounced (own host_id : Id) (events : List Event) (sa : Ip) (now : ℤ)
    (post : List Event) : Prop :=
  ∃ pre e, events = pre ++ e :: post ∧ Announces own e host_id sa now ∧
    ∀ e' ∈ post, ∀ sa' now', ¬ Announces own e' host_id sa' now'

section Announce
variable {own host_id : Id} {m m₀ m' : Main} {e : Event} {eff : Effect} {sa : Ip} {now : ℤ}
  {ys : List (Ptr × Db)} {events post : List Event}

theorem Announces.clock (h : Announces own e host_id sa now) : e.clock = some now := by
  obtain ⟨datagram, packet, -, -, -, rfl, hdec, -⟩ := h
  rw [Event.clock, if_neg hdec.received]

/-- A packet that has been heard announces a host if it is an ANNOUNCE with its fields. -/
theorem Heard.announces {packet : ObjBen} {id key lkp_id : Id} {m₁ : Main}
    (h : Heard m e packet id key sa m₁) (hq : benSearchDictStr packet 'q' = some (.str [ch 'a']))
    (hf : p2pIsHash (benSearchDictStr packet 'f') = some host_id)
    (hl : p2pIsHash (benSearchDictStr packet 'l') = some lkp_id) :
    ∃ now, Announces m.conf.node_id e host_id sa now := by
  cases h with
  | packet hdec hid hforeign hkey hput =>
    exact ⟨_, _, packet, id, key, lkp_id, rfl, hdec, hid, hforeign, hkey, hq, hf, hl⟩

theorem LastAnnounced.snoc (h : LastAnnounced own host_id events sa now post)
    (hne : ∀ sa' now', ¬ Announces own e host_id sa' now') :
    LastAnnounced own host_id (events ++ [e]) sa now (post ++ [e]) := by
  obtain ⟨pre, e₀, rfl, hannounces, hpost⟩ := h
  refine ⟨pre, e₀, by simp, hannounces, fun e' he' => ?_⟩
  rcases List.mem_append.mp he' with he' | he'
  · exact hpost e' he'
  · rwa [List.mem_singleton.mp he']

theorem LastAnnounced.last (h : Announces own e host_id sa now) :
    LastAnnounced own host_id (events ++ [e]) sa now [] :=
  ⟨events, e, rfl, h, by simp⟩

/-- The last event announces the host, or it has been announced before. -/
theorem LastAnnounced.of_snoc (h : LastAnnounced own host_id (events ++ [e]) sa now post) :
    Announces own e host_id sa now ∧ post = [] ∨
      (∀ sa' now', ¬ Announces own e host_id sa' now') ∧
        ∃ post₀, post = post₀ ++ [e] ∧ LastAnnounced own host_id events sa now post₀ := by
  obtain ⟨pre, e₀, heq, hannounces, hpost⟩ := h
  rcases List.eq_nil_or_concat post with rfl | ⟨post₀, e₁, rfl⟩
  · obtain ⟨-, hlast⟩ := List.append_inj' heq rfl
    obtain rfl := List.singleton_inj.mp hlast
    exact .inl ⟨hannounces, rfl⟩
  · rw [List.concat_eq_append, ← List.cons_append, ← List.append_assoc] at heq
    obtain ⟨rfl, hlast⟩ := List.append_inj' heq rfl
    obtain rfl := List.singleton_inj.mp hlast
    rw [List.concat_eq_append] at hpost ⊢
    exact .inr ⟨hpost e (by simp), post₀, rfl, pre, e₀, rfl, hannounces,
      fun e' he' => hpost e' (by simp [he'])⟩

/-- What an effect does with the entries: new ones are announced, and the others stay unless their
time has passed or their host is announced. -/
theorem Work.entries (hw : Work m₀ e m eff m') (h : Registered Db.key m.database ys) :
    ∃ ws, Registered Db.key m'.database ws ∧
      (∀ w ∈ ws, w ∈ ys ∨ ∃ now, Announces m₀.conf.node_id e w.2.host_id w.2.c_addr now) ∧
      ∀ y ∈ ys, y ∈ ws ∨ m.p2p.time_now > y.2.time_anno ∨
        ∃ sa now, Announces m₀.conf.node_id e y.2.host_id sa now := by
  have hsame : m'.database = m.database → ∃ ws, Registered Db.key m'.database ws ∧
      (∀ w ∈ ws, w ∈ ys ∨ ∃ now, Announces m₀.conf.node_id e w.2.host_id w.2.c_addr now) ∧
      ∀ y ∈ ys, y ∈ ws ∨ m.p2p.time_now > y.2.time_anno ∨
        ∃ sa now, Announces m₀.conf.node_id e y.2.host_id sa now := by
    intro hdb
    exact ⟨ys, by rwa [hdb], fun w hw => .inl hw, fun y hy => .inl hy⟩
  cases hw with
  | host hheard hq hf hl hput hidle =>
    rename_i packet id key host_id lkp_id sender m₁
    obtain ⟨now, hannounces⟩ := hheard.announces hq hf hl
    obtain ⟨ws, hreg, hnew, -, hkept⟩ := dbPut_entries h hput
    refine ⟨ws, hreg, fun w hw => ?_, fun y hy => ?_⟩
    · rcases hnew w hw with ⟨rfl, rfl, -⟩ | hold
      · exact .inr ⟨now, hannounces⟩
      · exact .inl hold
    · by_cases hy' : y.2.host_id = host_id
      · subst hy'
        exact .inr (.inr ⟨sender, now, hannounces⟩)
      · exact .inl (hkept y hy hy')
  | hosts hexpire hidle =>
    obtain ⟨m₁, ws, hexpire', -, hreg, hsub, hkept⟩ := dbExpire_eq h
    obtain rfl := Except.ok.inj (hexpire'.symm.trans hexpire)
    refine ⟨ws, hreg, fun w hw => .inl (hsub.subset hw), fun y hy => ?_⟩
    by_cases hlate : m.p2p.time_now > y.2.time_anno
    · exact .inr (.inl hlate)
    · exact .inl (hkept y hy (Int.not_lt.mp hlate))
  | idle hidle => exact hsame hidle.database
  | success _ _ _ _ _ hidle => exact hsame hidle.database
  | timeouts _ hidle => exact hsame hidle.database
  | _ => exact hsame rfl

/-- What an event does with the entries. -/
theorem step_entries (hm : InOrder m) (h : Registered Db.key m.database ys)
    (hstep : m.step e = .ok m') : ∃ ws, Registered Db.key m'.database ws ∧
      (∀ w ∈ ws, w ∈ ys ∨ ∃ now, Announces m.conf.node_id e w.2.host_id w.2.c_addr now) ∧
      ∀ y ∈ ys, y ∈ ws ∨ (∃ now, (now = m.p2p.time_now ∨ e.clock = some now) ∧
        now > y.2.time_anno) ∨ ∃ sa now, Announces m.conf.node_id e y.2.host_id sa now := by
  let Inv : Main → Prop := fun m₁ =>
    (m₁.p2p.time_now = m.p2p.time_now ∨ e.clock = some m₁.p2p.time_now) ∧
    ∃ ws, Registered Db.key m₁.database ws ∧
      (∀ w ∈ ws, w ∈ ys ∨ ∃ now, Announces m.conf.node_id e w.2.host_id w.2.c_addr now) ∧
      ∀ y ∈ ys, y ∈ ws ∨ (∃ now, (now = m.p2p.time_now ∨ e.clock = some now) ∧
        now > y.2.time_anno) ∨ ∃ sa now, Announces m.conf.node_id e y.2.host_id sa now
  have hkeep : ∀ m₁ eff m₂, Work m e m₁ eff m₂ → Inv m₁ → Inv m₂ := by
    rintro m₁ eff m₂ hw ⟨hclock, ws, hreg, hnew, hold⟩
    refine ⟨?_, ?_⟩
    · rcases hw.clock with hsame | htick
      · rwa [hsame]
      · exact .inr htick
    · obtain ⟨vs, hreg', hnew', hold'⟩ := hw.entries hreg
      refine ⟨vs, hreg', fun v hv => ?_, fun y hy => ?_⟩
      · rcases hnew' v hv with hv | hannounces
        · exact hnew v hv
        · exact .inr hannounces
      · rcases hold y hy with hy | hgone
        · rcases hold' y hy with hy | hlate | hannounces
          · exact .inl hy
          · exact .inr (.inl ⟨_, hclock, hlate⟩)
          · exact .inr (.inr hannounces)
        · exact .inr hgone
  have hstart : Inv m := ⟨.inl rfl, ys, h, fun w hw => .inl hw, fun y hy => .inl hy⟩
  exact ((step_works hm e m' hstep).keeps hkeep hstart).2

/-- `p2p_decode` up to the `switch`, which comes after `nbhd_put`. -/
theorem Decodes.step {datagram : Bytes} {packet : ObjBen} {id key : Id} {q : UInt8}
    (h : Decodes datagram packet) (hid : p2pIsHash (benSearchDictStr packet 'i') = some id)
    (hforeign : ¬ nodeMe m id) (hkey : p2pIsHash (benSearchDictStr packet 'k') = some key)
    (hq : benSearchDictStr packet 'q' = some (.str [q])) :
    m.step (.packet now datagram sa) =
      nbhdPut id sa (m.tick now) >>= dispatch q packet id key sa := by
  cases hput : nbhdPut id sa (m.tick now) with
  | ok m₁ =>
    have hput' : nbhdPut id sa (m.timed (.packet now datagram sa)) = .ok m₁ := by
      rwa [timed_packet sa h.received]
    rw [(Heard.packet h hid hforeign hkey hput').step hq, exec_ok_bind]
  | error err =>
    obtain ⟨hlen, ⟨p, hvalid⟩, ⟨n, hpacket⟩, hdict⟩ := h
    have hme : ¬ nodeMe (m.tick now) id := hforeign
    have hsize : ¬ (datagram.take UDP_BUF).length < 1 := by omega
    rw [Main.step, udpInput, if_neg hlen, p2pParse, if_neg hsize, hvalid, exec_ok_bind]
    dsimp only
    rw [p2pDecode, hpacket, exec_ok_bind]
    dsimp only
    rw [if_neg (not_not.mpr hdict), handle, hid]
    dsimp only
    rw [if_neg hme, hkey]
    dsimp only
    rw [hput]
    rfl

theorem nbhdSend_database {sender : Ip} {target key : Id} {lkp : Option Id} {type : ReplyType} :
    Ensures (nbhdSend sender target lkp key type m) fun m' => m'.database = m.database := by
  refine ensures_then fun r => ?_
  cases r with
  | none => exact ensures_ok.mpr rfl
  | some i =>
    refine ensures_then fun b => ensures_then fun dict => ?_
    rw [sendDict_eq, exec_ok_bind, Main.emit_eq]
    exact ensures_ok.mpr rfl

/-- Effects keep list and hash of the database together. -/
theorem Works.registered (hw : Works m₀ e m m') (h : Registered Db.key m.database ys) :
    ∃ ws, Registered Db.key m'.database ws := by
  have hkeep : ∀ m₁ eff m₂, Work m₀ e m₁ eff m₂ → (∃ vs, Registered Db.key m₁.database vs) →
      ∃ vs, Registered Db.key m₂.database vs := by
    rintro m₁ eff m₂ hw ⟨vs, hreg⟩
    obtain ⟨us, hreg', -⟩ := hw.entries hreg
    exact ⟨us, hreg'⟩
  exact hw.keeps hkeep ⟨ys, h⟩

/-- A host that is announced has the address of the announcement right after it. -/
theorem Announces.entry (h : Announces m.conf.node_id e host_id sa now) (hm : InOrder m)
    (hreg : Registered Db.key m.database ys) (hstep : m.step e = .ok m') :
    ∃ ws, Registered Db.key m'.database ws ∧
      ∃ w ∈ ws, w.2 = ⟨host_id, sa, now + TIME_15_MINUTES⟩ := by
  obtain ⟨datagram, packet, id, key, lkp_id, rfl, hdec, hid, hforeign, hkey, hq, hf, hl⟩ := h
  rw [hdec.step hid hforeign hkey hq] at hstep
  obtain ⟨m₁, hput, hstep⟩ := exec_bind_eq_ok.mp hstep
  have hdispatch : dispatch (ch 'a') packet id key sa m₁ = p2pAnnounce packet key sa m₁ := rfl
  rw [hdispatch, p2pAnnounce, hf] at hstep
  dsimp only at hstep
  rw [hl] at hstep
  obtain ⟨m₂, hdb, hsend⟩ := exec_bind_eq_ok.mp hstep
  have hheard : Heard m (.packet now datagram sa) packet id key sa m₁ :=
    .packet hdec hid hforeign hkey (by rwa [timed_packet sa hdec.received])
  have hworks : Works m (.packet now datagram sa) (m.tick now) m₁ :=
    nbhdPut_works (m := m.tick now) hm (.sender hheard) m₁ hput
  obtain ⟨ys₁, hreg₁⟩ := hworks.registered (m := m.tick now) hreg
  have hclock : m₁.p2p.time_now = now := (nbhdPut_beside id sa (m.tick now) m₁ hput).clock
  obtain ⟨ws, hreg₂, -, ⟨w, hw, hentry⟩, -⟩ := dbPut_entries hreg₁ hdb
  rw [timeAdd15Min, hclock] at hentry
  exact ⟨ws, by rwa [nbhdSend_database m' hsend], w, hw, hentry⟩

end Announce

/-! ## Runs -/

/-- The database after these events of a node with this id. -/
structure HostTable (own : Id) (events : List Event) (m : Main) (ys : List (Ptr × Db)) : Prop where
  inOrder : InOrder m
  node_id : m.conf.node_id = own
  registered : Registered Db.key m.database ys
  announced : ∀ y ∈ ys, ∃ now post, LastAnnounced own y.2.host_id events y.2.c_addr now post
  kept : ∀ host_id sa now post, LastAnnounced own host_id events sa now post →
    (∀ e ∈ post, ∀ t, e.clock = some t → t ≤ now + TIME_15_MINUTES) →
      m.p2p.time_now ≤ now + TIME_15_MINUTES ∧
        ∃ y ∈ ys, y.2 = ⟨host_id, sa, now + TIME_15_MINUTES⟩

section Run
variable {own : Id} {events : List Event} {m m' : Main} {ys : List (Ptr × Db)} {e : Event}

/-- A host has one entry. -/
theorem entry_unique (h : Registered Db.key m.database ys) {y w : Ptr × Db} (hy : y ∈ ys)
    (hw : w ∈ ys) (heq : y.2.host_id = w.2.host_id) : y = w :=
  List.inj_on_of_nodup_map (host_ids_nodup h) hy hw heq

theorem timed_le {t : ℤ} (hm : m.p2p.time_now ≤ t) (he : ∀ now, e.clock = some now → now ≤ t) :
    (m.timed e).p2p.time_now ≤ t := by
  rw [Main.timed]
  cases hc : e.clock with
  | none => exact hm
  | some now => exact he now hc

theorem HostTable.step (h : HostTable own events m ys) (hstep : m.step e = .ok m') :
    ∃ ws, HostTable own (events ++ [e]) m' ws := by
  have hclock := step_clock h.inOrder e m' hstep
  have hmoved := step_moved h.inOrder e m' hstep
  obtain ⟨ws, hreg, hnew, hold⟩ := step_entries h.inOrder h.registered hstep
  rw [h.node_id] at hnew hold
  have hannounced : ∀ host_id sa now, Announces own e host_id sa now →
      ∃ w ∈ ws, w.2 = ⟨host_id, sa, now + TIME_15_MINUTES⟩ := by
    intro host_id sa now ha
    rw [← h.node_id] at ha
    obtain ⟨vs, hreg', hentry⟩ := ha.entry h.inOrder h.registered hstep
    obtain rfl := hreg'.list.toLinked.unique hreg.list.toLinked
    exact hentry
  refine ⟨ws, hmoved.inOrder h.inOrder, hmoved.conf ▸ h.node_id, hreg, fun w hw => ?_, ?_⟩
  · by_cases ha : ∃ sa now, Announces own e w.2.host_id sa now
    · obtain ⟨sa, now, ha⟩ := ha
      obtain ⟨v, hv, hentry⟩ := hannounced _ _ _ ha
      obtain rfl := entry_unique hreg hv hw (by rw [hentry])
      rw [hentry]
      rw [hentry] at ha
      exact ⟨now, [], .last ha⟩
    · simp only [not_exists] at ha
      rcases hnew w hw with hw | ⟨now, hw⟩
      · obtain ⟨now, post, hlast⟩ := h.announced w hw
        exact ⟨now, post ++ [e], hlast.snoc ha⟩
      · exact absurd hw (ha _ now)
  · intro host_id sa now post hlast hpost
    rcases hlast.of_snoc with ⟨ha, rfl⟩ | ⟨hne, post₀, rfl, hlast₀⟩
    · have htimed : (m.timed e).p2p.time_now = now := by
        rw [Main.timed, ha.clock]
        rfl
      rw [hclock, htimed, TIME_15_MINUTES]
      exact ⟨by omega, hannounced _ _ _ ha⟩
    · have hpost₀ : ∀ e' ∈ post₀, ∀ t, e'.clock = some t → t ≤ now + TIME_15_MINUTES :=
        fun e' he' => hpost e' (by simp [he'])
      have he : ∀ t, e.clock = some t → t ≤ now + TIME_15_MINUTES := hpost e (by simp)
      obtain ⟨hm, y, hy, hentry⟩ := h.kept host_id sa now post₀ hlast₀ hpost₀
      refine ⟨by rw [hclock]; exact timed_le hm he, y, ?_, hentry⟩
      rcases hold y hy with hy | ⟨t, ht, hlate⟩ | ⟨sa', now', ha⟩
      · exact hy
      · -- the time of the entry has not passed
        rw [hentry] at hlate
        rcases ht with rfl | ht
        · exact absurd hm (Int.not_le.mpr hlate)
        · exact absurd (he t ht) (Int.not_le.mpr hlate)
      · rw [hentry] at ha
        exact absurd ha (hne sa' now')

/-- The database answers for every host with the last announcement. -/
theorem HostTable.answers (h : HostTable own events m ys) (host_id : Id) :
    ∃ r, dbAddress host_id m = .ok r ∧
      (∀ sa, r = some sa → ∃ now post, LastAnnounced own host_id events sa now post) ∧
      ∀ sa now post, LastAnnounced own host_id events sa now post →
        (∀ e ∈ post, ∀ t, e.clock = some t → t ≤ now + TIME_15_MINUTES) → r = some sa := by
  obtain ⟨r, hr⟩ := dbAddress_total h.registered host_id
  refine ⟨r, hr, ?_, fun sa now post hlast hpost => ?_⟩
  · rintro sa rfl
    obtain ⟨y, hy, rfl, rfl⟩ := dbAddress_entry h.registered hr
    exact h.announced y hy
  · obtain ⟨-, y, hy, hentry⟩ := h.kept host_id sa now post hlast hpost
    have haddress := dbAddress_present h.registered hy
    rw [hentry] at haddress
    exact Except.ok.inj (hr.symm.trans haddress)

/-- A host that is not known has announced itself last more than fifteen minutes ago. -/
theorem HostTable.unknown (h : HostTable own events m ys) {host_id : Id}
    (hnone : dbAddress host_id m = .ok none) {sa : Ip} {now : ℤ} {post : List Event}
    (hlast : LastAnnounced own host_id events sa now post) :
    ∃ e ∈ post, ∃ later, e.clock = some later ∧ now + 900 < later := by
  obtain ⟨r, hr, -, hkept⟩ := h.answers host_id
  obtain rfl := Except.ok.inj (hnone.symm.trans hr)
  by_contra hno
  have hfresh : ∀ e ∈ post, ∀ later, e.clock = some later → later ≤ now + TIME_15_MINUTES := by
    intro e he later hclock
    by_contra hlate
    exact hno ⟨e, he, later, hclock, Int.not_le.mp hlate⟩
  cases hkept sa now post hlast hfresh

/-- The database at the end of a run. -/
theorem nodeRun_hosts {conf : Conf} {udp : Udp} {time_now : ℤ} {urandom : ℕ → Option Id}
    {random : ℕ → ℕ} (hrun : nodeRun conf udp time_now urandom random events = .ok m) :
    ∃ ys, HostTable conf.node_id events m ys := by
  obtain ⟨m₀, hinit, hrun⟩ := exec_bind_eq_ok.mp hrun
  obtain ⟨hconf, hm₀, -⟩ := mainInit_ensures _ _ _ _ _ m₀ hinit
  have hstart : ∃ ys, HostTable conf.node_id [] m₀ ys := by
    obtain ⟨t, -, hinit⟩ := exec_bind_eq_ok.mp hinit
    obtain rfl := Except.ok.inj hinit
    refine ⟨[], hm₀, rfl, registered_init 4096, by simp, ?_⟩
    rintro host_id sa now post ⟨pre, e, hnil, -⟩
    simp at hnil
  have hstep : ∀ done e rest m, events = done ++ e :: rest →
      (∃ ys, HostTable conf.node_id done m ys) →
      Ensures (Main.step m e) fun m' => ∃ ys, HostTable conf.node_id (done ++ [e]) m' ys := by
    rintro done e rest m - ⟨ys, h⟩ m' hm'
    exact h.step hm'
  exact ensures_foldlM_history hstep hstart m hrun

end Run

/-- In every run of a node its database answers for every host. The address it gives is that of
the last ANNOUNCE of the host that has come from a foreign node, and it gives it until the clock
has passed fifteen minutes after this ANNOUNCE. -/
theorem node_database (conf : Conf) (udp : Udp) (time_now : ℤ) (urandom : ℕ → Option Id)
    (random : ℕ → ℕ) (events : List Event) (m : Main)
    (hrun : nodeRun conf udp time_now urandom random events = .ok m) (host_id : Id) :
    ∃ r, dbAddress host_id m = .ok r ∧
      (∀ sa, r = some sa → ∃ now post, LastAnnounced conf.node_id host_id events sa now post) ∧
      ∀ sa now post, LastAnnounced conf.node_id host_id events sa now post →
        (∀ e ∈ post, ∀ t, e.clock = some t → t ≤ now + 900) → r = some sa := by
  obtain ⟨ys, h⟩ := nodeRun_hosts hrun
  exact h.answers host_id

/-- An ANNOUNCE of the host `headId 2`. -/
def firstAnnounce : Event :=
  .packet 1 (Message.datagram ⟨headId 1, headId 9, .announce (headId 8) (headId 2)⟩)
    (newNode (headId 0)).c_addr

/-- A node that hears of one host. -/
theorem node_database_one : ∃ m, nodeRun ⟨headId 0xff, headId 0, none, none⟩ ⟨3, true⟩ 0
      (fun k => some (headId k.toUInt8)) (fun _ => 0) [firstAnnounce, cronAt 900] = .ok m ∧
    dbAddress (headId 2) m = .ok (some (newNode (headId 0)).c_addr) ∧ ∃ now post,
      LastAnnounced (headId 0xff) (headId 2) [firstAnnounce, cronAt 900]
        (newNode (headId 0)).c_addr now post := by
  have hcalc : (nodeRun ⟨headId 0xff, headId 0, none, none⟩ ⟨3, true⟩ 0
      (fun k => some (headId k.toUInt8)) (fun _ => 0) [firstAnnounce, cronAt 900] >>=
      dbAddress (headId 2)) = .ok (some (newNode (headId 0)).c_addr) := by decide +kernel
  obtain ⟨m, hrun, haddress⟩ := exec_bind_eq_ok.mp hcalc
  obtain ⟨r, hr, hsound, -⟩ := node_database _ _ _ _ _ _ m hrun (headId 2)
  exact ⟨m, hrun, haddress, hsound _ (Except.ok.inj (hr.symm.trans haddress))⟩

end Masala.Daemon
