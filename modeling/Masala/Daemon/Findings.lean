import Masala.Daemon.Agreement
import Masala.Daemon.Hosts
import Masala.Container.Payloads

/-!
# What lookups find

If no random number is drawn twice in the network, a lookup id stands for one
target everywhere. Then the address that a lookup hands to its callback is that
of a node that has the target as its host id and wants to be found under it.
-/
namespace Masala.Daemon
open Library Container Bencode Routing Session

/-! ## The records of lookups and hosts -/

section Records
variable {m m' : Main} {P : Lookup → Prop}

theorem lkpDel_every (i : Ptr) (h : m.lkps.list.Every P) :
    Ensures (lkpDel i m) fun m' => m'.lkps.list.Every P := by
  intro m' hm'
  obtain ⟨l, -, hm'⟩ := exec_bind_eq_ok.mp hm'
  obtain ⟨hash, -, hm'⟩ := exec_bind_eq_ok.mp hm'
  obtain ⟨⟨list, q⟩, hdel, hm'⟩ := exec_bind_eq_ok.mp hm'
  obtain rfl := Except.ok.inj hm'
  exact h.del hdel

theorem lkpDel_call_every (i : Ptr) (l : Lookup) (node_id : Id) (address : Option (Octets 16))
    (h : m.lkps.list.Every P) : Ensures (lkpDel i (l.call node_id address m)) fun m' =>
      m'.lkps.list.Every P := by
  rw [Lookup.call_eq]
  exact lkpDel_every i h

theorem lkpSuccess_every (lkp_id node_id : Id) (address : Octets 16) (h : m.lkps.list.Every P) :
    Ensures (lkpSuccess lkp_id node_id address m) fun m' => m'.lkps.list.Every P := by
  refine ensures_then fun r => ?_
  cases r with
  | none => exact ensures_ok.mpr h
  | some i => exact ensures_then fun l => lkpDel_call_every i l.val node_id (some address) h

theorem lkpExpire_every (h : m.lkps.list.Every P) :
    Ensures (lkpExpire m) fun m' => m'.lkps.list.Every P := by
  have hloop : ∀ fuel item m, m.lkps.list.Every P →
      Ensures (lkpExpireLoop fuel item m) fun m' => m'.lkps.list.Every P := by
    intro fuel
    induction fuel with
    | zero =>
      intro item m h
      cases item with
      | none => exact ensures_ok.mpr h
      | some i => exact ensures_error
    | succ fuel ih =>
      intro item m h
      cases item with
      | none => exact ensures_ok.mpr h
      | some i =>
        refine ensures_then fun l => ensures_then fun next => ensures_ite (fun _ => ?_) fun _ => ?_
        · exact (lkpDel_call_every i l.val l.val.find_id none h).bind fun m₁ h₁ => ih next m₁ h₁
        · exact ih next m h
  exact hloop _ _ m h

/-- Assigning to a record behind any pointer, without a change of its key or of what `f` reads. -/
theorem registered_setVal {ρ γ : Type} {keyOf : ρ → Bytes} {r : Registry ρ} {xs : List (Ptr × ρ)}
    (h : Registered keyOf r xs) {p : Ptr} {it : ObjItem ρ} {w : ρ} {list : ObjList ρ}
    (hitem : r.list.item (some p) = .ok it) (hkey : keyOf w = keyOf it.val)
    (hset : r.list.setVal (some p) w = .ok list) (f : ρ → γ) (hf : f w = f it.val) :
    ∃ ws, Registered keyOf ⟨list, r.hash⟩ ws ∧
      ws.map (fun x => f x.2) = xs.map fun x => f x.2 := by
  by_cases hp : p ∈ xs.map Prod.fst
  · obtain ⟨⟨p, v⟩, hx, rfl⟩ := List.mem_map.mp hp
    obtain ⟨ys, zs, rfl⟩ := List.append_of_mem hx
    obtain rfl := Except.ok.inj (h.list.item_eq.symm.trans hitem)
    obtain ⟨list', hset', hreg⟩ := h.setVal hkey
    obtain rfl := Except.ok.inj (hset'.symm.trans hset)
    exact ⟨_, hreg, by simp [show f w = f v from hf]⟩
  · -- an item that the list does not lead to
    rw [ObjList.setVal, ObjList.write] at hset
    cases hmem : r.list.mem p with
    | none =>
      rw [hmem] at hset
      cases hset
    | some it =>
      rw [hmem] at hset
      cases hset
      have hframe : ∀ x ∈ xs, Function.update r.list.mem p (some { it with val := w }) x.1 =
          r.list.mem x.1 := by
        intro x hx
        refine Function.update_of_ne ?_ _ _
        rintro rfl
        exact hp (List.mem_map_of_mem hx)
      exact ⟨xs, ⟨⟨⟨h.list.seg.frame hframe, h.list.start, h.list.counter, h.list.nodup,
        h.list.fresh⟩, h.list.stop⟩, h.hash⟩, rfl⟩

/-- The pending lookups with a lookup id have the target that `Pending` says. -/
theorem Main.Pending.lookup {xs : List (Ptr × Lookup)} (hreg : Registered Lookup.key m.lkps xs)
    (hevery : m.lkps.list.Every P) {lkp_id find_id : Id} (h : m.Pending lkp_id find_id) :
    ∃ l, P l ∧ l.lkp_id = lkp_id ∧ l.find_id = find_id := by
  obtain ⟨i, l, hitem, hfind, hid⟩ := h
  refine ⟨l.val, hevery.item hitem, ?_, hfind⟩
  rcases hid with hid | hget
  · exact hid
  · rcases hreg.get_cases lkp_id.bytes with ⟨hnone, -⟩ | ⟨ys, p, v, zs, rfl, hkey, hsome⟩
    · cases hnone.symm.trans hget
    · obtain rfl := Option.some.inj (Except.ok.inj (hsome.symm.trans hget))
      obtain rfl := Except.ok.inj (hreg.list.item_eq.symm.trans hitem)
      exact lkpKey_eq_iff.mp hkey

/-- `lkp_success` calls back for the pending lookup with this id, if there is one. -/
theorem lkpSuccess_cases {xs : List (Ptr × Lookup)} (hreg : Registered Lookup.key m.lkps xs)
    {lkp_id node_id : Id} {address : Octets 16} (h : lkpSuccess lkp_id node_id address m = .ok m') :
    (∃ ys, Registered Lookup.key m'.lkps ys) ∧ ∀ c ∈ m'.calls, c ∈ m.calls ∨
      ∃ x ∈ xs, x.2.lkp_id = lkp_id ∧ x.2.search.answer node_id (some address) = some c := by
  rcases lkpGet_cases hreg lkp_id with ⟨hnone, -⟩ | ⟨ys, p, l, zs, rfl, rfl⟩
  · rw [lkpSuccess, hnone, exec_ok_bind] at h
    obtain rfl := Except.ok.inj h
    exact ⟨⟨xs, hreg⟩, fun c hc => .inl hc⟩
  · obtain ⟨lkps, hsuccess, hreg', -⟩ := lkpSuccess_eq hreg node_id address
    obtain rfl := Except.ok.inj (hsuccess.symm.trans h)
    refine ⟨⟨_, hreg'⟩, fun c hc => ?_⟩
    rcases List.mem_append.mp hc with hc | hc
    · exact .inl hc
    · exact .inr ⟨(p, l), by simp, rfl, Option.mem_toList.mp hc⟩

end Records

/-! ## What is said about hosts -/

section Says
variable {ι : Type} (sites : ι → Site)

/-- A node that wants to be found under this id has this address. -/
def Offers (find_id : Id) (address : Octets 16) : Prop :=
  ∃ j, (sites j).conf.hostname ≠ none ∧ (sites j).conf.host_id = find_id ∧
    (sites j).addr.addr = address

/-- No random number is drawn twice in the network. -/
structure FreshDraws : Prop where
  own : OwnDraws sites
  once : ∀ i k k' id, (sites i).urandom k = some id → (sites i).urandom k' = some id → k = k'

/-- A node announces itself. The address that it answers with is one for the target of the lookup,
and the lookup has been sent to it. -/
def Rightly (sent : ι → Set (Ip × Bytes)) (i : ι) (msg : Message) : Prop :=
  match msg.body with
  | .announce _ host_id => (sites i).conf.hostname ≠ none ∧ host_id = (sites i).conf.host_id
  | .value lkp_id address => ∃ j dest req find_id, (dest, Message.datagram req) ∈ sent j ∧
      (sites j).Draws req.session_id ∧ req.session_id = msg.session_id ∧
      req.body = .lookup lkp_id find_id ∧ Offers sites find_id address
  | _ => True

/-- What the node has looked up under the lookup ids that it has drawn. -/
structure Issued (past : List (ι × Happening ι)) (i : ι) (m : Main)
    (issued : Id → Option (Id × Option ℕ × ℕ)) : Prop where
  registered : ∃ xs, Registered Lookup.key m.lkps xs
  drawn : ∀ lkp_id, issued lkp_id ≠ none → ∃ k < m.reads, (sites i).urandom k = some lkp_id
  pending : m.lkps.list.Every fun l => issued l.lkp_id = some (l.find_id, l.callback, l.ctx)
  asked : ∀ d ∈ m.out, ∀ msg lkp_id find_id, d.2 = Message.datagram msg →
    msg.body = .lookup lkp_id find_id → ∃ s, issued lkp_id = some (find_id, s)
  past : ∀ lkp_id find_id callback ctx, issued lkp_id = some (find_id, some callback, ctx) →
    (i, .lookup callback ctx find_id) ∈ past

/-- The call answers a lookup of the node with an address for its target. -/
def Finds (past : List (ι × Happening ι)) (i : ι) (c : Call) : Prop :=
  ∀ address, c.address = some address → ∃ find_id,
    (i, .lookup c.callback c.ctx find_id) ∈ past ∧ Offers sites find_id address

structure Right (sent : ι → Set (Ip × Bytes)) (past : List (ι × Happening ι)) (i : ι) (m : Main) :
    Prop extends Fair sites sent past i m where
  right : ∀ d ∈ m.out, ∃ msg, d.2 = Message.datagram msg ∧ Rightly sites sent i msg
  hosts : ∃ ys, Registered Db.key m.database ys ∧
    ∀ y ∈ ys, Offers sites y.2.host_id y.2.c_addr.addr
  lookups : ∃ issued, Issued sites past i m issued
  calls : ∀ c ∈ m.calls, Finds sites past i c

/-- What an event brings to a node that was in the state `m₀` before it. -/
structure Brings (sent : ι → Set (Ip × Bytes)) (past : List (ι × Happening ι)) (i : ι) (m₀ : Main)
    (e : Event) : Prop where
  fairly : HearsFairly sites sent past i m₀ e
  rightly : ∀ packet id key sender m₁, Heard m₀ e packet id key sender m₁ → ∃ j dest req,
    (dest, Message.datagram req) ∈ sent j ∧ sender = (sites j).addr ∧ packet = req.tree ∧
    key = req.session_id ∧ (req.body.IsRequest → (sites j).Draws req.session_id) ∧
    Rightly sites sent j req
  accepts : ∀ packet id key, AcceptsReply m₀ e packet id key → (sites i).Draws key
  searches : ∀ callback ctx find_id, e = .lookup callback ctx find_id →
    (i, .lookup callback ctx find_id) ∈ past

end Says

/-! ## Effects -/

section Effects
variable {ι : Type} {sites : ι → Site} {sent sent' : ι → Set (Ip × Bytes)}
  {past past' : List (ι × Happening ι)} {i : ι} {m₀ m m' : Main} {e : Event} {eff : Effect}

/-- A message is the only one with its fields. -/
theorem Message.body_eq {msg : Message} {body : Body}
    (hq : benSearchDictStr msg.tree 'q' = some (.str [ch body.query]))
    (h : body.ReadIn msg.tree) : msg.body = body :=
  msg.readIn_tree.body.unique h (query_injective msg.readIn_tree.query hq)

theorem Rightly.mono {msg : Message} (h : Rightly sites sent i msg)
    (hsent : ∀ j, sent j ⊆ sent' j) : Rightly sites sent' i msg := by
  obtain ⟨node_id, session_id, body⟩ := msg
  cases body with
  | value lkp_id address =>
    obtain ⟨j, dest, req, find_id, hreq, hrest⟩ := h
    exact ⟨j, dest, req, find_id, hsent j hreq, hrest⟩
  | _ => exact h

theorem Finds.mono {c : Call} (h : Finds sites past i c) (hpast : past ⊆ past') :
    Finds sites past' i c := by
  intro address haddress
  obtain ⟨find_id, hlookup, hoffers⟩ := h address haddress
  exact ⟨find_id, hpast hlookup, hoffers⟩

theorem Right.mono (h : Right sites sent past i m) (hsent : ∀ j, sent j ⊆ sent' j)
    (hpast : past ⊆ past') : Right sites sent' past' i m := by
  refine ⟨h.toFair.mono hsent hpast, fun d hd => ?_, h.hosts, ?_, fun c hc => ?_⟩
  · obtain ⟨msg, hbytes, hmsg⟩ := h.right d hd
    exact ⟨msg, hbytes, hmsg.mono hsent⟩
  · obtain ⟨issued, hi⟩ := h.lookups
    exact ⟨issued, hi.registered, hi.drawn, hi.pending, hi.asked,
      fun lkp_id find_id callback ctx hl => hpast (hi.past lkp_id find_id callback ctx hl)⟩
  · exact (h.calls c hc).mono hpast

/-- The database only answers with addresses of hosts that want to be found. -/
theorem Right.address (h : Right sites sent past i m) {find_id : Id} {sa : Ip}
    (haddress : dbAddress find_id m = .ok (some sa)) : Offers sites find_id sa.addr := by
  obtain ⟨ys, hreg, hhosts⟩ := h.hosts
  obtain ⟨y, hy, rfl, rfl⟩ := dbAddress_entry hreg haddress
  exact hhosts y hy

theorem Right.message (h : Right sites sent past i m) (hw : Work m₀ e m eff m')
    (hb : Brings sites sent past i m₀ e) {x : Ip × Message} (hx : x ∈ eff.messages) :
    Rightly sites sent i x.2 := by
  obtain ⟨-, hsaid⟩ := hw.message hx
  obtain ⟨sa, node_id, session_id, body⟩ := x
  rcases hsaid with ⟨hwants, -⟩ | ⟨packet, id, m₁, hheard, hanswers⟩
  · cases body with
    | announce lkp_id host_id =>
      obtain ⟨rfl, hname⟩ := hwants
      rw [h.conf] at hname ⊢
      exact ⟨hname, rfl⟩
    | value lkp_id address => exact hwants.elim
    | _ => trivial
  · cases body with
    | value lkp_id address =>
      obtain ⟨hq, hl, find_id, sa', hf, haddress, rfl⟩ := hanswers
      obtain ⟨j, dest, req, hreq, -, rfl, rfl, hdraws, -⟩ := hb.rightly _ _ _ _ _ hheard
      have hbody : req.body = .lookup lkp_id find_id := Message.body_eq hq ⟨hf, hl⟩
      have hrequest : req.body.IsRequest := by
        rw [hbody]
        trivial
      exact ⟨j, dest, req, find_id, hreq, hdraws hrequest, rfl, hbody, h.address haddress⟩
    | announce lkp_id host_id => exact hanswers.elim
    | _ => trivial

theorem Right.hosts_work (h : Right sites sent past i m) (hw : Work m₀ e m eff m')
    (hb : Brings sites sent past i m₀ e) : ∃ ys, Registered Db.key m'.database ys ∧
    ∀ y ∈ ys, Offers sites y.2.host_id y.2.c_addr.addr := by
  obtain ⟨ys, hreg, hhosts⟩ := h.hosts
  cases hw with
  | host hheard hq hf hl hput hidle =>
    obtain ⟨j, dest, req, -, rfl, rfl, -, -, hright⟩ := hb.rightly _ _ _ _ _ hheard
    obtain ⟨ws, hreg', hws, -⟩ := dbPut_entries hreg hput
    refine ⟨ws, hreg', fun w hw => ?_⟩
    rcases hws w hw with ⟨hid, hsa, -⟩ | hold
    · -- the sender announces its own host id
      obtain ⟨node_id, session_id, body⟩ := req
      have hquery := query_injective (Message.readIn_tree ⟨node_id, session_id, body⟩).query hq
      cases body with
      | announce lkp_id host_id =>
        have hread := (Message.readIn_tree ⟨node_id, session_id, .announce lkp_id host_id⟩).body.1
        obtain rfl := Option.some.inj (hread.symm.trans hf)
        exact ⟨j, hright.1, by rw [hid, hright.2], by rw [hsa]⟩
      | _ => exact absurd hquery (by simp [Body.query])
    · exact hhosts w hold
  | hosts hexpire hidle =>
    obtain ⟨m₁, ws, hexpire', -, hreg', hsub, -⟩ := dbExpire_eq hreg
    obtain rfl := Except.ok.inj (hexpire'.symm.trans hexpire)
    exact ⟨ws, hreg', fun w hw => hhosts w (hsub.subset hw)⟩
  | idle hidle => exact ⟨ys, by rwa [hidle.database], hhosts⟩
  | success _ _ _ _ _ hidle => exact ⟨ys, by rwa [hidle.database], hhosts⟩
  | timeouts _ hidle => exact ⟨ys, by rwa [hidle.database], hhosts⟩
  | _ => exact ⟨ys, hreg, hhosts⟩

variable {issued : Id → Option (Id × Option ℕ × ℕ)}

/-- A pending lookup has been issued. -/
theorem Issued.lookup (h : Issued sites past i m issued) {xs : List (Ptr × Lookup)}
    (hreg : Registered Lookup.key m.lkps xs) {x : Ptr × Lookup} (hx : x ∈ xs) :
    issued x.2.lkp_id = some (x.2.find_id, x.2.callback, x.2.ctx) := by
  obtain ⟨p, l⟩ := x
  obtain ⟨ys, zs, rfl⟩ := List.append_of_mem hx
  exact h.pending.item hreg.list.item_eq

/-- The node only asks for what it has looked up. -/
theorem Issued.asked_work (h : Issued sites past i m issued) (hw : Work m₀ e m eff m') :
    ∀ d ∈ m'.out, ∀ msg lkp_id find_id, d.2 = Message.datagram msg →
      msg.body = .lookup lkp_id find_id → ∃ s, issued lkp_id = some (find_id, s) := by
  intro d hd msg lkp_id find_id hbytes hbody
  rcases hw.out_cases hd with hd | ⟨x, hx, -, hbytes'⟩
  · exact h.asked d hd msg lkp_id find_id hbytes hbody
  · obtain rfl := Message.datagram_injective (hbytes'.symm.trans hbytes)
    obtain ⟨-, hsaid⟩ := hw.message hx
    rw [hbody] at hsaid
    rcases hsaid with ⟨hwants, -⟩ | ⟨_, _, _, _, hanswers⟩
    · have hpending : m.Pending lkp_id find_id := hwants
      obtain ⟨xs, hreg⟩ := h.registered
      obtain ⟨l, hl, rfl, rfl⟩ := hpending.lookup hreg h.pending
      exact ⟨_, hl⟩
    · exact hanswers.elim

/-- A new lookup gets a lookup id that has not been issued. -/
theorem Issued.search (h : Issued sites past i m issued) (hw : Work m₀ e m eff m')
    {lkp_id find_id : Id} {callback : Option ℕ} {ctx : ℕ} {v : Lookup} {list : ObjList Lookup}
    {p : Ptr} {hash : ObjHash Ptr Ptr} (hnew : issued lkp_id = none)
    (hread : (sites i).urandom m.reads = some lkp_id) (hv : v.lkp_id = lkp_id)
    (hsearch : (v.find_id, v.callback, v.ctx) = (find_id, callback, ctx))
    (hlist : listPut m.lkps.list v = .ok (list, p))
    (hhash : hashPut (list.look Lookup.key) m.lkps.hash p SHA_DIGEST_LENGTH p = .ok hash)
    (hreads : m'.reads = m.reads + 1) (hlkps : m'.lkps = ⟨list, hash⟩)
    (hpast : ∀ c, callback = some c → (i, .lookup c ctx find_id) ∈ past) :
    Issued sites past i m' (Function.update issued lkp_id (some (find_id, callback, ctx))) := by
  have hother : ∀ id, issued id ≠ none → id ≠ lkp_id := by
    rintro id hid rfl
    exact hid hnew
  have hold : ∀ id r, issued id = some r →
      Function.update issued lkp_id (some (find_id, callback, ctx)) id = some r := by
    intro id r hr
    rw [Function.update_of_ne (hother id (by simp [hr])), hr]
  obtain ⟨xs, hreg⟩ := h.registered
  have hkeys : ∀ x ∈ xs, Lookup.key x.2 ≠ Lookup.key v := by
    intro x hx he
    refine hother x.2.lkp_id ?_ ?_
    · simp [h.lookup hreg hx]
    · rw [lkpKey_eq_iff.mp he, hv]
  refine ⟨?_, fun id hid => ?_, ?_, fun d hd msg id find_id' hbytes hbody => ?_, ?_⟩
  · obtain ⟨list', hash', hlist', hhash', hreg'⟩ := hreg.put hkeys
    have hsize : (Lookup.key v).length = SHA_DIGEST_LENGTH := v.lkp_id.size_eq
    obtain ⟨rfl, rfl⟩ := Prod.mk.inj (Except.ok.inj (hlist'.symm.trans hlist))
    rw [hsize] at hhash'
    obtain rfl := Except.ok.inj (hhash'.symm.trans hhash)
    exact ⟨_, by rwa [hlkps]⟩
  · by_cases he : id = lkp_id
    · exact ⟨m.reads, by rw [hreads]; exact Nat.lt_succ_self _, by rw [he, hread]⟩
    · rw [Function.update_of_ne he] at hid
      obtain ⟨k, hk, hdraw⟩ := h.drawn id hid
      exact ⟨k, by rw [hreads]; exact Nat.lt_succ_of_lt hk, hdraw⟩
  · rw [hlkps]
    have hevery : m.lkps.list.Every fun l =>
        Function.update issued lkp_id (some (find_id, callback, ctx)) l.lkp_id =
          some (l.find_id, l.callback, l.ctx) := fun q it hit => hold _ _ (h.pending q it hit)
    exact hevery.put (by rw [hv, hsearch, Function.update_self]) hlist
  · obtain ⟨s, hs⟩ := h.asked_work hw d hd msg id find_id' hbytes hbody
    exact ⟨s, hold _ _ hs⟩
  · intro id find_id' c ctx' hid
    by_cases he : id = lkp_id
    · rw [he, Function.update_self] at hid
      simp only [Option.some.injEq, Prod.mk.injEq] at hid
      obtain ⟨rfl, hc, rfl⟩ := hid
      exact hpast c hc
    · rw [Function.update_of_ne he] at hid
      exact h.past id find_id' c ctx' hid

/-- Effects that start no lookup. -/
theorem Issued.quiet (h : Issued sites past i m issued) (hw : Work m₀ e m eff m')
    (hreg : ∃ xs, Registered Lookup.key m'.lkps xs)
    (hpending : m'.lkps.list.Every fun l => issued l.lkp_id = some (l.find_id, l.callback, l.ctx)) :
    Issued sites past i m' issued := by
  refine ⟨hreg, fun id hid => ?_, hpending, h.asked_work hw, h.past⟩
  obtain ⟨k, hk, hdraw⟩ := h.drawn id hid
  exact ⟨k, Nat.lt_of_lt_of_le hk hw.random.2, hdraw⟩

theorem Issued.same (h : Issued sites past i m issued) (hw : Work m₀ e m eff m')
    (hlkps : m'.lkps = m.lkps) : Issued sites past i m' issued := by
  refine h.quiet hw ?_ ?_
  · rw [hlkps]
    exact h.registered
  · rw [hlkps]
    exact h.pending

theorem Right.lookups_work (h : Right sites sent past i m) (hw : Work m₀ e m eff m')
    (hb : Brings sites sent past i m₀ e) (hfresh : FreshDraws sites) :
    ∃ issued, Issued sites past i m' issued := by
  obtain ⟨issued, hi⟩ := h.lookups
  obtain ⟨xs, hreg⟩ := hi.registered
  have hw₀ := hw
  cases hw with
  | search hsearch hread hlist hhash =>
    rename_i lkp_id find_id callback ctx list p hash
    rw [h.urandom] at hread
    have hnew : issued lkp_id = none := by
      by_contra hne
      obtain ⟨k, hk, hdraw⟩ := hi.drawn lkp_id hne
      exact absurd (hfresh.once i k m.reads lkp_id hdraw hread) (Nat.ne_of_lt hk)
    have hpast : ∀ c, callback = some c → (i, .lookup c ctx find_id) ∈ past := by
      rintro c rfl
      cases e with
      | lookup callback ctx id =>
        cases hsearch
        exact hb.searches c ctx find_id rfl
      | search id => cases hsearch
      | packet now datagram sender => cases hsearch
      | cron now env => cases hsearch
    exact ⟨_, hi.search hw₀ hnew hread rfl rfl hlist hhash rfl rfl hpast⟩
  | remember hitem hlist =>
    rename_i p l asked list
    have hkey : Lookup.key { l.val with asked := asked } = Lookup.key l.val := rfl
    have hissued := hi.pending.item hitem
    refine ⟨issued, hi.quiet hw₀ ?_ ?_⟩
    · obtain ⟨ws, hreg', -⟩ := registered_setVal hreg hitem hkey hlist Lookup.key hkey
      exact ⟨ws, hreg'⟩
    · refine hi.pending.setVal ?_ hlist
      exact hissued
  | success _ _ _ _ hsuccess hidle =>
    refine ⟨issued, hi.quiet hw₀ ?_ ?_⟩
    · exact (lkpSuccess_cases hreg hsuccess).1
    · exact lkpSuccess_every _ _ _ hi.pending _ hsuccess
  | timeouts hexpire hidle =>
    obtain ⟨lkps, hexpire', hreg', -⟩ := lkpExpire_eq hreg
    refine ⟨issued, hi.quiet hw₀ ?_ ?_⟩
    · obtain rfl := Except.ok.inj (hexpire'.symm.trans hexpire)
      exact ⟨_, hreg'⟩
    · exact lkpExpire_every hi.pending _ hexpire
  | idle hidle => exact ⟨issued, hi.same hw₀ hidle.lkps⟩
  | host _ _ _ _ _ hidle => exact ⟨issued, hi.same hw₀ hidle.lkps⟩
  | hosts _ hidle => exact ⟨issued, hi.same hw₀ hidle.lkps⟩
  | _ => exact ⟨issued, hi.same hw₀ rfl⟩

theorem Search.answer_eq {l : Search} {node_id : Id} {address : Option (Octets 16)} {c : Call}
    (h : l.answer node_id address = some c) :
    l.callback = some c.callback ∧ l.ctx = c.ctx ∧ c.address = address := by
  obtain ⟨callback, hcallback, rfl⟩ := Option.map_eq_some_iff.mp h
  exact ⟨hcallback, rfl, rfl⟩

theorem Right.calls_work (h : Right sites sent past i m) (hw : Work m₀ e m eff m')
    (hb : Brings sites sent past i m₀ e) (hfresh : FreshDraws sites)
    (hsent : sent i ⊆ { d | d ∈ m.out }) : ∀ c ∈ m'.calls, Finds sites past i c := by
  intro c hc
  obtain ⟨issued, hi⟩ := h.lookups
  obtain ⟨xs, hreg⟩ := hi.registered
  cases hw with
  | success haccepts hq hl ha hsuccess hidle =>
    rcases (lkpSuccess_cases hreg hsuccess).2 c hc with hold | ⟨x, hx, rfl, hanswer⟩
    · exact h.calls c hold
    · -- the reply comes in a session of the node itself, so the node has asked for the target
      intro address haddress
      obtain ⟨hcallback, hctx, hc'⟩ := Search.answer_eq hanswer
      obtain rfl := Option.some.inj (hc'.symm.trans haddress)
      have hdraws := hb.accepts _ _ _ haccepts
      obtain ⟨sender, m₁, cache, hheard, -⟩ := haccepts
      obtain ⟨j, dest, req, -, -, rfl, rfl, -, hright⟩ := hb.rightly _ _ _ _ _ hheard
      have hbody : req.body = .value x.2.lkp_id _ := Message.body_eq hq ⟨ha, hl⟩
      rw [Rightly, hbody] at hright
      obtain ⟨k, dest', req', find_id, hreq, hdraws', hsession, hasks, hoffers⟩ := hright
      rw [hsession] at hdraws'
      obtain rfl := hfresh.own i k _ hdraws hdraws'
      obtain ⟨s, hs⟩ := hi.asked _ (hsent hreq) req' _ find_id rfl hasks
      have hissued := hi.lookup hreg hx
      obtain ⟨rfl, -⟩ := Prod.mk.inj (Option.some.inj (hs.symm.trans hissued))
      have hcb : x.2.callback = some c.callback := hcallback
      have hcx : x.2.ctx = c.ctx := hctx
      rw [hcb, hcx] at hissued
      exact ⟨_, hi.past _ _ _ _ hissued, hoffers⟩
  | timeouts hexpire hidle =>
    obtain ⟨lkps, hexpire', -⟩ := lkpExpire_eq hreg
    obtain rfl := Except.ok.inj (hexpire'.symm.trans hexpire)
    rcases List.mem_append.mp hc with hold | hlate
    · exact h.calls c hold
    · obtain ⟨x, -, hanswer⟩ := List.mem_filterMap.mp hlate
      intro address haddress
      cases (Search.answer_eq hanswer).2.2.symm.trans haddress
  | answer he haddress =>
    rcases List.mem_append.mp hc with hold | hnew
    · exact h.calls c hold
    · obtain rfl := List.mem_singleton.mp hnew
      intro address hsome
      obtain rfl := Option.some.inj hsome
      exact ⟨_, hb.searches _ _ _ he, h.address haddress⟩
  | idle hidle => exact h.calls c (hidle.calls ▸ hc)
  | host _ _ _ _ _ hidle => exact h.calls c (hidle.calls ▸ hc)
  | hosts _ hidle => exact h.calls c (hidle.calls ▸ hc)
  | _ => exact h.calls c hc

/-- Every effect keeps this, if no random number is drawn twice. -/
theorem Right.work (h : Right sites sent past i m) (hw : Work m₀ e m eff m')
    (hb : Brings sites sent past i m₀ e) (hfresh : FreshDraws sites)
    (hsent : sent i ⊆ { d | d ∈ m.out }) : Right sites sent past i m' := by
  refine ⟨h.toFair.work hw hb.fairly, fun d hd => ?_, h.hosts_work hw hb,
    h.lookups_work hw hb hfresh, h.calls_work hw hb hfresh hsent⟩
  rcases hw.out_cases hd with hold | ⟨x, hx, -, hbytes⟩
  · exact h.right d hold
  · exact ⟨x.2, hbytes, h.message hw hb hx⟩

end Effects

/-! ## Runs -/

section Runs
variable {ι : Type} {sites : ι → Site} {sent : ι → Set (Ip × Bytes)}
  {past : List (ι × Happening ι)} {i : ι} {m m' : Main} {hs : List (ι × Happening ι)}
  {net : ι → Main}

theorem Site.start_right (h : (sites i).start = .ok m) : Right sites sent past i m := by
  have hfair : Fair sites sent past i m := Site.start_fair h
  obtain ⟨t, -, h⟩ := exec_bind_eq_ok.mp h
  obtain rfl := Except.ok.inj h
  refine ⟨hfair, by simp, ⟨[], registered_init 4096, by simp⟩, ?_, by simp⟩
  exact ⟨fun _ => none, ⟨[], registered_init 4096⟩, by simp, every_init, by simp, by simp⟩

/-- What a datagram brings that a fair node has sent. -/
theorem Fair.brings (h : Fair sites sent past i m) {hap : Happening ι}
    (hgood : ∀ j d, hap.arrival = some (j, d) → d ∈ sent j ∧ SaysFairly sites sent past j d ∧
      ∃ msg, d.2 = Message.datagram msg ∧ Rightly sites sent j msg) :
    Brings sites sent (past ++ [(i, hap)]) i m (hap.event sites) := by
  have hfairly : ∀ j d, hap.arrival = some (j, d) → d ∈ sent j ∧ SaysFairly sites sent past j d :=
    fun j d ha => ⟨(hgood j d ha).1, (hgood j d ha).2.1⟩
  refine ⟨hearsFairly_deliver hfairly, ?_, ?_, ?_⟩
  · intro packet id key sender m₁ hheard
    cases hap with
    | deliver source now d =>
      obtain ⟨hd, ⟨req, hbytes, -, hsaid⟩, msg, hbytes', hright⟩ := hgood source d rfl
      obtain ⟨dest, datagram⟩ := d
      obtain rfl : datagram = req.datagram := hbytes
      obtain rfl := Message.datagram_injective hbytes'
      obtain ⟨rfl, -, rfl, rfl⟩ := hheard.message
      refine ⟨source, dest, req, hd, rfl, rfl, rfl, fun hrequest => ?_, hright⟩
      rcases hsaid with ⟨-, hdraws⟩ | ⟨_, _, _, _, _, _, _, _, hreplies⟩
      · exact hdraws
      · exact absurd hrequest hreplies.isRequest.2
    | cron now env => cases hheard
    | lookup callback ctx find_id => cases hheard
    | search find_id => cases hheard
  · rintro packet id key ⟨sender, m₁, cache, hheard, hvalid⟩
    exact (h.heard hap hheard hfairly).accepts hvalid
  · intro callback ctx find_id he
    cases hap with
    | lookup callback ctx find_id =>
      cases he
      exact List.mem_append_right past List.mem_cons_self
    | deliver source now d => cases he
    | cron now env => cases he
    | search find_id => cases he

/-- In every run of a network that draws no random number twice all nodes are right. -/
theorem Reached.right [DecidableEq ι] (h : Reached sites hs net) (hfresh : FreshDraws sites)
    (i : ι) : Right sites (fun j => { d | d ∈ (net j).out }) hs i (net i) := by
  obtain ⟨net₀, hstart, htrace⟩ := h
  let Good : (ι → Set (Ip × Bytes)) → List (ι × Happening ι) → ι → Ip × Bytes → Prop :=
    fun sent past i d => SaysFairly sites sent past i d ∧
      ∃ msg, d.2 = Message.datagram msg ∧ Rightly sites sent i msg
  have hmono : ∀ (sent sent' : ι → Set (Ip × Bytes)) (past past' : List (ι × Happening ι)) i m,
      (∀ j, sent j ⊆ sent' j) → past ⊆ past' → Right sites sent past i m →
      Right sites sent' past' i m := fun _ _ _ _ _ _ hsent hpast hm => hm.mono hsent hpast
  have hgood : ∀ sent past i m, Right sites sent past i m → ∀ d ∈ (p2pNetwork sites).sent m,
      Good sent past i d := fun _ _ _ _ hm d hd => ⟨hm.out d hd, hm.right d hd⟩
  refine Network.history hmono hgood ?_ htrace (fun i => Site.start_right (hstart i)) i
  intro sent past i m hap m' hstep hsent hreceived hm
  have hb : Brings sites sent (past ++ [(i, hap)]) i m (hap.event sites) :=
    hm.toFair.brings hreceived
  have hright : Right sites sent (past ++ [(i, hap)]) i m :=
    hm.mono (fun _ _ hd => hd) (List.subset_append_left _ _)
  -- all that the node has sent before the event stays sent
  have hkeep : ∀ m₁ eff m₂, Work m (hap.event sites) m₁ eff m₂ →
      Right sites sent (past ++ [(i, hap)]) i m₁ ∧ sent i ⊆ { d | d ∈ m₁.out } →
      Right sites sent (past ++ [(i, hap)]) i m₂ ∧ sent i ⊆ { d | d ∈ m₂.out } := by
    rintro m₁ eff m₂ hw ⟨h₁, hsub⟩
    exact ⟨h₁.work hw hb hfresh hsub, fun d hd => hw.out_subset (hsub hd)⟩
  refine ⟨fun d hd => step_sent hm.inOrder hstep hd, ?_⟩
  exact ((step_works hm.inOrder _ m' hstep).keeps hkeep ⟨hright, hsent.subset⟩).1

end Runs

/-- If no random number is drawn twice in the network, then in every run an address that a node
hands to a callback belongs to a lookup that the node was asked for with this callback, and a node
with the target of the lookup as its host id and with a hostname has this address. -/
theorem network_values {ι : Type} [DecidableEq ι] (sites : ι → Site) (hfresh : FreshDraws sites)
    (hs : List (ι × Happening ι)) (net : ι → Main) (h : Reached sites hs net) (i : ι) (c : Call)
    (hc : c ∈ (net i).calls) (address : Octets 16) (haddress : c.address = some address) :
    ∃ find_id, (i, .lookup c.callback c.ctx find_id) ∈ hs ∧ Offers sites find_id address :=
  (h.right hfresh i).calls c hc address haddress

theorem duo_freshDraws : FreshDraws duo := by
  have honce : ∀ b : Bool, ∀ k < 16, ∀ k' < 16,
      headId ((if b then 0x10 else 0x20) + k.toUInt8) =
        headId ((if b then 0x10 else 0x20) + k'.toUInt8) → k = k' := by decide
  refine ⟨duo_ownDraws, fun b k k' id hk hk' => ?_⟩
  obtain ⟨hlt, rfl⟩ := duo_draws hk
  obtain ⟨hlt', he⟩ := duo_draws hk'
  exact honce b k hlt k' hlt' he

/-- The node `true` announces itself to the other one. -/
def duoAnnounced : List (Bool × Happening Bool) :=
  duoAsks ++ [(true, .deliver false 1 ((duo true).addr, duoPong.datagram)),
    (true, .cron 2 ⟨.error "", true, fun _ => 1, true⟩),
    (false, .deliver true 2 ((duo false).addr,
      Message.datagram ⟨headId 0x01, headId 0x15, .announce (headId 0x14) (headId 0x02)⟩))]

/-- The other one then looks its host id up. -/
def duoFinds : List (Bool × Happening Bool) :=
  duoAnnounced ++ [(false, .lookup 7 8 (headId 0x02))]

/-- The callback gets the address. -/
theorem network_values_duo : ∃ net, duoAfter duoFinds = some net ∧
    (net false).calls = [⟨7, 8, headId 0x02, some (duo true).addr.addr⟩] ∧ ∃ find_id,
      (false, .lookup 7 8 find_id) ∈ duoFinds ∧ Offers duo find_id (duo true).addr.addr := by
  have hcalc : (duoAfter duoFinds).map (fun net => (net false).calls) =
      some [⟨7, 8, headId 0x02, some (duo true).addr.addr⟩] := by decide +kernel
  obtain ⟨net, hnet, hcalls⟩ := Option.map_eq_some_iff.mp hcalc
  refine ⟨net, hnet, hcalls, ?_⟩
  exact network_values duo duo_freshDraws duoFinds net (duo_reached hnet) false
    ⟨7, 8, headId 0x02, some (duo true).addr.addr⟩ (by simp [hcalls]) _ rfl

end Masala.Daemon
