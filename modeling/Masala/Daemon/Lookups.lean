import Masala.Daemon.Asking
import Masala.Daemon.Turns

/-!
# What a step does with the lookups

List and hash of `_main->lkps` describe the same pending lookups. A step adds
one, adds a node to those that one has asked, ends one with an address, ends
those whose time has passed, or leaves them alone.
-/
namespace Masala.Daemon
open Library Container Bencode Routing Session

/-- A lookup without the nodes it has asked. -/
structure Search where
  find_id : Id
  lkp_id : Id
  callback : Option ℕ
  ctx : ℕ
  time_find : ℤ
deriving DecidableEq

def Lookup.search (l : Lookup) : Search := ⟨l.find_id, l.lkp_id, l.callback, l.ctx, l.time_find⟩

/-- The call of the callback, if there is one. -/
def Search.answer (l : Search) (node_id : Id) (address : Option (Octets 16)) : Option Call :=
  l.callback.map fun callback => ⟨callback, l.ctx, node_id, address⟩

/-- The time of the lookup has passed. -/
def Search.timedOut (now : ℤ) (l : Search) : Bool := decide (now > l.time_find)

/-- The calls of `lkp_expire` for the lookups it meets. -/
def timeouts (now : ℤ) (xs : List (Ptr × Lookup)) : List Call :=
  (xs.filter fun x => x.2.search.timedOut now).filterMap fun x => x.2.search.answer x.2.find_id none

/-- The pending lookups are `xs`, and each has a well-formed set of asked nodes. -/
structure Looking (m : Main) (xs : List (Ptr × Lookup)) : Prop where
  registered : Registered Lookup.key m.lkps xs
  asks : ∀ x ∈ xs, ∃ ids, Asks x.2.asked ids

/-! ## The operations -/

section Operations
variable {m : Main} {xs ys zs : List (Ptr × Lookup)} {p : Ptr} {l : Lookup}

theorem lkpKey_eq_iff {lkp_id : Id} : Lookup.key l = lkp_id.bytes ↔ l.lkp_id = lkp_id :=
  Octets.bytes_injective

theorem Lookup.call_eq (l : Lookup) (node_id : Id) (address : Option (Octets 16)) (m : Main) :
    l.call node_id address m =
      { m with calls := m.calls ++ (l.search.answer node_id address).toList } := by
  rw [Lookup.call, Search.answer, Lookup.search]
  cases l.callback with
  | none => simp
  | some callback => rfl

/-- A lookup id belongs to one pending lookup, or to none. -/
theorem lkpGet_cases (h : Registered Lookup.key m.lkps xs) (lkp_id : Id) :
    (hashGet (m.lkps.list.look Lookup.key) m.lkps.hash lkp_id.bytes = .ok none ∧
      ∀ x ∈ xs, x.2.lkp_id ≠ lkp_id) ∨
    ∃ ys p l zs, xs = ys ++ (p, l) :: zs ∧ l.lkp_id = lkp_id := by
  rcases h.get_cases lkp_id.bytes with ⟨hget, hne⟩ | ⟨ys, p, l, zs, rfl, hkey, -⟩
  · exact .inl ⟨hget, fun x hx he => hne x hx (lkpKey_eq_iff.mpr he)⟩
  · exact .inr ⟨ys, p, l, zs, rfl, lkpKey_eq_iff.mp hkey⟩

theorem lkpDel_eq (h : Registered Lookup.key m.lkps (ys ++ (p, l) :: zs)) :
    ∃ lkps, lkpDel p m = .ok { m with lkps := lkps } ∧ Registered Lookup.key lkps (ys ++ zs) ∧
      lkps.list.fresh = m.lkps.list.fresh := by
  obtain ⟨list, hash, hhash, hlist, hreg⟩ := h.del
  have hkey : hashDel (m.lkps.list.look Lookup.key) m.lkps.hash l.lkp_id.bytes = .ok hash := hhash
  refine ⟨⟨list, hash⟩, ?_, hreg, listDel_fresh hlist⟩
  rw [lkpDel, h.list.item_eq, exec_ok_bind]
  dsimp only
  rw [hkey, exec_ok_bind, hlist]
  rfl

theorem timeouts_cons_late {now : ℤ} (zs : List (Ptr × Lookup)) (h : l.search.timedOut now = true) :
    timeouts now ((p, l) :: zs) =
      (l.search.answer l.find_id none).toList ++ timeouts now zs := by
  simp only [timeouts, List.filter_cons, h, if_true, List.filterMap_cons]
  cases l.search.answer l.find_id none <;> rfl

theorem timeouts_cons_early {now : ℤ} (zs : List (Ptr × Lookup))
    (h : l.search.timedOut now = false) : timeouts now ((p, l) :: zs) = timeouts now zs := by
  simp only [timeouts, List.filter_cons, h, if_false, Bool.false_eq_true]

/-- The walk stands in front of the lookups `zs` and has kept `ys`. -/
theorem lkpExpireLoop_eq (fuel : ℕ) (m : Main) (ys zs : List (Ptr × Lookup))
    (h : Registered Lookup.key m.lkps (ys ++ zs)) (hf : zs.length ≤ fuel) :
    ∃ lkps, lkpExpireLoop fuel (firstPtr zs none) m = .ok { m with
        lkps := lkps
        calls := m.calls ++ timeouts m.p2p.time_now zs } ∧
      Registered Lookup.key lkps
        (ys ++ zs.filter fun x => !x.2.search.timedOut m.p2p.time_now) ∧
      lkps.list.fresh = m.lkps.list.fresh := by
  induction zs generalizing fuel m ys with
  | nil =>
    refine ⟨m.lkps, ?_, h, rfl⟩
    rw [firstPtr_nil, lkpExpireLoop, timeouts, List.filter_nil, List.filterMap_nil,
      List.append_nil]
  | cons z zs ih =>
    obtain ⟨p, l⟩ := z
    obtain ⟨fuel, rfl⟩ := Nat.exists_eq_add_one_of_ne_zero (Nat.ne_zero_of_lt hf)
    rw [firstPtr_cons, lkpExpireLoop, h.list.item_eq, exec_ok_bind, h.list.next_eq, exec_ok_bind]
    by_cases hlate : m.p2p.time_now > l.time_find
    · have hout : l.search.timedOut m.p2p.time_now = true := decide_eq_true hlate
      let m₁ : Main := { m with
        calls := m.calls ++ (l.search.answer l.find_id none).toList }
      have h₁ : Registered Lookup.key m₁.lkps (ys ++ (p, l) :: zs) := h
      obtain ⟨lkps, hdel, hreg, hfresh⟩ := lkpDel_eq h₁
      obtain ⟨lkps', hloop, hreg', hfresh'⟩ := ih fuel { m₁ with lkps := lkps } ys hreg
        (Nat.le_of_succ_le_succ hf)
      refine ⟨lkps', ?_, ?_, hfresh'.trans hfresh⟩
      · rw [if_pos hlate, Lookup.call_eq, hdel, exec_ok_bind]
        refine hloop.trans ?_
        rw [timeouts_cons_late zs hout, ← List.append_assoc]
      · rwa [List.filter_cons_of_neg (by simp [hout])]
    · have hout : l.search.timedOut m.p2p.time_now = false := decide_eq_false hlate
      have hsplit : ys ++ (p, l) :: zs = (ys ++ [(p, l)]) ++ zs := by simp
      rw [hsplit] at h
      obtain ⟨lkps, hloop, hreg, hfresh⟩ := ih fuel m (ys ++ [(p, l)]) h
        (Nat.le_of_succ_le_succ hf)
      refine ⟨lkps, ?_, ?_, hfresh⟩
      · rw [if_neg hlate, exec_pure, exec_ok_bind, timeouts_cons_early zs hout]
        exact hloop
      · rw [List.filter_cons_of_pos (by simp [hout])]
        simpa using hreg

theorem lkpExpire_eq (h : Registered Lookup.key m.lkps xs) :
    ∃ lkps, lkpExpire m = .ok { m with
        lkps := lkps
        calls := m.calls ++ timeouts m.p2p.time_now xs } ∧
      Registered Lookup.key lkps (xs.filter fun x => !x.2.search.timedOut m.p2p.time_now) ∧
      lkps.list.fresh = m.lkps.list.fresh := by
  rw [lkpExpire, h.list.start, h.list.counter]
  exact lkpExpireLoop_eq xs.length m [] xs h (Nat.le_refl _)

/-- `lkp_success` for a pending lookup. -/
theorem lkpSuccess_eq (h : Registered Lookup.key m.lkps (ys ++ (p, l) :: zs)) (node_id : Id)
    (address : Octets 16) : ∃ lkps, lkpSuccess l.lkp_id node_id address m = .ok { m with
        lkps := lkps
        calls := m.calls ++ (l.search.answer node_id (some address)).toList } ∧
      Registered Lookup.key lkps (ys ++ zs) ∧ lkps.list.fresh = m.lkps.list.fresh := by
  have hget : hashGet (m.lkps.list.look Lookup.key) m.lkps.hash l.lkp_id.bytes = .ok (some p) :=
    h.get_present (show (p, l) ∈ _ by simp)
  let m₁ : Main := { m with
    calls := m.calls ++ (l.search.answer node_id (some address)).toList }
  have h₁ : Registered Lookup.key m₁.lkps (ys ++ (p, l) :: zs) := h
  obtain ⟨lkps, hdel, hreg⟩ := lkpDel_eq h₁
  refine ⟨lkps, ?_, hreg⟩
  rw [lkpSuccess, hget, exec_ok_bind]
  dsimp only
  rw [h.list.item_eq, exec_ok_bind, Lookup.call_eq]
  exact hdel

theorem lkpRemember_eq (h : Registered Lookup.key m.lkps (ys ++ (p, l) :: zs)) {ids : List Id}
    (ha : Asks l.asked ids) {x : Id} (hx : x ∉ ids) :
    ∃ list asked, lkpRemember p x m = .ok { m with lkps.list := list } ∧
      Asks asked (ids ++ [x]) ∧ Registered Lookup.key ⟨list, m.lkps.hash⟩
        (ys ++ (p, { l with asked := asked }) :: zs) ∧ list.fresh = m.lkps.list.fresh := by
  obtain ⟨asked, list, hrem, hset, hasked, hreg, hfresh⟩ :=
    ha.remember_at h hx (fun asked => { l with asked := asked }) fun _ => rfl
  refine ⟨list, asked, ?_, hasked, hreg, hfresh⟩
  rw [lkpRemember, h.list.item_eq, exec_ok_bind]
  dsimp only
  rw [hrem, exec_ok_bind, hset]
  rfl

/-- `lkp_resolve` for a pending lookup that has not asked the node. -/
theorem lkpResolve_ensures (h : Registered Lookup.key m.lkps (ys ++ (p, l) :: zs)) {ids : List Id}
    (ha : Asks l.asked ids) {x : Id} (hx : x ∉ ids) (c_addr : Ip) :
    Ensures (lkpResolve l.lkp_id x c_addr m) fun m' => ∃ asked, Asks asked (ids ++ [x]) ∧
      Registered Lookup.key m'.lkps (ys ++ (p, { l with asked := asked }) :: zs) ∧
      m'.lkps.list.fresh = m.lkps.list.fresh ∧
      Sent m m' (if nodeMe m x then [] else [(c_addr, .lookup l.lkp_id l.find_id)]) := by
  have hget : hashGet (m.lkps.list.look Lookup.key) m.lkps.hash l.lkp_id.bytes = .ok (some p) :=
    h.get_present (show (p, l) ∈ _ by simp)
  have hremember : ∀ m₁ msgs, Sent m m₁ msgs → m₁.lkps = m.lkps →
      Ensures (lkpRemember p x m₁) fun m' => ∃ asked, Asks asked (ids ++ [x]) ∧
        Registered Lookup.key m'.lkps (ys ++ (p, { l with asked := asked }) :: zs) ∧
        m'.lkps.list.fresh = m.lkps.list.fresh ∧ Sent m m' msgs := by
    intro m₁ msgs hsent hlkps
    obtain ⟨list, asked, hrem, hasked, hreg, hfresh⟩ := lkpRemember_eq (hlkps ▸ h) ha hx
    rw [hrem]
    refine ensures_ok.mpr ⟨asked, hasked, hreg, hfresh.trans (by rw [hlkps]), ?_⟩
    exact ⟨hsent.conf, hsent.udp, hsent.calls, hsent.out⟩
  rw [lkpResolve, hget, exec_ok_bind]
  dsimp only
  rw [h.list.item_eq, exec_ok_bind]
  dsimp only
  rw [ha.exists_eq, exec_ok_bind, decide_eq_false hx]
  refine ensures_ite (fun hc => absurd hc Bool.false_ne_true) fun _ => ?_
  refine ensures_ite (fun hme => ?_) fun hme => ?_
  · rw [if_pos hme]
    exact hremember m _ (.refl m) rfl
  · rw [if_neg hme]
    have hboth := (sendLookup_sent c_addr l.find_id l.lkp_id m).and (sendLookup_aside c_addr m _ _)
    exact hboth.bind fun m₁ h₁ => hremember m₁ _ h₁.1 h₁.2.lkps

/-- `lkp_resolve` does nothing for a lookup that has asked the node. -/
theorem lkpResolve_known (h : Registered Lookup.key m.lkps (ys ++ (p, l) :: zs)) {ids : List Id}
    (ha : Asks l.asked ids) {x : Id} (hx : x ∈ ids) (c_addr : Ip) :
    lkpResolve l.lkp_id x c_addr m = .ok m := by
  have hget : hashGet (m.lkps.list.look Lookup.key) m.lkps.hash l.lkp_id.bytes = .ok (some p) :=
    h.get_present (show (p, l) ∈ _ by simp)
  rw [lkpResolve, hget, exec_ok_bind]
  dsimp only
  rw [h.list.item_eq, exec_ok_bind]
  dsimp only
  rw [ha.exists_eq, exec_ok_bind, decide_eq_true hx]
  rfl

/-- `lkp_put` under an id that no pending lookup has. -/
theorem lkpPut_ensures (hm : InOrder m) (h : Registered Lookup.key m.lkps xs) (find_id : Id)
    (callback : Option ℕ) (ctx : ℕ)
    (hids : ∀ lkp_id, m.urandom m.reads = some lkp_id → ∀ x ∈ xs, x.2.lkp_id ≠ lkp_id) :
    Ensures (lkpPut find_id callback ctx m) fun m' => ∃ lkp_id asked,
      m.urandom m.reads = some lkp_id ∧ Asks asked ((firstNodes m find_id).map Node.id) ∧
      Registered Lookup.key m'.lkps (xs ++ [(m.lkps.list.fresh,
        ⟨asked, find_id, lkp_id, callback, ctx, timeAddXSec 5 m⟩)]) ∧
      m'.lkps.list.fresh = m.lkps.list.fresh + 1 ∧
      Sent m m' ((firstNodes m find_id).map fun n => (n.c_addr, .lookup lkp_id find_id)) := by
  cases hread : m.urandom m.reads with
  | none =>
    rw [lkpPut, randUrandom, hread]
    exact ensures_error
  | some lkp_id =>
    let l : Lookup :=
      ⟨⟨listInit, hashInit 100⟩, find_id, lkp_id, callback, ctx, timeAddXSec 5 m⟩
    let i := m.lkps.list.fresh
    obtain ⟨list, hash, hlist, hhash, hreg⟩ := h.put (v := l)
      fun x hx he => hids lkp_id hread x hx (lkpKey_eq_iff.mp he)
    have hsize : (Lookup.key l).length = SHA_DIGEST_LENGTH := lkp_id.size_eq
    rw [hsize] at hhash
    let m₁ : Main := { m with reads := m.reads + 1, lkps := ⟨list, hash⟩ }
    have hm₁ : InOrder m₁ := hm
    have hput : lkpPut find_id callback ctx m = nbhdLookup i m₁ := by
      rw [lkpPut, randUrandom, hread, exec_ok_bind]
      change (listPut m.lkps.list l >>= _) = _
      rw [hlist, exec_ok_bind]
      dsimp only
      rw [hhash, exec_ok_bind]
    -- the new lookup has asked exactly `ids`
    let R : List Id → Main → Prop := fun ids m' => ∃ asked, Asks asked ids ∧
      Registered Lookup.key m'.lkps (xs ++ [(i, { l with asked := asked })]) ∧
      m'.lkps.list.fresh = i + 1
    have hremember : ∀ ids x m, R ids m → x ∉ ids → Ensures (lkpRemember i x m) fun m' =>
        R (ids ++ [x]) m' ∧ Sent m m' [] := by
      rintro ids x m ⟨asked, hasked, hreg, hfresh⟩ hx
      obtain ⟨list, asked', hrem, hasked', hreg', hfresh'⟩ := lkpRemember_eq hreg hasked hx
      rw [hrem]
      exact ensures_ok.mpr ⟨⟨asked', hasked', hreg', hfresh'.trans hfresh⟩, .none rfl rfl rfl rfl⟩
    have hsend : ∀ ids sa m, R ids m → Ensures (sendLookup sa find_id lkp_id m) fun m' =>
        R ids m' ∧ Sent m m' [(sa, .lookup lkp_id find_id)] := by
      rintro ids sa m ⟨asked, hasked, hreg, hfresh⟩
      refine ((sendLookup_sent sa find_id lkp_id m).and (sendLookup_aside sa m _ _)).mono ?_
      rintro m' ⟨hsent, haside⟩
      rw [← haside.lkps] at hreg hfresh
      exact ⟨⟨asked, hasked, hreg, hfresh⟩, hsent⟩
    have hround := hm₁.askBucket_round find_id hremember hsend
      ⟨l.asked, asks_init, hreg, listPut_fresh hlist⟩
    rw [hput, nbhdLookup, hreg.list.item_eq, exec_ok_bind]
    refine Ensures.mono hround ?_
    rintro m' ⟨⟨asked, hasked, hreg', hfresh⟩, hsent⟩
    have hstart : Sent m m₁ [] := .none rfl rfl rfl rfl
    exact ⟨lkp_id, asked, rfl, hasked, hreg', hfresh, hstart.trans hsent⟩

end Operations

/-! ## Steps -/

/-- The calls of `lookup.c`. -/
def Act.onLkps : Act → Prop
  | .lkpPut _ _ _ | .lkpResolve _ _ _ | .lkpSuccess _ _ _ | .lkpExpire => True
  | _ => False

/-- The callback that `dns_lookup` calls itself. -/
def Act.answered : Act → List Call
  | .answer call => [call]
  | _ => []

/-- What a step does with the pending lookups: the list before and after it. -/
inductive LkpTurn (m : Main) : Act → Main → List (Ptr × Lookup) → List (Ptr × Lookup) → Prop
  | put {find_id lkp_id : Id} {callback : Option ℕ} {ctx : ℕ} {asked : Asked} {m' : Main}
      {xs : List (Ptr × Lookup)} (hread : m.urandom m.reads = some lkp_id)
      (hasked : Asks asked ((firstNodes m find_id).map Node.id))
      (hfresh : m'.lkps.list.fresh = m.lkps.list.fresh + 1)
      (hsent : Sent m m' ((firstNodes m find_id).map fun n => (n.c_addr, .lookup lkp_id find_id))) :
      LkpTurn m (.lkpPut find_id callback ctx) m' xs (xs ++ [(m.lkps.list.fresh,
        ⟨asked, find_id, lkp_id, callback, ctx, timeAddXSec 5 m⟩)])
  | ask {p : Ptr} {l : Lookup} {ids : List Id} {x : Id} {c_addr : Ip} {asked : Asked} {m' : Main}
      {ys zs : List (Ptr × Lookup)} (hids : Asks l.asked ids) (hx : x ∉ ids)
      (hasked : Asks asked (ids ++ [x])) (hfresh : m'.lkps.list.fresh = m.lkps.list.fresh)
      (hsent : Sent m m' (if nodeMe m x then [] else [(c_addr, .lookup l.lkp_id l.find_id)])) :
      LkpTurn m (.lkpResolve l.lkp_id x c_addr) m' (ys ++ (p, l) :: zs)
        (ys ++ (p, { l with asked := asked }) :: zs)
  | ignore {lkp_id x : Id} {c_addr : Ip} {xs : List (Ptr × Lookup)} :
      LkpTurn m (.lkpResolve lkp_id x c_addr) m xs xs
  | success {p : Ptr} {l : Lookup} {node_id : Id} {address : Octets 16} {m' : Main}
      {ys zs : List (Ptr × Lookup)} (hfresh : m'.lkps.list.fresh = m.lkps.list.fresh)
      (hout : m'.out = m.out)
      (hcalls : m'.calls = m.calls ++ (l.search.answer node_id (some address)).toList) :
      LkpTurn m (.lkpSuccess l.lkp_id node_id address) m' (ys ++ (p, l) :: zs) (ys ++ zs)
  | late {lkp_id node_id : Id} {address : Octets 16} {xs : List (Ptr × Lookup)}
      (hne : ∀ x ∈ xs, x.2.lkp_id ≠ lkp_id) : LkpTurn m (.lkpSuccess lkp_id node_id address) m xs xs
  | expire {m' : Main} {xs : List (Ptr × Lookup)}
      (hfresh : m'.lkps.list.fresh = m.lkps.list.fresh) (hout : m'.out = m.out)
      (hcalls : m'.calls = m.calls ++ timeouts m.p2p.time_now xs) :
      LkpTurn m .lkpExpire m' xs (xs.filter fun x => !x.2.search.timedOut m.p2p.time_now)
  | other {act : Act} {m' : Main} {xs : List (Ptr × Lookup)} (hact : ¬ act.onLkps)
      (hlkps : m'.lkps = m.lkps) (hcalls : m'.calls = m.calls ++ act.answered) :
      LkpTurn m act m' xs xs

/-- The id that `lkp_put` reads is none of the pending ones. -/
def Step.drawsUnused (s : Step) : Prop :=
  ∀ find_id callback ctx lkp_id, s.act = .lkpPut find_id callback ctx →
    s.pre.urandom s.pre.reads = some lkp_id → ∀ x ∈ s.pre.lkps.list.items, x.2.lkp_id ≠ lkp_id

theorem Step.drawsUnused_of_act {s : Step}
    (h : ∀ find_id callback ctx, s.act ≠ .lkpPut find_id callback ctx) : s.drawsUnused := by
  intro find_id callback ctx _ hact
  exact absurd hact (h find_id callback ctx)

section Steps
variable {m m' : Main} {act : Act} {xs : List (Ptr × Lookup)}

theorem Looking.congr (h : Looking m xs) (hlkps : m'.lkps = m.lkps) : Looking m' xs :=
  ⟨hlkps ▸ h.registered, h.asks⟩

theorem Looking.items_eq (h : Looking m xs) : m.lkps.list.items = xs := h.registered.items_eq

/-- Among the pending lookups a lookup id belongs to one. -/
theorem Looking.items_filter (h : Looking m (ys ++ (p, l) :: zs)) :
    m.lkps.list.items.filter (fun x => x.2.lkp_id = l.lkp_id) = [(p, l)] := by
  have hone := h.registered.items_filter
  simp only [Lookup.key, Octets.bytes_injective] at hone
  exact hone

/-- The turn of `lkp_put`. -/
theorem Looking.put (hm : InOrder m) (hx : Looking m xs) {find_id : Id} {callback : Option ℕ}
    {ctx : ℕ} (hids : ∀ lkp_id, m.urandom m.reads = some lkp_id → ∀ x ∈ xs, x.2.lkp_id ≠ lkp_id)
    (h : lkpPut find_id callback ctx m = .ok m') :
    ∃ xs', Looking m' xs' ∧ LkpTurn m (.lkpPut find_id callback ctx) m' xs xs' := by
  obtain ⟨lkp_id, asked, hread, hasked, hreg, hfresh, hsent⟩ :=
    lkpPut_ensures hm hx.registered find_id callback ctx hids m' h
  refine ⟨_, ⟨hreg, ?_⟩, .put hread hasked hfresh hsent⟩
  rw [List.forall_mem_append, List.forall_mem_singleton]
  exact ⟨hx.asks, _, hasked⟩

/-- The turn of `lkp_resolve`. -/
theorem Looking.resolve (hx : Looking m xs) {lkp_id node_id : Id} {c_addr : Ip}
    (h : lkpResolve lkp_id node_id c_addr m = .ok m') :
    ∃ xs', Looking m' xs' ∧ LkpTurn m (.lkpResolve lkp_id node_id c_addr) m' xs xs' := by
  have hreg := hx.registered
  rcases lkpGet_cases hreg lkp_id with ⟨hget, -⟩ | ⟨ys, p, l, zs, rfl, rfl⟩
  · rw [Daemon.lkpResolve, hget] at h
    obtain rfl := Except.ok.inj h
    exact ⟨xs, hx, .ignore⟩
  · have hasks := hx.asks
    rw [List.forall_mem_append, List.forall_mem_cons] at hasks
    obtain ⟨hys, ⟨ids, hids⟩, hzs⟩ := hasks
    by_cases hknown : node_id ∈ ids
    · rw [lkpResolve_known hreg hids hknown] at h
      obtain rfl := Except.ok.inj h
      exact ⟨_, hx, .ignore⟩
    · obtain ⟨asked, hasked, hreg', hfresh, hsent⟩ :=
        lkpResolve_ensures hreg hids hknown c_addr m' h
      refine ⟨_, ⟨hreg', ?_⟩, .ask hids hknown hasked hfresh hsent⟩
      rw [List.forall_mem_append, List.forall_mem_cons]
      exact ⟨hys, ⟨_, hasked⟩, hzs⟩

/-- The turn of `lkp_success`. -/
theorem Looking.success (hx : Looking m xs) {lkp_id node_id : Id} {address : Octets 16}
    (h : lkpSuccess lkp_id node_id address m = .ok m') :
    ∃ xs', Looking m' xs' ∧ LkpTurn m (.lkpSuccess lkp_id node_id address) m' xs xs' := by
  rcases lkpGet_cases hx.registered lkp_id with ⟨hget, hne⟩ | ⟨ys, p, l, zs, rfl, rfl⟩
  · rw [Daemon.lkpSuccess, hget] at h
    obtain rfl := Except.ok.inj h
    exact ⟨xs, hx, .late hne⟩
  · obtain ⟨lkps, heq, hreg, hfresh⟩ := lkpSuccess_eq hx.registered node_id address
    obtain rfl := Except.ok.inj (heq.symm.trans h)
    refine ⟨_, ⟨hreg, fun x hmem => hx.asks x ?_⟩, .success hfresh rfl rfl⟩
    exact (List.sublist_append_right [(p, l)] zs).append_left ys |>.subset hmem

/-- The turn of `lkp_expire`. -/
theorem Looking.expire (hx : Looking m xs) (h : lkpExpire m = .ok m') :
    ∃ xs', Looking m' xs' ∧ LkpTurn m .lkpExpire m' xs xs' := by
  obtain ⟨lkps, heq, hreg, hfresh⟩ := lkpExpire_eq hx.registered
  obtain rfl := Except.ok.inj (heq.symm.trans h)
  exact ⟨_, ⟨hreg, fun x hmem => hx.asks x (List.mem_of_mem_filter hmem)⟩,
    .expire hfresh rfl rfl⟩

/-- Every step takes one of these turns. -/
theorem Deed.lkpTurn (hm : InOrder m) (hx : Looking m xs) (hd : Deed m act m')
    (hids : Step.drawsUnused ⟨m, act, m'⟩) : ∃ xs', Looking m' xs' ∧ LkpTurn m act m' xs xs' := by
  have hsame : ¬ act.onLkps → m'.lkps = m.lkps → m'.calls = m.calls ++ act.answered →
      ∃ xs', Looking m' xs' ∧ LkpTurn m act m' xs xs' := fun hact hlkps hcalls =>
    ⟨xs, hx.congr hlkps, .other hact hlkps hcalls⟩
  have hquiet : ∀ {calls : List Call}, calls = m.calls → calls = m.calls ++ [] := by
    rintro calls rfl
    exact (List.append_nil _).symm
  cases hd with
  | tick now => exact hsame id rfl (hquiet rfl)
  | @nbhdPut id sa _ h =>
    have hbeside := nbhdPut_beside id sa m m' h
    exact hsame (fun h => h) hbeside.lkps (hquiet hbeside.calls)
  | @nbhdPinged n _ hn hdue h =>
    have hbeside := nbhdPinged_beside n.id m m' h
    exact hsame (fun h => h) hbeside.lkps (hquiet hbeside.calls)
  | @nbhdPonged id sa _ h =>
    have hbeside := nbhdPonged_beside id sa m m' h
    exact hsame (fun h => h) hbeside.lkps (hquiet hbeside.calls)
  | nbhdFind => exact hsame id rfl (hquiet rfl)
  | nbhdExpire => exact hsame id rfl (hquiet rfl)
  | nbhdSplit => exact hsame id rfl (hquiet rfl)
  | @lkpPut find_id callback ctx _ h =>
    refine hx.put hm (fun lkp_id hread => ?_) h
    rw [← hx.items_eq]
    exact hids find_id callback ctx lkp_id rfl hread
  | lkpResolve h => exact hx.resolve h
  | lkpSuccess h => exact hx.success h
  | lkpExpire h => exact hx.expire h
  | announcePut h =>
    have hann := announcePut_announced _ _ m m' h
    exact hsame (fun h => h) hann.lkps (hquiet hann.calls)
  | announceResolve h =>
    have hann := announceResolve_announced _ _ _ m m' h
    exact hsame (fun h => h) hann.lkps (hquiet hann.calls)
  | announceExpire h =>
    have hann := announceExpire_announced m m' h
    exact hsame (fun h => h) hann.lkps (hquiet hann.calls)
  | answer call => exact hsame id rfl rfl
  | aside h => exact hsame id h.lkps (hquiet h.calls)

end Steps
end Masala.Daemon
