import Masala.Daemon.Asking
import Masala.Daemon.Turns

/-!
# What a step does with the announcements

The same for `_main->announce`. Announcements end with their time and call no
one back, and a node without a hostname does not ask after the first round.
-/
namespace Masala.Daemon
open Library Container Bencode Routing Session

/-- The pending announcements are `xs`, and each has a well-formed set of asked nodes. -/
structure Announcing (m : Main) (xs : List (Ptr × Announce)) : Prop where
  registered : Registered Announce.key m.announce xs
  asks : ∀ x ∈ xs, ∃ ids, Asks x.2.asked ids

/-! ## The operations -/

section Operations
variable {m : Main} {xs ys zs : List (Ptr × Announce)} {p : Ptr} {a : Announce}

theorem announceKey_eq_iff {lkp_id : Id} : Announce.key a = lkp_id.bytes ↔ a.lkp_id = lkp_id :=
  Octets.bytes_injective

/-- A lookup id belongs to one pending announcement, or to none. -/
theorem announceGet_cases (h : Registered Announce.key m.announce xs) (lkp_id : Id) :
    hashGet (m.announce.list.look Announce.key) m.announce.hash lkp_id.bytes = .ok none ∨
    ∃ ys p a zs, xs = ys ++ (p, a) :: zs ∧ a.lkp_id = lkp_id := by
  rcases h.get_cases lkp_id.bytes with ⟨hget, -⟩ | ⟨ys, p, a, zs, rfl, hkey, -⟩
  · exact .inl hget
  · exact .inr ⟨ys, p, a, zs, rfl, announceKey_eq_iff.mp hkey⟩

theorem announceDel_eq (h : Registered Announce.key m.announce (ys ++ (p, a) :: zs)) :
    ∃ announce, announceDel p m = .ok { m with announce := announce } ∧
      Registered Announce.key announce (ys ++ zs) ∧
      announce.list.fresh = m.announce.list.fresh := by
  obtain ⟨list, hash, hhash, hlist, hreg⟩ := h.del
  have hkey : hashDel (m.announce.list.look Announce.key) m.announce.hash a.lkp_id.bytes =
      .ok hash := hhash
  refine ⟨⟨list, hash⟩, ?_, hreg, listDel_fresh hlist⟩
  rw [announceDel, h.list.item_eq, exec_ok_bind]
  dsimp only
  rw [hkey, exec_ok_bind, hlist]
  rfl

/-- The walk stands in front of the announcements `zs` and has kept `ys`. -/
theorem announceExpireLoop_eq (fuel : ℕ) (m : Main) (ys zs : List (Ptr × Announce))
    (h : Registered Announce.key m.announce (ys ++ zs)) (hf : zs.length ≤ fuel) :
    ∃ announce, announceExpireLoop fuel (firstPtr zs none) m = .ok { m with announce := announce } ∧
      Registered Announce.key announce
        (ys ++ zs.filter fun x => ¬ m.p2p.time_now > x.2.time_find) ∧
      announce.list.fresh = m.announce.list.fresh := by
  induction zs generalizing fuel m ys with
  | nil =>
    refine ⟨m.announce, ?_, h, rfl⟩
    rw [firstPtr_nil, announceExpireLoop]
  | cons z zs ih =>
    obtain ⟨p, a⟩ := z
    obtain ⟨fuel, rfl⟩ := Nat.exists_eq_add_one_of_ne_zero (Nat.ne_zero_of_lt hf)
    rw [firstPtr_cons, announceExpireLoop, h.list.item_eq, exec_ok_bind, h.list.next_eq,
      exec_ok_bind]
    by_cases hlate : m.p2p.time_now > a.time_find
    · obtain ⟨announce, hdel, hreg, hfresh⟩ := announceDel_eq h
      obtain ⟨announce', hloop, hreg', hfresh'⟩ := ih fuel { m with announce := announce } ys hreg
        (Nat.le_of_succ_le_succ hf)
      refine ⟨announce', ?_, ?_, hfresh'.trans hfresh⟩
      · rw [if_pos hlate, hdel, exec_ok_bind]
        exact hloop
      · rwa [List.filter_cons_of_neg (by simpa using hlate)]
    · have hsplit : ys ++ (p, a) :: zs = (ys ++ [(p, a)]) ++ zs := by simp
      rw [hsplit] at h
      obtain ⟨announce, hloop, hreg, hfresh⟩ := ih fuel m (ys ++ [(p, a)]) h
        (Nat.le_of_succ_le_succ hf)
      refine ⟨announce, ?_, ?_, hfresh⟩
      · rw [if_neg hlate, exec_pure, exec_ok_bind]
        exact hloop
      · rw [List.filter_cons_of_pos (by simpa using hlate)]
        simpa using hreg

theorem announceExpire_eq (h : Registered Announce.key m.announce xs) :
    ∃ announce, announceExpire m = .ok { m with announce := announce } ∧
      Registered Announce.key announce (xs.filter fun x => ¬ m.p2p.time_now > x.2.time_find) ∧
      announce.list.fresh = m.announce.list.fresh := by
  rw [announceExpire, h.list.start, h.list.counter]
  exact announceExpireLoop_eq xs.length m [] xs h (Nat.le_refl _)

theorem announceRemember_eq (h : Registered Announce.key m.announce (ys ++ (p, a) :: zs))
    {ids : List Id} (ha : Asks a.asked ids) {x : Id} (hx : x ∉ ids) :
    ∃ list asked, announceRemember p x m = .ok { m with announce.list := list } ∧
      Asks asked (ids ++ [x]) ∧ Registered Announce.key ⟨list, m.announce.hash⟩
        (ys ++ (p, { a with asked := asked }) :: zs) ∧ list.fresh = m.announce.list.fresh := by
  obtain ⟨asked, list, hrem, hset, hasked, hreg, hfresh⟩ :=
    ha.remember_at h hx (fun asked => { a with asked := asked }) fun _ => rfl
  refine ⟨list, asked, ?_, hasked, hreg, hfresh⟩
  rw [announceRemember, h.list.item_eq, exec_ok_bind]
  dsimp only
  rw [hrem, exec_ok_bind, hset]
  rfl

/-- `announce_resolve` for a pending announcement that has not asked the node. -/
theorem announceResolve_ensures (h : Registered Announce.key m.announce (ys ++ (p, a) :: zs))
    {ids : List Id} (ha : Asks a.asked ids) {x : Id} (hx : x ∉ ids) (c_addr : Ip) :
    Ensures (announceResolve a.lkp_id x c_addr m) fun m' => ∃ asked, Asks asked (ids ++ [x]) ∧
      Registered Announce.key m'.announce (ys ++ (p, { a with asked := asked }) :: zs) ∧
      m'.announce.list.fresh = m.announce.list.fresh ∧
      Sent m m' (if ¬ nodeMe m x ∧ m.conf.hostname ≠ none then
        [(c_addr, .announce a.lkp_id m.conf.host_id)] else []) := by
  have hget : hashGet (m.announce.list.look Announce.key) m.announce.hash a.lkp_id.bytes =
      .ok (some p) := h.get_present (show (p, a) ∈ _ by simp)
  have hremember : ∀ m₁ msgs, Sent m m₁ msgs → m₁.announce = m.announce →
      Ensures (announceRemember p x m₁) fun m' => ∃ asked, Asks asked (ids ++ [x]) ∧
        Registered Announce.key m'.announce (ys ++ (p, { a with asked := asked }) :: zs) ∧
        m'.announce.list.fresh = m.announce.list.fresh ∧ Sent m m' msgs := by
    intro m₁ msgs hsent hann
    obtain ⟨list, asked, hrem, hasked, hreg, hfresh⟩ := announceRemember_eq (hann ▸ h) ha hx
    rw [hrem]
    refine ensures_ok.mpr ⟨asked, hasked, hreg, hfresh.trans (by rw [hann]), ?_⟩
    exact ⟨hsent.conf, hsent.udp, hsent.calls, hsent.out⟩
  rw [announceResolve, hget, exec_ok_bind]
  dsimp only
  rw [h.list.item_eq, exec_ok_bind]
  dsimp only
  rw [ha.exists_eq, exec_ok_bind, decide_eq_false hx]
  refine ensures_ite (fun hc => absurd hc Bool.false_ne_true) fun _ => ?_
  refine ensures_ite (fun hask => ?_) fun hask => ?_
  · rw [if_pos hask]
    have hboth := (sendAnnounce_sent c_addr a.lkp_id m.conf.host_id m).and
      (sendAnnounce_aside c_addr m _ _)
    exact hboth.bind fun m₁ h₁ => hremember m₁ _ h₁.1 h₁.2.announce
  · rw [if_neg hask]
    exact hremember m _ (.refl m) rfl

/-- `announce_resolve` does nothing for an announcement that has asked the node. -/
theorem announceResolve_known (h : Registered Announce.key m.announce (ys ++ (p, a) :: zs))
    {ids : List Id} (ha : Asks a.asked ids) {x : Id} (hx : x ∈ ids) (c_addr : Ip) :
    announceResolve a.lkp_id x c_addr m = .ok m := by
  have hget : hashGet (m.announce.list.look Announce.key) m.announce.hash a.lkp_id.bytes =
      .ok (some p) := h.get_present (show (p, a) ∈ _ by simp)
  rw [announceResolve, hget, exec_ok_bind]
  dsimp only
  rw [h.list.item_eq, exec_ok_bind]
  dsimp only
  rw [ha.exists_eq, exec_ok_bind, decide_eq_true hx]
  rfl

/-- `announce_put` under an id that no pending announcement has. -/
theorem announcePut_ensures (hm : InOrder m) (h : Registered Announce.key m.announce xs)
    {lkp_id : Id} (host_id : Id) (hids : ∀ x ∈ xs, x.2.lkp_id ≠ lkp_id) :
    Ensures (announcePut lkp_id host_id m) fun m' => ∃ asked,
      Asks asked ((firstNodes m host_id).map Node.id) ∧
      Registered Announce.key m'.announce
        (xs ++ [(m.announce.list.fresh, ⟨asked, lkp_id, timeAddXSec 10 m⟩)]) ∧
      m'.announce.list.fresh = m.announce.list.fresh + 1 ∧
      Sent m m' ((firstNodes m host_id).map fun n => (n.c_addr, .announce lkp_id host_id)) := by
  let a : Announce := ⟨⟨listInit, hashInit 100⟩, lkp_id, timeAddXSec 10 m⟩
  let i := m.announce.list.fresh
  obtain ⟨list, hash, hlist, hhash, hreg⟩ := h.put (v := a)
    fun x hx he => hids x hx (announceKey_eq_iff.mp he)
  have hsize : (Announce.key a).length = SHA_DIGEST_LENGTH := lkp_id.size_eq
  rw [hsize] at hhash
  let m₁ : Main := { m with announce := ⟨list, hash⟩ }
  have hm₁ : InOrder m₁ := hm
  have hput : announcePut lkp_id host_id m = nbhdAnnounce i host_id m₁ := by
    rw [announcePut]
    change (listPut m.announce.list a >>= _) = _
    rw [hlist, exec_ok_bind]
    dsimp only
    rw [hhash, exec_ok_bind]
  -- the new announcement has asked exactly `ids`
  let R : List Id → Main → Prop := fun ids m' => ∃ asked, Asks asked ids ∧
    Registered Announce.key m'.announce (xs ++ [(i, { a with asked := asked })]) ∧
    m'.announce.list.fresh = i + 1
  have hremember : ∀ ids x m, R ids m → x ∉ ids → Ensures (announceRemember i x m) fun m' =>
      R (ids ++ [x]) m' ∧ Sent m m' [] := by
    rintro ids x m ⟨asked, hasked, hreg, hfresh⟩ hx
    obtain ⟨list, asked', hrem, hasked', hreg', hfresh'⟩ := announceRemember_eq hreg hasked hx
    rw [hrem]
    exact ensures_ok.mpr ⟨⟨asked', hasked', hreg', hfresh'.trans hfresh⟩, .none rfl rfl rfl rfl⟩
  have hsend : ∀ ids sa m, R ids m → Ensures (sendAnnounce sa lkp_id host_id m) fun m' =>
      R ids m' ∧ Sent m m' [(sa, .announce lkp_id host_id)] := by
    rintro ids sa m ⟨asked, hasked, hreg, hfresh⟩
    refine ((sendAnnounce_sent sa lkp_id host_id m).and (sendAnnounce_aside sa m _ _)).mono ?_
    rintro m' ⟨hsent, haside⟩
    rw [← haside.announce] at hreg hfresh
    exact ⟨⟨asked, hasked, hreg, hfresh⟩, hsent⟩
  have hround := hm₁.askBucket_round host_id hremember hsend
    ⟨a.asked, asks_init, hreg, listPut_fresh hlist⟩
  rw [hput, nbhdAnnounce, hreg.list.item_eq, exec_ok_bind]
  refine Ensures.mono hround ?_
  rintro m' ⟨⟨asked, hasked, hreg', hfresh⟩, hsent⟩
  have hstart : Sent m m₁ [] := .none rfl rfl rfl rfl
  exact ⟨asked, hasked, hreg', hfresh, hstart.trans hsent⟩

end Operations
/-! ## Steps -/

/-- The calls of `announce.c`. -/
def Act.onAnnounce : Act → Prop
  | .announcePut _ _ | .announceResolve _ _ _ | .announceExpire => True
  | _ => False

/-- What a step does with the pending announcements: the list before and after it. -/
inductive AnnounceTurn (m : Main) :
    Act → Main → List (Ptr × Announce) → List (Ptr × Announce) → Prop
  | put {lkp_id host_id : Id} {asked : Asked} {m' : Main} {xs : List (Ptr × Announce)}
      (hasked : Asks asked ((firstNodes m host_id).map Node.id))
      (hfresh : m'.announce.list.fresh = m.announce.list.fresh + 1)
      (hsent : Sent m m'
        ((firstNodes m host_id).map fun n => (n.c_addr, .announce lkp_id host_id))) :
      AnnounceTurn m (.announcePut lkp_id host_id) m' xs
        (xs ++ [(m.announce.list.fresh, ⟨asked, lkp_id, timeAddXSec 10 m⟩)])
  | ask {p : Ptr} {a : Announce} {ids : List Id} {x : Id} {c_addr : Ip} {asked : Asked} {m' : Main}
      {ys zs : List (Ptr × Announce)} (hids : Asks a.asked ids) (hx : x ∉ ids)
      (hasked : Asks asked (ids ++ [x])) (hfresh : m'.announce.list.fresh = m.announce.list.fresh)
      (hsent : Sent m m' (if ¬ nodeMe m x ∧ m.conf.hostname ≠ none then
        [(c_addr, .announce a.lkp_id m.conf.host_id)] else [])) :
      AnnounceTurn m (.announceResolve a.lkp_id x c_addr) m' (ys ++ (p, a) :: zs)
        (ys ++ (p, { a with asked := asked }) :: zs)
  | ignore {lkp_id x : Id} {c_addr : Ip} {xs : List (Ptr × Announce)} :
      AnnounceTurn m (.announceResolve lkp_id x c_addr) m xs xs
  | expire {m' : Main} {xs : List (Ptr × Announce)}
      (hfresh : m'.announce.list.fresh = m.announce.list.fresh) (hout : m'.out = m.out) :
      AnnounceTurn m .announceExpire m' xs (xs.filter fun x => ¬ m.p2p.time_now > x.2.time_find)
  | other {act : Act} {m' : Main} {xs : List (Ptr × Announce)} (hact : ¬ act.onAnnounce)
      (hannounce : m'.announce = m.announce) : AnnounceTurn m act m' xs xs

/-- The id of a new announcement is none of the pending ones. -/
def Step.announcesUnused (s : Step) : Prop :=
  ∀ lkp_id host_id, s.act = .announcePut lkp_id host_id →
    ∀ x ∈ s.pre.announce.list.items, x.2.lkp_id ≠ lkp_id

theorem Step.announcesUnused_of_act {s : Step}
    (h : ∀ lkp_id host_id, s.act ≠ .announcePut lkp_id host_id) : s.announcesUnused := by
  intro lkp_id host_id hact
  exact absurd hact (h lkp_id host_id)

section Steps
variable {m m' : Main} {act : Act} {xs : List (Ptr × Announce)}

theorem Announcing.items_eq (h : Announcing m xs) : m.announce.list.items = xs :=
  h.registered.items_eq

/-- Among the pending announcements a lookup id belongs to one. -/
theorem Announcing.items_filter (h : Announcing m (ys ++ (p, a) :: zs)) :
    m.announce.list.items.filter (fun x => x.2.lkp_id = a.lkp_id) = [(p, a)] := by
  have hone := h.registered.items_filter
  simp only [Announce.key, Octets.bytes_injective] at hone
  exact hone

/-- The turn of `announce_put`. -/
theorem Announcing.put (hm : InOrder m) (hx : Announcing m xs) {lkp_id host_id : Id}
    (hids : ∀ x ∈ xs, x.2.lkp_id ≠ lkp_id) (h : announcePut lkp_id host_id m = .ok m') :
    ∃ xs', Announcing m' xs' ∧ AnnounceTurn m (.announcePut lkp_id host_id) m' xs xs' := by
  obtain ⟨asked, hasked, hreg, hfresh, hsent⟩ :=
    announcePut_ensures hm hx.registered host_id hids m' h
  refine ⟨_, ⟨hreg, ?_⟩, .put hasked hfresh hsent⟩
  rw [List.forall_mem_append, List.forall_mem_singleton]
  exact ⟨hx.asks, _, hasked⟩

/-- The turn of `announce_resolve`. -/
theorem Announcing.resolve (hx : Announcing m xs) {lkp_id node_id : Id} {c_addr : Ip}
    (h : announceResolve lkp_id node_id c_addr m = .ok m') :
    ∃ xs', Announcing m' xs' ∧
      AnnounceTurn m (.announceResolve lkp_id node_id c_addr) m' xs xs' := by
  have hreg := hx.registered
  rcases announceGet_cases hreg lkp_id with hget | ⟨ys, p, a, zs, rfl, rfl⟩
  · rw [Daemon.announceResolve, hget] at h
    obtain rfl := Except.ok.inj h
    exact ⟨xs, hx, .ignore⟩
  · have hasks := hx.asks
    rw [List.forall_mem_append, List.forall_mem_cons] at hasks
    obtain ⟨hys, ⟨ids, hids⟩, hzs⟩ := hasks
    by_cases hknown : node_id ∈ ids
    · rw [announceResolve_known hreg hids hknown] at h
      obtain rfl := Except.ok.inj h
      exact ⟨_, hx, .ignore⟩
    · obtain ⟨asked, hasked, hreg', hfresh, hsent⟩ :=
        announceResolve_ensures hreg hids hknown c_addr m' h
      refine ⟨_, ⟨hreg', ?_⟩, .ask hids hknown hasked hfresh hsent⟩
      rw [List.forall_mem_append, List.forall_mem_cons]
      exact ⟨hys, ⟨_, hasked⟩, hzs⟩

/-- The turn of `announce_expire`. -/
theorem Announcing.expire (hx : Announcing m xs) (h : announceExpire m = .ok m') :
    ∃ xs', Announcing m' xs' ∧ AnnounceTurn m .announceExpire m' xs xs' := by
  obtain ⟨announce, heq, hreg, hfresh⟩ := announceExpire_eq hx.registered
  obtain rfl := Except.ok.inj (heq.symm.trans h)
  exact ⟨_, ⟨hreg, fun x hmem => hx.asks x (List.mem_of_mem_filter hmem)⟩, .expire hfresh rfl⟩

/-- Every step takes one of these turns. -/
theorem Deed.announceTurn (hm : InOrder m) (hx : Announcing m xs) (hd : Deed m act m')
    (hids : Step.announcesUnused ⟨m, act, m'⟩) :
    ∃ xs', Announcing m' xs' ∧ AnnounceTurn m act m' xs xs' := by
  have hsame : ¬ act.onAnnounce → m'.announce = m.announce →
      ∃ xs', Announcing m' xs' ∧ AnnounceTurn m act m' xs xs' := fun hact hann =>
    ⟨xs, ⟨hann ▸ hx.registered, hx.asks⟩, .other hact hann⟩
  cases hd with
  | tick now => exact hsame id rfl
  | @nbhdPut id sa _ h => exact hsame (fun h => h) (nbhdPut_beside id sa m m' h).announce
  | @nbhdPinged n _ hn hdue h =>
    exact hsame (fun h => h) (nbhdPinged_beside n.id m m' h).announce
  | @nbhdPonged id sa _ h => exact hsame (fun h => h) (nbhdPonged_beside id sa m m' h).announce
  | nbhdFind => exact hsame id rfl
  | nbhdExpire => exact hsame id rfl
  | nbhdSplit => exact hsame id rfl
  | lkpPut h => exact hsame (fun h => h) (lkpPut_looked _ _ _ m m' h).announce
  | lkpResolve h => exact hsame (fun h => h) (lkpResolve_looked _ _ _ m m' h).announce
  | lkpSuccess h => exact hsame (fun h => h) (lkpSuccess_looked _ _ _ m m' h).announce
  | lkpExpire h => exact hsame (fun h => h) (lkpExpire_looked m m' h).announce
  | @announcePut lkp_id host_id _ h =>
    refine hx.put hm ?_ h
    rw [← hx.items_eq]
    exact hids lkp_id host_id rfl
  | announceResolve h => exact hx.resolve h
  | announceExpire h => exact hx.expire h
  | answer call => exact hsame id rfl
  | aside h => exact hsame id h.announce

end Steps
end Masala.Daemon
