import Masala.Daemon.Lookups
import Masala.Daemon.Announcements
import Masala.Daemon.Runs
import Masala.Library.Inquiry

/-!
# Every node is asked once

The pending lookups with the nodes they have asked are inquiries, and so are the
announcements. The first round asks the nodes of one bucket, whose ids differ,
and both ways of asking share the set, so no inquiry asks a node twice.
-/
namespace Masala.Daemon
open Library Container Bencode Routing Session

/-- The lookups as inquiries. -/
def lkpDesk (m : Main) : Desk Id :=
  ⟨m.lkps.list.fresh, m.lkps.list.items.map fun x => (x.1, askedIds x.2.asked)⟩

/-- The announcements as inquiries. -/
def announceDesk (m : Main) : Desk Id :=
  ⟨m.announce.list.fresh, m.announce.list.items.map fun x => (x.1, askedIds x.2.asked)⟩

/-- The first datagram is sent for the first node, and so on. -/
def inTurn (p : Ptr) (ns : List Routing.Node) (ds : List (Ip × Bytes)) : List (Ptr × Id) :=
  List.zipWith (fun n _ => (p, n.id)) ns ds

namespace Step

/-- The datagrams that leave in a step. -/
def sent (s : Step) : List (Ip × Bytes) := s.post.out.drop s.pre.out.length

/-- For each datagram that leaves for a lookup, the lookup and the node on whose account it is. -/
def lookups (s : Step) : List (Ptr × Id) :=
  match s.act with
  | .lkpPut find_id _ _ => inTurn s.pre.lkps.list.fresh (firstNodes s.pre find_id) s.sent
  | .lkpResolve lkp_id node_id _ =>
    (s.pre.lkps.list.items.filter fun x => x.2.lkp_id = lkp_id).flatMap fun x =>
      s.sent.map fun _ => (x.1, node_id)
  | _ => []

/-- For each datagram that leaves for an announcement, the announcement and the node. -/
def announcements (s : Step) : List (Ptr × Id) :=
  match s.act with
  | .announcePut _ host_id => inTurn s.pre.announce.list.fresh (firstNodes s.pre host_id) s.sent
  | .announceResolve lkp_id node_id _ =>
    (s.pre.announce.list.items.filter fun x => x.2.lkp_id = lkp_id).flatMap fun x =>
      s.sent.map fun _ => (x.1, node_id)
  | _ => []

/-- Where a step may ask a node: at its address in the table, or at the one that a reply gives. -/
def Reaches (s : Step) (x : Id) (sa : Ip) : Prop :=
  match s.act with
  | .lkpPut _ _ _ | .announcePut _ _ => ∃ n ∈ allNodes s.pre.nbhd, n.id = x ∧ n.c_addr = sa
  | .lkpResolve _ node_id c_addr | .announceResolve _ node_id c_addr => node_id = x ∧ c_addr = sa
  | _ => False

/-- The LOOKUP of a pending lookup. -/
def IsLookup (s : Step) (p : Ptr) (body : Body) : Prop :=
  ∃ l, (p, l) ∈ s.post.lkps.list.items ∧ body = .lookup l.lkp_id l.find_id

/-- An ANNOUNCE of a pending announcement. -/
def IsAnnounce (s : Step) (p : Ptr) (body : Body) : Prop :=
  ∃ a host_id, (p, a) ∈ s.post.announce.list.items ∧ body = .announce a.lkp_id host_id

end Step

/-- The datagram asks the node at an address of its own, for the inquiry. -/
def Asking (own : Id) (To : Id → Ip → Prop) (Is : Ptr → Body → Prop) (a : Ptr × Id)
    (d : Ip × Bytes) : Prop :=
  ∃ sa body, Carries own d (sa, body) ∧ To a.2 sa ∧ Is a.1 body

/-- Every datagram asks the node on whose account it is, which is another one. -/
structure OnAccount (own : Id) (To : Id → Ip → Prop) (Is : Ptr → Body → Prop)
    (asks : List (Ptr × Id)) (ds : List (Ip × Bytes)) : Prop where
  paired : List.Forall₂ (Asking own To Is) asks ds
  foreign : ∀ a ∈ asks, a.2 ≠ own

theorem onAccount_nil {own : Id} {To : Id → Ip → Prop} {Is : Ptr → Body → Prop} :
    OnAccount own To Is [] [] :=
  ⟨.nil, fun _ ha => (List.not_mem_nil ha).elim⟩

/-! ## What leaves in a step -/

section Sent
variable {m m' : Main} {act : Act} {p : Ptr}

theorem sent_nil (h : m'.out = m.out) : Step.sent ⟨m, act, m'⟩ = [] := by
  rw [Step.sent]
  dsimp only
  rw [h, List.drop_length]

theorem Sent.sent_cases {msgs : List (Ip × Body)} (h : Sent m m' msgs) (act : Act) :
    Step.sent ⟨m, act, m'⟩ = [] ∨
      List.Forall₂ (Carries m.conf.node_id) (Step.sent ⟨m, act, m'⟩) msgs := by
  obtain ⟨ds, hout, hds⟩ := h.out
  have hsent : Step.sent ⟨m, act, m'⟩ = ds := by
    rw [Step.sent]
    dsimp only
    rw [hout, List.drop_left]
  rw [hsent]
  by_cases hs : m.udp.sockfd < 0
  · rw [if_pos hs] at hds
    exact .inl hds
  · rw [if_neg hs] at hds
    exact .inr hds

theorem inTurn_sublist (p : Ptr) (ns : List Routing.Node) (ds : List (Ip × Bytes)) :
    (inTurn p ns ds).Sublist ((ns.map Node.id).map fun i => (p, i)) := by
  induction ns generalizing ds with
  | nil => exact List.nil_sublist _
  | cons n ns ih =>
    cases ds with
    | nil => exact List.nil_sublist _
    | cons d ds => exact (ih ds).cons_cons _

/-- The datagrams for some nodes are in turn for each of them. -/
theorem inTurn_paired {own : Id} {ns : List Routing.Node} {body : Body} {ds : List (Ip × Bytes)}
    (h : List.Forall₂ (Carries own) ds (ns.map fun n => (n.c_addr, body))) :
    List.Forall₂ (fun a d => ∃ n ∈ ns, a = (p, n.id) ∧ Carries own d (n.c_addr, body))
      (inTurn p ns ds) ds := by
  rw [List.forall₂_map_right_iff] at h
  induction h with
  | nil => exact .nil
  | @cons d n ds ns hd _ ih =>
    refine .cons ⟨n, List.mem_cons_self, rfl, hd⟩ (ih.imp fun a d => ?_)
    rintro ⟨n', hn, ha, hcarries⟩
    exact ⟨n', List.mem_cons_of_mem n hn, ha, hcarries⟩

/-- The messages of the first round are for the first nodes, one for each. -/
theorem Sent.round_onAccount (hm : InOrder m) {id : Id} {body : Body}
    (h : Sent m m' ((firstNodes m id).map fun n => (n.c_addr, body))) {To : Id → Ip → Prop}
    {Is : Ptr → Body → Prop} (hreach : ∀ n ∈ allNodes m.nbhd, To n.id n.c_addr)
    (his : Is p body) : OnAccount m.conf.node_id To Is
      (inTurn p (firstNodes m id) (Step.sent ⟨m, act, m'⟩)) (Step.sent ⟨m, act, m'⟩) := by
  refine ⟨?_, fun a ha hme => ?_⟩
  · rcases h.sent_cases act with hnone | hall
    · rw [hnone, inTurn, List.zipWith_nil_right]
      exact .nil
    · refine (inTurn_paired hall).imp ?_
      rintro _ d ⟨n, hn, rfl, hcarries⟩
      exact ⟨_, _, hcarries, hreach n ((hm.firstNodes_sublist id).subset hn), his⟩
  · obtain ⟨i, hi, rfl⟩ := List.mem_map.mp ((inTurn_sublist _ _ _).subset ha)
    have hme : i = m.conf.node_id := hme
    exact hm.firstNodes_foreign id (hme ▸ hi)

/-- What is sent to a single node is on its account. -/
theorem Sent.single_onAccount {msgs : List (Ip × Body)} (h : Sent m m' msgs)
    {To : Id → Ip → Prop} {Is : Ptr → Body → Prop} {x : Id}
    (hmsgs : ∀ msg ∈ msgs, To x msg.1 ∧ Is p msg.2) (hx : x = m.conf.node_id → msgs = []) :
    OnAccount m.conf.node_id To Is ((Step.sent ⟨m, act, m'⟩).map fun _ => (p, x))
      (Step.sent ⟨m, act, m'⟩) := by
  have hpaired : ∀ d ∈ Step.sent ⟨m, act, m'⟩, ∃ msg ∈ msgs, Carries m.conf.node_id d msg := by
    intro d hd
    rcases h.sent_cases act with hnone | hall
    · rw [hnone] at hd
      cases hd
    · obtain ⟨i, hi, rfl⟩ := List.mem_iff_getElem.mp hd
      have hlt := hall.length_eq ▸ hi
      exact ⟨msgs[i], List.getElem_mem hlt, List.forall₂_iff_get.mp hall |>.2 i hi hlt⟩
  refine ⟨?_, fun a ha hme => ?_⟩
  · rw [List.forall₂_map_left_iff, List.forall₂_same]
    intro d hd
    obtain ⟨⟨sa, body⟩, hmsg, hcarries⟩ := hpaired d hd
    exact ⟨sa, body, hcarries, hmsgs _ hmsg⟩
  · obtain ⟨d, hd, rfl⟩ := List.mem_map.mp ha
    obtain ⟨msg, hmsg, -⟩ := hpaired d hd
    rw [hx hme] at hmsg
    cases hmsg

/-- At most one message is sent to a single node. -/
theorem Sent.single {msgs : List (Ip × Body)} (h : Sent m m' msgs) (hone : msgs.length ≤ 1)
    (x : Id) : ((Step.sent ⟨m, act, m'⟩).map fun _ => (p, x)).Sublist [(p, x)] := by
  have hle : (Step.sent ⟨m, act, m'⟩).length ≤ 1 := by
    rcases h.sent_cases act with hnone | hall
    · rw [hnone]
      exact Nat.zero_le 1
    · exact hall.length_eq ▸ hone
  match hds : Step.sent ⟨m, act, m'⟩ with
  | [] => exact List.nil_sublist _
  | [d] => exact List.Sublist.refl _
  | d :: e :: ds =>
    rw [hds, List.length_cons, List.length_cons] at hle
    omega

end Sent

/-! ## Lookups -/

section Lookups
variable {m m' : Main} {act : Act} {xs xs' ys zs : List (Ptr × Lookup)} {p : Ptr} {l : Lookup}

theorem Looking.desk_eq (h : Looking m xs) :
    lkpDesk m = ⟨m.lkps.list.fresh, xs.map fun x => (x.1, askedIds x.2.asked)⟩ := by
  rw [lkpDesk, h.items_eq]

theorem lookups_other (h : ¬ act.onLkps) : Step.lookups ⟨m, act, m'⟩ = [] := by
  cases act with
  | lkpPut find_id callback ctx => exact absurd trivial h
  | lkpResolve lkp_id node_id c_addr => exact absurd trivial h
  | _ => rfl

theorem lookups_resolve (h : Looking m (ys ++ (p, l) :: zs)) (x : Id) (c_addr : Ip) :
    Step.lookups ⟨m, .lkpResolve l.lkp_id x c_addr, m'⟩ =
      (Step.sent ⟨m, .lkpResolve l.lkp_id x c_addr, m'⟩).map fun _ => (p, x) := by
  rw [Step.lookups]
  dsimp only
  rw [h.items_filter, List.flatMap_singleton]

/-- Where nothing is sent, nothing is sent for a lookup. -/
theorem lookups_nil (h : m'.out = m.out) : Step.lookups ⟨m, act, m'⟩ = [] := by
  cases act with
  | lkpPut find_id callback ctx =>
    rw [Step.lookups]
    dsimp only
    rw [sent_nil h, inTurn, List.zipWith_nil_right]
  | lkpResolve lkp_id node_id c_addr =>
    rw [Step.lookups]
    dsimp only
    rw [sent_nil h]
    exact List.flatMap_eq_nil_iff.mpr fun _ _ => rfl
  | _ => rfl

/-- A step of the daemon is a step of the inquiries. -/
theorem LkpTurn.inquires (h : LkpTurn m act m' xs xs') (hm : InOrder m) (hx : Looking m xs)
    (hx' : Looking m' xs') :
    Inquires (lkpDesk m) (Step.lookups ⟨m, act, m'⟩) (lkpDesk m') := by
  rw [hx.desk_eq, hx'.desk_eq]
  cases h with
  | put hread hasked hfresh hsent =>
    rw [hfresh, List.map_append, List.map_singleton, hasked.askedIds_eq]
    exact .start (hm.firstNodes_nodup _) (inTurn_sublist _ _ _)
  | ask hids hnew hasked hfresh hsent =>
    rw [hfresh, List.map_append, List.map_append, List.map_cons, List.map_cons,
      hids.askedIds_eq, hasked.askedIds_eq, lookups_resolve hx]
    exact .ask hnew (hsent.single (by split <;> simp) _)
  | ignore =>
    rw [lookups_nil rfl]
    exact .drop (.refl _)
  | success hfresh hout hcalls =>
    rw [hfresh, lookups_nil hout, List.map_append, List.map_append, List.map_cons]
    exact .drop ((List.sublist_cons_self _ _).append_left _)
  | late hne =>
    rw [lookups_nil rfl]
    exact .drop (.refl _)
  | expire hfresh hout hcalls =>
    rw [hfresh, lookups_nil hout]
    exact .drop (List.filter_sublist.map _)
  | other hact hlkps hcalls =>
    rw [hlkps, lookups_other hact]
    exact .drop (.refl _)

/-- The functions of `lookup.c` send LOOKUPs, each on account of another node. -/
theorem LkpTurn.onAccount (h : LkpTurn m act m' xs xs') (hm : InOrder m) (hx : Looking m xs)
    (hx' : Looking m' xs') (hact : act.onLkps) :
    OnAccount m.conf.node_id (Step.Reaches ⟨m, act, m'⟩) (Step.IsLookup ⟨m, act, m'⟩)
      (Step.lookups ⟨m, act, m'⟩) (Step.sent ⟨m, act, m'⟩) := by
  have hquiet : m'.out = m.out →
      OnAccount m.conf.node_id (Step.Reaches ⟨m, act, m'⟩) (Step.IsLookup ⟨m, act, m'⟩)
        (Step.lookups ⟨m, act, m'⟩) (Step.sent ⟨m, act, m'⟩) := by
    intro hout
    rw [lookups_nil hout, sent_nil hout]
    exact onAccount_nil
  have hitems : m'.lkps.list.items = xs' := hx'.items_eq
  cases h with
  | @put find_id lkp_id callback ctx asked m' xs hread hasked hfresh hsent =>
    have hmem : (m.lkps.list.fresh, ⟨asked, find_id, lkp_id, callback, ctx, timeAddXSec 5 m⟩) ∈
        m'.lkps.list.items := by
      rw [hitems]
      exact List.mem_append_right _ (List.mem_singleton_self _)
    exact hsent.round_onAccount hm (fun n hn => ⟨n, hn, rfl, rfl⟩) ⟨_, hmem, rfl⟩
  | @ask p l ids x c_addr asked m' ys zs hids hnew hasked hfresh hsent =>
    rw [lookups_resolve hx]
    refine hsent.single_onAccount (fun msg hmsg => ?_) fun hme => if_pos (nodeMe_iff.mpr hme)
    split at hmsg
    · cases hmsg
    · rw [List.mem_singleton.mp hmsg]
      refine ⟨⟨rfl, rfl⟩, { l with asked := asked }, ?_, rfl⟩
      rw [hitems]
      exact List.mem_append_right _ List.mem_cons_self
  | ignore => exact hquiet rfl
  | success hfresh hout hcalls => exact hquiet hout
  | late hne => exact hquiet rfl
  | expire hfresh hout hcalls => exact hquiet hout
  | other hother hlkps hcalls => exact absurd hact hother

end Lookups

/-! ## Announcements -/

section Announcements
variable {m m' : Main} {act : Act} {xs xs' ys zs : List (Ptr × Announce)} {p : Ptr} {a : Announce}

theorem Announcing.desk_eq (h : Announcing m xs) :
    announceDesk m = ⟨m.announce.list.fresh, xs.map fun x => (x.1, askedIds x.2.asked)⟩ := by
  rw [announceDesk, h.items_eq]

theorem announcements_other (h : ¬ act.onAnnounce) : Step.announcements ⟨m, act, m'⟩ = [] := by
  cases act with
  | announcePut lkp_id host_id => exact absurd trivial h
  | announceResolve lkp_id node_id c_addr => exact absurd trivial h
  | _ => rfl

theorem announcements_resolve (h : Announcing m (ys ++ (p, a) :: zs)) (x : Id) (c_addr : Ip) :
    Step.announcements ⟨m, .announceResolve a.lkp_id x c_addr, m'⟩ =
      (Step.sent ⟨m, .announceResolve a.lkp_id x c_addr, m'⟩).map fun _ => (p, x) := by
  rw [Step.announcements]
  dsimp only
  rw [h.items_filter, List.flatMap_singleton]

/-- Where nothing is sent, nothing is sent for an announcement. -/
theorem announcements_nil (h : m'.out = m.out) : Step.announcements ⟨m, act, m'⟩ = [] := by
  cases act with
  | announcePut lkp_id host_id =>
    rw [Step.announcements]
    dsimp only
    rw [sent_nil h, inTurn, List.zipWith_nil_right]
  | announceResolve lkp_id node_id c_addr =>
    rw [Step.announcements]
    dsimp only
    rw [sent_nil h]
    exact List.flatMap_eq_nil_iff.mpr fun _ _ => rfl
  | _ => rfl

/-- A step of the daemon is a step of the inquiries. -/
theorem AnnounceTurn.inquires (h : AnnounceTurn m act m' xs xs') (hm : InOrder m)
    (hx : Announcing m xs) (hx' : Announcing m' xs') :
    Inquires (announceDesk m) (Step.announcements ⟨m, act, m'⟩) (announceDesk m') := by
  rw [hx.desk_eq, hx'.desk_eq]
  cases h with
  | put hasked hfresh hsent =>
    rw [hfresh, List.map_append, List.map_singleton, hasked.askedIds_eq]
    exact .start (hm.firstNodes_nodup _) (inTurn_sublist _ _ _)
  | ask hids hnew hasked hfresh hsent =>
    rw [hfresh, List.map_append, List.map_append, List.map_cons, List.map_cons,
      hids.askedIds_eq, hasked.askedIds_eq, announcements_resolve hx]
    exact .ask hnew (hsent.single (by split <;> simp) _)
  | ignore =>
    rw [announcements_nil rfl]
    exact .drop (.refl _)
  | expire hfresh hout =>
    rw [hfresh, announcements_nil hout]
    exact .drop (List.filter_sublist.map _)
  | other hact hannounce =>
    rw [hannounce, announcements_other hact]
    exact .drop (.refl _)

/-- The functions of `announce.c` send ANNOUNCEs, each on account of another node. -/
theorem AnnounceTurn.onAccount (h : AnnounceTurn m act m' xs xs') (hm : InOrder m)
    (hx : Announcing m xs) (hx' : Announcing m' xs') (hact : act.onAnnounce) :
    OnAccount m.conf.node_id (Step.Reaches ⟨m, act, m'⟩) (Step.IsAnnounce ⟨m, act, m'⟩)
      (Step.announcements ⟨m, act, m'⟩) (Step.sent ⟨m, act, m'⟩) := by
  have hquiet : m'.out = m.out →
      OnAccount m.conf.node_id (Step.Reaches ⟨m, act, m'⟩) (Step.IsAnnounce ⟨m, act, m'⟩)
        (Step.announcements ⟨m, act, m'⟩) (Step.sent ⟨m, act, m'⟩) := by
    intro hout
    rw [announcements_nil hout, sent_nil hout]
    exact onAccount_nil
  have hitems : m'.announce.list.items = xs' := hx'.items_eq
  cases h with
  | @put lkp_id host_id asked m' xs hasked hfresh hsent =>
    have hmem : (m.announce.list.fresh, ⟨asked, lkp_id, timeAddXSec 10 m⟩) ∈
        m'.announce.list.items := by
      rw [hitems]
      exact List.mem_append_right _ (List.mem_singleton_self _)
    exact hsent.round_onAccount hm (fun n hn => ⟨n, hn, rfl, rfl⟩) ⟨_, _, hmem, rfl⟩
  | @ask p a ids x c_addr asked m' ys zs hids hnew hasked hfresh hsent =>
    rw [announcements_resolve hx]
    refine hsent.single_onAccount (fun msg hmsg => ?_) fun hme => if_neg ?_
    · split at hmsg
      · rw [List.mem_singleton.mp hmsg]
        refine ⟨⟨rfl, rfl⟩, { a with asked := asked }, _, ?_, rfl⟩
        rw [hitems]
        exact List.mem_append_right _ List.mem_cons_self
      · cases hmsg
    · exact fun hask => hask.1 (nodeMe_iff.mpr hme)
  | ignore => exact hquiet rfl
  | expire hfresh hout => exact hquiet hout
  | other hother hannounce => exact absurd hact hother

end Announcements

/-! ## Runs -/

/-- After some steps no node has been asked twice, in the state of a node with this id. -/
structure Courteous (own : Id) (m : Main) (past : List Step) : Prop where
  conf : m.conf.node_id = own
  inOrder : InOrder m
  looking : ∃ xs, Looking m xs
  announcing : ∃ xs, Announcing m xs
  lookups : AskedOnce (lkpDesk m) (past.flatMap Step.lookups)
  announcements : AskedOnce (announceDesk m) (past.flatMap Step.announcements)
  accounts : ∀ s ∈ past,
    (s.act.onLkps → OnAccount own s.Reaches s.IsLookup s.lookups s.sent) ∧
    (s.act.onAnnounce → OnAccount own s.Reaches s.IsAnnounce s.announcements s.sent)

section Runs
variable {own : Id} {m m' : Main} {s : Step} {past tr : List Step}

theorem Courteous.step (h : Courteous own s.pre past) (hd : Deed s.pre s.act s.post)
    (hlkps : s.drawsUnused) (hannounce : s.announcesUnused) :
    Courteous own s.post (past ++ [s]) := by
  obtain ⟨xs, hx⟩ := h.looking
  obtain ⟨ys, hy⟩ := h.announcing
  obtain ⟨xs', hx', hlkp⟩ := hd.lkpTurn h.inOrder hx hlkps
  obtain ⟨ys', hy', hann⟩ := hd.announceTurn h.inOrder hy hannounce
  have hmoved := hd.moved h.inOrder
  refine ⟨hmoved.conf ▸ h.conf, hmoved.inOrder h.inOrder, ⟨xs', hx'⟩, ⟨ys', hy'⟩, ?_, ?_, ?_⟩
  · rw [List.flatMap_append, List.flatMap_singleton]
    exact h.lookups.step (hlkp.inquires h.inOrder hx hx')
  · rw [List.flatMap_append, List.flatMap_singleton]
    exact h.announcements.step (hann.inquires h.inOrder hy hy')
  · intro s' hs'
    rcases List.mem_append.mp hs' with hs' | hs'
    · exact h.accounts s' hs'
    · obtain rfl := List.mem_singleton.mp hs'
      rw [← h.conf]
      exact ⟨hlkp.onAccount h.inOrder hx hx', hann.onAccount h.inOrder hy hy'⟩

theorem mainInit_courteous (conf : Conf) (udp : Udp) (time_now : ℤ) (urandom : ℕ → Option Id)
    (random : ℕ → ℕ) : Ensures (mainInit conf udp time_now urandom random) fun m =>
      Courteous conf.node_id m [] := by
  intro m hinit
  obtain ⟨hconf, hord, -⟩ := mainInit_ensures conf udp time_now urandom random m hinit
  have hlists : Looking m [] ∧ Announcing m [] := by
    rw [mainInit] at hinit
    obtain ⟨t, -, hinit⟩ := exec_bind_eq_ok.mp hinit
    rw [← Except.ok.inj hinit]
    exact ⟨⟨registered_init 4096, by simp⟩, ⟨registered_init 4096, by simp⟩⟩
  refine ⟨by rw [hconf], hord, ⟨[], hlists.1⟩, ⟨[], hlists.2⟩, ?_, ?_, by simp⟩
  · rw [hlists.1.desk_eq]
    exact askedOnce_nil _
  · rw [hlists.2.desk_eq]
    exact askedOnce_nil _

/-- What is on account of the node itself would have been sent by a step. -/
theorem Courteous.foreign (h : Courteous own m past) :
    (∀ a ∈ past.flatMap Step.lookups, a.2 ≠ own) ∧
      ∀ a ∈ past.flatMap Step.announcements, a.2 ≠ own := by
  constructor
  · intro a ha
    obtain ⟨⟨pre, act, post⟩, hs, hmem⟩ := List.mem_flatMap.mp ha
    by_cases hact : act.onLkps
    · exact ((h.accounts _ hs).1 hact).foreign a hmem
    · rw [lookups_other hact] at hmem
      cases hmem
  · intro a ha
    obtain ⟨⟨pre, act, post⟩, hs, hmem⟩ := List.mem_flatMap.mp ha
    by_cases hact : act.onAnnounce
    · exact ((h.accounts _ hs).2 hact).foreign a hmem
    · rw [announcements_other hact] at hmem
      cases hmem

end Runs

/-- In every sequence of steps each lookup sends at most one LOOKUP, and each announcement at most
one ANNOUNCE, on account of a node, and none on account of the node itself. No datagram is left out
of the accounts, and each goes to the node and asks for the lookup that the account names. -/
theorem node_asked_once (conf : Conf) (udp : Udp) (time_now : ℤ) (urandom : ℕ → Option Id)
    (random : ℕ → ℕ) (m₀ m : Main) (tr : List Step)
    (hinit : mainInit conf udp time_now urandom random = .ok m₀) (hrun : Deeds m₀ tr m)
    (hlkps : ∀ s ∈ tr, s.drawsUnused) (hannounce : ∀ s ∈ tr, s.announcesUnused) :
    (∀ p x, (tr.flatMap Step.lookups).count (p, x) ≤ 1 ∧
      (tr.flatMap Step.announcements).count (p, x) ≤ 1) ∧
    (∀ p, (p, conf.node_id) ∉ tr.flatMap Step.lookups ∧
      (p, conf.node_id) ∉ tr.flatMap Step.announcements) ∧
    ∀ s ∈ tr,
      (s.act.onLkps → OnAccount conf.node_id s.Reaches s.IsLookup s.lookups s.sent) ∧
      (s.act.onAnnounce →
        OnAccount conf.node_id s.Reaches s.IsAnnounce s.announcements s.sent) := by
  have hstart := mainInit_courteous conf udp time_now urandom random m₀ hinit
  have hend : Courteous conf.node_id m ([] ++ tr) := hrun.history
    (fun s hs hd _ hpast => hpast.step hd (hlkps s hs) (hannounce s hs)) hstart
  rw [List.nil_append] at hend
  refine ⟨fun p x => ⟨?_, ?_⟩, fun p => ⟨fun hp => ?_, fun hp => ?_⟩, hend.accounts⟩
  · exact List.nodup_iff_count_le_one.mp hend.lookups.nodup _
  · exact List.nodup_iff_count_le_one.mp hend.announcements.nodup _
  · exact hend.foreign.1 _ hp rfl
  · exact hend.foreign.2 _ hp rfl

/-- One node in the table and another one in the replies, which also name the node itself. -/
theorem node_asked_once_pair : ∃ m₀ m tr, Deeds m₀ tr m ∧
    tr.flatMap Step.lookups = [(0, headId 1), (0, headId 5)] ∧
    tr.flatMap Step.announcements = [(0, headId 1)] ∧
    (∀ p x, (tr.flatMap Step.lookups).count (p, x) ≤ 1 ∧
      (tr.flatMap Step.announcements).count (p, x) ≤ 1) ∧
    (∀ p, (p, headId 0xff) ∉ tr.flatMap Step.lookups ∧
      (p, headId 0xff) ∉ tr.flatMap Step.announcements) ∧
    ∀ s ∈ tr,
      (s.act.onLkps → OnAccount (headId 0xff) s.Reaches s.IsLookup s.lookups s.sent) ∧
      (s.act.onAnnounce →
        OnAccount (headId 0xff) s.Reaches s.IsAnnounce s.announcements s.sent) := by
  let sa : Ip := (newNode (headId 0)).c_addr
  have hcalc : (do
      let m₀ ← mainInit ⟨headId 0xff, headId 0, none, none⟩ ⟨3, true⟩ 0
        (fun k => some (headId k.toUInt8)) fun _ => 0
      let m₁ ← nbhdPut (headId 1) sa m₀
      let m₂ ← lkpPut (headId 3) none 0 m₁
      let m₃ ← lkpResolve (headId 2) (headId 5) sa m₂
      let m₄ ← lkpResolve (headId 2) (headId 5) sa m₃
      let m₅ ← lkpResolve (headId 2) (headId 0xff) sa m₄
      let m₆ ← announcePut (headId 9) (headId 4) m₅
      return ([Step.lookups ⟨m₁, .lkpPut (headId 3) none 0, m₂⟩,
        Step.lookups ⟨m₂, .lkpResolve (headId 2) (headId 5) sa, m₃⟩,
        Step.lookups ⟨m₃, .lkpResolve (headId 2) (headId 5) sa, m₄⟩,
        Step.lookups ⟨m₄, .lkpResolve (headId 2) (headId 0xff) sa, m₅⟩,
        Step.announcements ⟨m₅, .announcePut (headId 9) (headId 4), m₆⟩],
        m₁.lkps.list.items.length, m₅.announce.list.items.length)) =
      .ok ([[(0, headId 1)], [(0, headId 5)], [], [], [(0, headId 1)]], 0, 0) := by
    decide +kernel
  obtain ⟨m₀, hinit, hcalc⟩ := exec_bind_eq_ok.mp hcalc
  obtain ⟨m₁, h₁, hcalc⟩ := exec_bind_eq_ok.mp hcalc
  obtain ⟨m₂, h₂, hcalc⟩ := exec_bind_eq_ok.mp hcalc
  obtain ⟨m₃, h₃, hcalc⟩ := exec_bind_eq_ok.mp hcalc
  obtain ⟨m₄, h₄, hcalc⟩ := exec_bind_eq_ok.mp hcalc
  obtain ⟨m₅, h₅, hcalc⟩ := exec_bind_eq_ok.mp hcalc
  obtain ⟨m₆, h₆, hcalc⟩ := exec_bind_eq_ok.mp hcalc
  simp only [exec_pure, Except.ok.injEq, Prod.mk.injEq, List.cons.injEq, and_true,
    List.length_eq_zero_iff] at hcalc
  obtain ⟨⟨hl₂, hl₃, hl₄, hl₅, ha₆⟩, hlkps, hann⟩ := hcalc
  let tr : List Step := [⟨m₀, .nbhdPut (headId 1) sa, m₁⟩, ⟨m₁, .lkpPut (headId 3) none 0, m₂⟩,
    ⟨m₂, .lkpResolve (headId 2) (headId 5) sa, m₃⟩, ⟨m₃, .lkpResolve (headId 2) (headId 5) sa, m₄⟩,
    ⟨m₄, .lkpResolve (headId 2) (headId 0xff) sa, m₅⟩,
    ⟨m₅, .announcePut (headId 9) (headId 4), m₆⟩]
  have hrun : Deeds m₀ tr m₆ := .cons (.nbhdPut h₁) <| .cons (.lkpPut h₂) <|
    .cons (.lkpResolve h₃) <| .cons (.lkpResolve h₄) <| .cons (.lkpResolve h₅) <|
    .cons (.announcePut h₆) <| .nil m₆
  have hdraws : ∀ s ∈ tr, s.drawsUnused := by
    intro s hs
    simp only [tr, List.mem_cons, List.not_mem_nil, or_false] at hs
    rcases hs with rfl | rfl | rfl | rfl | rfl | rfl
    · exact Step.drawsUnused_of_act (by intros; simp)
    · intro find_id callback ctx lkp_id _ _ x hx
      rw [hlkps] at hx
      cases hx
    · exact Step.drawsUnused_of_act (by intros; simp)
    · exact Step.drawsUnused_of_act (by intros; simp)
    · exact Step.drawsUnused_of_act (by intros; simp)
    · exact Step.drawsUnused_of_act (by intros; simp)
  have hannounce : ∀ s ∈ tr, s.announcesUnused := by
    intro s hs
    simp only [tr, List.mem_cons, List.not_mem_nil, or_false] at hs
    rcases hs with rfl | rfl | rfl | rfl | rfl | rfl
    · exact Step.announcesUnused_of_act (by intros; simp)
    · exact Step.announcesUnused_of_act (by intros; simp)
    · exact Step.announcesUnused_of_act (by intros; simp)
    · exact Step.announcesUnused_of_act (by intros; simp)
    · exact Step.announcesUnused_of_act (by intros; simp)
    · intro lkp_id host_id _ x hx
      rw [hann] at hx
      cases hx
  have honce := node_asked_once _ _ _ _ _ m₀ m₆ tr hinit hrun hdraws hannounce
  refine ⟨m₀, m₆, tr, hrun, ?_, ?_, honce⟩
  · simp only [tr, List.flatMap_cons, List.flatMap_nil, hl₂, hl₃, hl₄, hl₅]
    rfl
  · simp only [tr, List.flatMap_cons, List.flatMap_nil, ha₆]
    rfl

end Masala.Daemon
