import Masala.Daemon.Moved

/-!
# What a node does, call by call

The functions below `p2p.c` as the steps of a machine. A step is one call with
its arguments, or something that is aside from table, lookups, announcements,
callbacks and clock. Whatever a node does is a sequence of such steps.
-/
namespace Masala.Daemon
open Library Container Bencode Routing Session

/-! ## Calls that change the table -/

section Neighborhood
variable {m : Main}

theorem nodeMe_iff {id : Id} : nodeMe m id = true ↔ id = m.conf.node_id := by
  simp [nodeMe, nodeEqual, Octets.memcmp_eq]

theorem moved_of_change {nbhd : Table} (h : Change m.conf.node_id m.nbhd nbhd) :
    Moved m { m with nbhd := nbhd } := ⟨rfl, .single h⟩

/-- Assigning to fields other than the id of a node of the table. -/
theorem InOrder.retouched (hm : InOrder m) {c : Cell} {p : Ptr} {n : Routing.Node} {t' : Table}
    {f : Routing.Node → Routing.Node} (hc : c ∈ cells m.nbhd) (hp : (p, n) ∈ c.nodes)
    (h : m.nbhd.setNode (some c.ptr) (some p) f = .ok t') (hf : ∀ n, (f n).id = n.id) :
    Retouched m.nbhd t' := by
  obtain ⟨cs, ds, hr⟩ := hm.routed
  obtain ⟨cs₁, cs₂, hcells⟩ := List.append_of_mem hc
  obtain ⟨t₁, hset, ht⟩ := hr.sound.setNode_retouched hcells hp (hf n)
  obtain rfl := Except.ok.inj (hset.symm.trans h)
  exact ht

/-- Assigning to a node that `bckt_find_node` has found. -/
theorem InOrder.setNode (hm : InOrder m) (id : Id) {f : Routing.Node → Routing.Node}
    (hf : ∀ n, (f n).id = n.id) : Ensures (bcktFindNode m.nbhd id) fun r =>
      ∀ item_b item_n, r = some (item_b, item_n) →
        Ensures (m.nbhd.setNode (some item_b) (some item_n) f) (Retouched m.nbhd) := by
  obtain ⟨cs, ds, hr⟩ := hm.routed
  rcases hr.findNode id with ⟨hfind, -⟩ | ⟨c, p, n, hfind, hc, hp, -⟩
  · rw [hfind]
    refine ensures_ok.mpr fun item_b item_n hr => ?_
    cases hr
  · rw [hfind]
    refine ensures_ok.mpr fun item_b item_n hr => ?_
    cases hr
    exact fun t' ht => hm.retouched hc hp ht hf

theorem nbhdPut_moved (hm : InOrder m) (id : Id) (sa : Ip) :
    Ensures (nbhdPut id sa m) (Moved m) := by
  refine ensures_ite (fun _ => ensures_ok.mpr (.refl m)) fun hme => ?_
  have hset := hm.setNode id (f := fun n => { n with c_addr := sa }) fun _ => rfl
  refine hset.bind fun r hr => ?_
  cases r with
  | some r =>
    obtain ⟨item_b, item_n⟩ := r
    exact (hr item_b item_n rfl).bind fun t' ht => ensures_ok.mpr (moved_of_change (.retouch ht))
  | none =>
    let n : Routing.Node := ⟨sa, id, (timeAdd5MinApprox m).1,
      (timeAdd5MinApprox (timeAdd5MinApprox m).2).1, 1⟩
    have hne : n.id ≠ m.conf.node_id := fun he => hme (nodeMe_iff.mpr he)
    have hput : Ensures (bcktPut m.nbhd n) (Change m.conf.node_id m.nbhd) :=
      fun t' ht => .put n hne ht
    refine hput.bind fun t' ht => ?_
    have hmove : Moved m { m with draws := m.draws + 1 + 1, nbhd := t' } := ⟨rfl, .single ht⟩
    refine (sendPing_aside sa _ SEND_UNICAST).bind fun m₁ h₁ => ?_
    refine (sendFind_aside sa m₁ _).mono fun m₂ h₂ => ?_
    exact hmove.trans (h₁.trans h₂).quiet.moved

theorem nbhdPinged_retouched (hm : InOrder m) (id : Id) : Ensures (nbhdPinged id m) fun m' =>
    m'.conf = m.conf ∧ Retouched m.nbhd m'.nbhd := by
  obtain ⟨cs, ds, hroute⟩ := hm.routed
  have hset := hm.setNode id (f := fun n =>
    { n with pinged := n.pinged + 1, time_ping := (timeAdd5MinApprox m).1 }) fun _ => rfl
  refine hset.bind fun r hr => ?_
  cases r with
  | none => exact ensures_ok.mpr ⟨rfl, .refl hroute.sound⟩
  | some r =>
    obtain ⟨item_b, item_n⟩ := r
    exact (hr item_b item_n rfl).bind fun t' ht => ensures_ok.mpr ⟨rfl, ht⟩

theorem nbhdPinged_moved (hm : InOrder m) (id : Id) : Ensures (nbhdPinged id m) (Moved m) :=
  (nbhdPinged_retouched hm id).mono fun _ h => ⟨h.1, .single (.retouch h.2)⟩

theorem nbhdPonged_moved (hm : InOrder m) (id : Id) (sa : Ip) :
    Ensures (nbhdPonged id sa m) (Moved m) := by
  have hset := hm.setNode id (f := fun n =>
    { n with pinged := 0, time_ping := (timeAdd5MinApprox m).1, c_addr := sa }) fun _ => rfl
  refine hset.bind fun r hr => ?_
  cases r with
  | none => exact ensures_ok.mpr (.refl m)
  | some r =>
    obtain ⟨item_b, item_n⟩ := r
    exact (hr item_b item_n rfl).bind fun t' ht => ensures_ok.mpr ⟨rfl, .single (.retouch ht)⟩

end Neighborhood

/-! ## The machine -/

inductive Act
  | tick (now : ℤ)
  | nbhdPut (id : Id) (sa : Ip)
  | nbhdPinged (id : Id)
  | nbhdPonged (id : Id) (sa : Ip)
  | nbhdFind
  | nbhdExpire
  | nbhdSplit
  | lkpPut (find_id : Id) (callback : Option ℕ) (ctx : ℕ)
  | lkpResolve (lkp_id node_id : Id) (c_addr : Ip)
  | lkpSuccess (lkp_id node_id : Id) (address : Octets 16)
  | lkpExpire
  | announcePut (lkp_id host_id : Id)
  | announceResolve (lkp_id node_id : Id) (c_addr : Ip)
  | announceExpire
  | answer (call : Call)
  | aside

/-- The steps. Of `nbhd_ping` and `nbhd_find` they are what happens to one node; an `answer` is a
callback that `dns_lookup` calls itself. -/
inductive Deed (m : Main) : Act → Main → Prop
  | tick (now : ℤ) : Deed m (.tick now) (m.tick now)
  | nbhdPut {id : Id} {sa : Ip} {m' : Main} (h : nbhdPut id sa m = .ok m') :
      Deed m (.nbhdPut id sa) m'
  | nbhdPinged {n : Routing.Node} {m' : Main} (hn : n ∈ allNodes m.nbhd)
      (hdue : m.p2p.time_now > n.time_ping) (h : nbhdPinged n.id m = .ok m') :
      Deed m (.nbhdPinged n.id) m'
  | nbhdPonged {id : Id} {sa : Ip} {m' : Main} (h : nbhdPonged id sa m = .ok m') :
      Deed m (.nbhdPonged id sa) m'
  | nbhdFind {c : Cell} {p : Ptr} {n : Routing.Node} {time_find : ℤ} {nbhd : Table}
      (hc : c ∈ cells m.nbhd) (hp : (p, n) ∈ c.nodes)
      (h : m.nbhd.setNode (some c.ptr) (some p) (fun n => { n with time_find := time_find }) =
        .ok nbhd) :
      Deed m .nbhdFind { m with nbhd := nbhd }
  | nbhdExpire {nbhd : Table} (h : nbhdExpire m.nbhd = .ok nbhd) :
      Deed m .nbhdExpire { m with nbhd := nbhd }
  | nbhdSplit {fuel : ℕ} {nbhd : Table} (h : nbhdSplit m.conf.node_id fuel m.nbhd = .ok nbhd) :
      Deed m .nbhdSplit { m with nbhd := nbhd }
  | lkpPut {find_id : Id} {callback : Option ℕ} {ctx : ℕ} {m' : Main}
      (h : lkpPut find_id callback ctx m = .ok m') : Deed m (.lkpPut find_id callback ctx) m'
  | lkpResolve {lkp_id node_id : Id} {c_addr : Ip} {m' : Main}
      (h : lkpResolve lkp_id node_id c_addr m = .ok m') :
      Deed m (.lkpResolve lkp_id node_id c_addr) m'
  | lkpSuccess {lkp_id node_id : Id} {address : Octets 16} {m' : Main}
      (h : lkpSuccess lkp_id node_id address m = .ok m') :
      Deed m (.lkpSuccess lkp_id node_id address) m'
  | lkpExpire {m' : Main} (h : lkpExpire m = .ok m') : Deed m .lkpExpire m'
  | announcePut {lkp_id host_id : Id} {m' : Main} (h : announcePut lkp_id host_id m = .ok m') :
      Deed m (.announcePut lkp_id host_id) m'
  | announceResolve {lkp_id node_id : Id} {c_addr : Ip} {m' : Main}
      (h : announceResolve lkp_id node_id c_addr m = .ok m') :
      Deed m (.announceResolve lkp_id node_id c_addr) m'
  | announceExpire {m' : Main} (h : announceExpire m = .ok m') : Deed m .announceExpire m'
  | answer (call : Call) : Deed m (.answer call) { m with calls := m.calls ++ [call] }
  | aside {m' : Main} (h : Aside m m') : Deed m .aside m'

/-- One step of a trace. -/
structure Step where
  pre : Main
  act : Act
  post : Main

/-- The trace leads from the first state to the second. -/
inductive Deeds : Main → List Step → Main → Prop
  | nil (m : Main) : Deeds m [] m
  | cons {m m' m'' : Main} {act : Act} {tr : List Step} (h : Deed m act m') (hs : Deeds m' tr m'') :
      Deeds m (⟨m, act, m'⟩ :: tr) m''

/-- Some trace of allowed steps leads from the first state to the second. -/
def Does (allowed : Act → Prop) (m m' : Main) : Prop :=
  ∃ tr, Deeds m tr m' ∧ ∀ s ∈ tr, allowed s.act

section Deeds
variable {m m' m'' : Main} {act : Act} {tr tr' : List Step} {allowed allowed' : Act → Prop}

theorem Deeds.append (h : Deeds m tr m') (h' : Deeds m' tr' m'') : Deeds m (tr ++ tr') m'' := by
  induction h with
  | nil m => exact h'
  | cons hd _ ih => exact .cons hd (ih h')

theorem Deeds.of_append (h : Deeds m (tr ++ tr') m'') : ∃ m', Deeds m tr m' ∧ Deeds m' tr' m'' := by
  induction tr generalizing m with
  | nil => exact ⟨m, .nil m, h⟩
  | cons s tr ih =>
    cases h with
    | cons hd hs =>
      obtain ⟨m', h₁, h₂⟩ := ih hs
      exact ⟨m', .cons hd h₁, h₂⟩

/-- A step of a trace with the steps before it. -/
theorem Deeds.before {s : Step} (h : Deeds m tr m') (hs : s ∈ tr) :
    ∃ past rest, tr = past ++ s :: rest ∧ Deeds m past s.pre ∧ Deed s.pre s.act s.post := by
  obtain ⟨past, rest, rfl⟩ := List.append_of_mem hs
  obtain ⟨m₁, h₁, h₂⟩ := h.of_append
  cases h₂ with
  | cons hd _ => exact ⟨past, rest, rfl, h₁, hd⟩

/-- What every step keeps holds at the end of a trace. -/
theorem Deeds.keeps {Inv : Main → Prop} (h : Deeds m tr m')
    (hstep : ∀ s ∈ tr, Deed s.pre s.act s.post → Inv s.pre → Inv s.post) (hm : Inv m) : Inv m' := by
  induction h with
  | nil m => exact hm
  | cons hd _ ih =>
    exact ih (fun s hs => hstep s (List.mem_cons_of_mem _ hs)) (hstep _ List.mem_cons_self hd hm)

/-- The same with an invariant about the steps so far. -/
theorem Deeds.history {Inv : Main → List Step → Prop} (h : Deeds m tr m')
    (hstep : ∀ s ∈ tr, Deed s.pre s.act s.post → ∀ past, Inv s.pre past → Inv s.post (past ++ [s]))
    {past : List Step} (hm : Inv m past) : Inv m' (past ++ tr) := by
  induction h generalizing past with
  | nil m => rwa [List.append_nil]
  | cons hd _ ih =>
    rw [List.append_cons]
    exact ih (fun s hs => hstep s (List.mem_cons_of_mem _ hs))
      (hstep _ List.mem_cons_self hd past hm)

/-- Every step is a step of the table machine, or several. -/
theorem Deed.moved (hm : InOrder m) (h : Deed m act m') : Moved m m' := by
  cases h with
  | tick now => exact ⟨rfl, .refl⟩
  | nbhdPut h => exact nbhdPut_moved hm _ _ m' h
  | nbhdPinged _ _ h => exact nbhdPinged_moved hm _ m' h
  | nbhdPonged h => exact nbhdPonged_moved hm _ _ m' h
  | nbhdFind hc hp h => exact moved_of_change (.retouch (hm.retouched hc hp h fun _ => rfl))
  | nbhdExpire h => exact ⟨rfl, nbhdExpire_changes _ _ _ h⟩
  | nbhdSplit h => exact moved_of_change (.split _ h)
  | lkpPut h => exact (lkpPut_looked _ _ _ m m' h).toQuiet.moved
  | lkpResolve h => exact (lkpResolve_looked _ _ _ m m' h).toQuiet.moved
  | lkpSuccess h => exact (lkpSuccess_looked _ _ _ m m' h).toQuiet.moved
  | lkpExpire h => exact (lkpExpire_looked m m' h).toQuiet.moved
  | announcePut h => exact (announcePut_announced _ _ m m' h).toQuiet.moved
  | announceResolve h => exact (announceResolve_announced _ _ _ m m' h).toQuiet.moved
  | announceExpire h => exact (announceExpire_announced m m' h).toQuiet.moved
  | answer call => exact ⟨rfl, .refl⟩
  | aside h => exact h.quiet.moved

theorem Deeds.moved (h : Deeds m tr m') (hm : InOrder m) : Moved m m' := by
  induction h with
  | nil m => exact .refl m
  | cons hd _ ih =>
    have h₁ := hd.moved hm
    exact h₁.trans (ih (h₁.inOrder hm))

theorem Does.moved (h : Does allowed m m') (hm : InOrder m) : Moved m m' := by
  obtain ⟨tr, hs, -⟩ := h
  exact hs.moved hm

theorem Does.refl (m : Main) : Does allowed m m := ⟨[], .nil m, by simp⟩

theorem Does.single (h : Deed m act m') (ha : allowed act) : Does allowed m m' :=
  ⟨[⟨m, act, m'⟩], .cons h (.nil m'), by simp [ha]⟩

theorem Does.trans (h : Does allowed m m') (h' : Does allowed m' m'') : Does allowed m m'' := by
  obtain ⟨tr, hs, ha⟩ := h
  obtain ⟨tr', hs', ha'⟩ := h'
  refine ⟨tr ++ tr', hs.append hs', fun s hs => ?_⟩
  exact (List.mem_append.mp hs).elim (ha s) (ha' s)

/-- What every allowed step keeps holds at the end. -/
theorem Does.keeps {Inv : Main → Prop} (h : Does allowed m m')
    (hstep : ∀ m act m', allowed act → Deed m act m' → Inv m → Inv m') (hm : Inv m) : Inv m' := by
  obtain ⟨tr, hs, ha⟩ := h
  exact hs.keeps (fun s hmem => hstep s.pre s.act s.post (ha s hmem)) hm

theorem Does.mono (h : Does allowed m m') (hle : ∀ act, allowed act → allowed' act) :
    Does allowed' m m' := by
  obtain ⟨tr, hs, ha⟩ := h
  exact ⟨tr, hs, fun s hs => hle _ (ha s hs)⟩

theorem Does.bind {x : Exec Main} {f : Main → Exec Main} (hm : InOrder m)
    (hx : Ensures x (Does allowed m)) (hf : ∀ m', InOrder m' → Ensures (f m') (Does allowed m')) :
    Ensures (x >>= f) (Does allowed m) :=
  hx.bind fun m' h => (hf m' ((h.moved hm).inOrder hm)).mono fun _ h' => h.trans h'

end Deeds
end Masala.Daemon
