import Masala.Daemon.Deeds
import Masala.Routing.Roster

/-!
# What a step makes of a node

The table as a roster, step by step. A node enters with one unanswered ping, a
ping that is due adds one, an accepted PONG clears them, and only a node with
four of them leaves. The address is written by two of the steps.
-/
namespace Masala.Daemon
open Library Container Routing Session

/-- What the functions that change the table keep. -/
structure Beside (m m' : Main) : Prop where
  conf : m'.conf = m.conf
  clock : m'.p2p.time_now = m.p2p.time_now
  lkps : m'.lkps = m.lkps
  announce : m'.announce = m.announce
  calls : m'.calls = m.calls

/-- What a step that starts at the clock `now` can make of the entry for the id `x`. -/
inductive Turn (now : ℤ) (x : Id) : Act → Option Routing.Node → Option Routing.Node → Prop
  | same {act : Act} (r : Option Routing.Node) : Turn now x act r r
  | enter {sa : Ip} {time_ping : ℤ} (time_find : ℤ) (h : now + TIME_4_MINUTES ≤ time_ping) :
      Turn now x (.nbhdPut x sa) none (some ⟨sa, x, time_ping, time_find, 1⟩)
  | address {sa : Ip} (n : Routing.Node) :
      Turn now x (.nbhdPut x sa) (some n) (some { n with c_addr := sa })
  | pinged {n : Routing.Node} {time_ping : ℤ} (due : now > n.time_ping)
      (h : now + TIME_4_MINUTES ≤ time_ping) :
      Turn now x (.nbhdPinged x) (some n)
        (some { n with pinged := n.pinged + 1, time_ping := time_ping })
  | ponged {sa : Ip} {time_ping : ℤ} (n : Routing.Node) (h : now + TIME_4_MINUTES ≤ time_ping) :
      Turn now x (.nbhdPonged x sa) (some n)
        (some { n with pinged := 0, time_ping := time_ping, c_addr := sa })
  | find (n : Routing.Node) (time_find : ℤ) :
      Turn now x .nbhdFind (some n) (some { n with time_find := time_find })
  | leave {n : Routing.Node} (h : 4 ≤ n.pinged) : Turn now x .nbhdExpire (some n) none

section Beside
variable {m m' m'' : Main}

theorem Beside.refl (m : Main) : Beside m m := ⟨rfl, rfl, rfl, rfl, rfl⟩

theorem Beside.trans (h : Beside m m') (h' : Beside m' m'') : Beside m m'' :=
  ⟨h'.conf.trans h.conf, h'.clock.trans h.clock, h'.lkps.trans h.lkps,
    h'.announce.trans h.announce, h'.calls.trans h.calls⟩

theorem Aside.beside (h : Aside m m') : Beside m m' :=
  ⟨h.conf, h.clock, h.lkps, h.announce, h.calls⟩

theorem nbhdPut_beside (id : Id) (sa : Ip) (m : Main) : Ensures (nbhdPut id sa m) (Beside m) := by
  refine ensures_ite (fun _ => ensures_ok.mpr (.refl m)) fun _ => ensures_then fun r => ?_
  cases r with
  | some r => exact ensures_then fun nbhd => ensures_ok.mpr ⟨rfl, rfl, rfl, rfl, rfl⟩
  | none =>
    refine ensures_then fun nbhd => (sendPing_aside sa _ SEND_UNICAST).bind fun m₁ h₁ => ?_
    have hput : Beside m { m with draws := m.draws + 1 + 1, nbhd := nbhd } :=
      ⟨rfl, rfl, rfl, rfl, rfl⟩
    exact (sendFind_aside sa m₁ _).mono fun _ h => hput.trans (h₁.trans h).beside

theorem nbhdPinged_beside (id : Id) (m : Main) : Ensures (nbhdPinged id m) (Beside m) := by
  refine ensures_then fun r => ?_
  cases r with
  | none => exact ensures_ok.mpr (.refl m)
  | some r => exact ensures_then fun nbhd => ensures_ok.mpr ⟨rfl, rfl, rfl, rfl, rfl⟩

theorem nbhdPonged_beside (id : Id) (sa : Ip) (m : Main) :
    Ensures (nbhdPonged id sa m) (Beside m) := by
  refine ensures_then fun r => ?_
  cases r with
  | none => exact ensures_ok.mpr (.refl m)
  | some r => exact ensures_then fun nbhd => ensures_ok.mpr ⟨rfl, rfl, rfl, rfl, rfl⟩

end Beside

/-! ## The functions on the roster -/

section Roster
variable {m m' : Main}

theorem drawn_nonneg (m : Main) : 0 ≤ m.drawn := Int.natCast_nonneg _

/-- The timer is at least four minutes away. -/
theorem timeAdd5MinApprox_le (m : Main) :
    m.p2p.time_now + TIME_4_MINUTES ≤ (timeAdd5MinApprox m).1 :=
  le_add_of_nonneg_right (drawn_nonneg m)

/-- `bckt_find_node` and the assignment to the node it finds, on the map. -/
theorem InOrder.assign (hm : InOrder m) (id : Id) (f : Routing.Node → Routing.Node)
    (hf : ∀ n, (f n).id = n.id) : Ensures (bcktFindNode m.nbhd id) fun r =>
      (r = none ∧ nodeOf m.nbhd id = none) ∨ ∃ item_b item_n n, r = some (item_b, item_n) ∧
        nodeOf m.nbhd id = some n ∧ Ensures (m.nbhd.setNode (some item_b) (some item_n) f)
          fun t => nodeOf t = Function.update (nodeOf m.nbhd) id (some (f n)) := by
  obtain ⟨cs, ds, hr⟩ := hm.routed
  rcases hr.findNode_nodeOf id with ⟨hfind, hnone⟩ | ⟨c, p, n, hfind, hc, hp, hn⟩
  · rw [hfind]
    exact ensures_ok.mpr (.inl ⟨rfl, hnone⟩)
  · rw [hfind]
    refine ensures_ok.mpr (.inr ⟨c.ptr, p, n, rfl, hn, fun t ht => ?_⟩)
    have hid := (hr.nodeOf_eq_some_iff.mp hn).2
    exact hid ▸ hr.nodeOf_setNode hc hp (hf n) ht

/-- A known node gets the address, an unknown one enters. -/
theorem nbhdPut_nodeOf (hm : InOrder m) {id : Id} (hid : ¬ nodeMe m id) (sa : Ip) :
    Ensures (nbhdPut id sa m) fun m' =>
      (∃ n, nodeOf m.nbhd id = some n ∧
        nodeOf m'.nbhd = Function.update (nodeOf m.nbhd) id (some { n with c_addr := sa })) ∨
      nodeOf m.nbhd id = none ∧ ∃ time_ping time_find, m.p2p.time_now + TIME_4_MINUTES ≤ time_ping ∧
        nodeOf m'.nbhd =
          Function.update (nodeOf m.nbhd) id (some ⟨sa, id, time_ping, time_find, 1⟩) := by
  rw [nbhdPut, if_neg hid]
  refine (hm.assign id (fun n => { n with c_addr := sa }) fun _ => rfl).bind ?_
  rintro r (⟨rfl, hnone⟩ | ⟨item_b, item_n, n, rfl, hn, hset⟩)
  · obtain ⟨cs, ds, hr⟩ := hm.routed
    let n : Routing.Node := ⟨sa, id, (timeAdd5MinApprox m).1,
      (timeAdd5MinApprox (timeAdd5MinApprox m).2).1, 1⟩
    have hput : Ensures (bcktPut m.nbhd n) fun t =>
        nodeOf t = Function.update (nodeOf m.nbhd) id (some n) := fun t ht => hr.nodeOf_put hnone ht
    refine hput.bind fun t ht => (sendPing_aside sa _ SEND_UNICAST).bind fun m₁ h₁ => ?_
    refine (sendFind_aside sa m₁ _).mono fun m₂ h₂ => ?_
    refine .inr ⟨hnone, n.time_ping, n.time_find, timeAdd5MinApprox_le m, ?_⟩
    rw [(h₁.trans h₂).nbhd]
    exact ht
  · exact hset.bind fun t ht => ensures_ok.mpr (.inl ⟨n, hn, ht⟩)

theorem nbhdPinged_nodeOf (hm : InOrder m) (id : Id) : Ensures (nbhdPinged id m) fun m' =>
    (nodeOf m.nbhd id = none ∧ m'.nbhd = m.nbhd) ∨ ∃ n time_ping, nodeOf m.nbhd id = some n ∧
      m.p2p.time_now + TIME_4_MINUTES ≤ time_ping ∧
      nodeOf m'.nbhd = Function.update (nodeOf m.nbhd) id
        (some { n with pinged := n.pinged + 1, time_ping := time_ping }) := by
  refine (hm.assign id (fun n => { n with
    pinged := n.pinged + 1, time_ping := (timeAdd5MinApprox m).1 }) fun _ => rfl).bind ?_
  rintro r (⟨rfl, hnone⟩ | ⟨item_b, item_n, n, rfl, hn, hset⟩)
  · exact ensures_ok.mpr (.inl ⟨hnone, rfl⟩)
  · exact hset.bind fun t ht => ensures_ok.mpr (.inr ⟨n, _, hn, timeAdd5MinApprox_le m, ht⟩)

theorem nbhdPonged_nodeOf (hm : InOrder m) (id : Id) (sa : Ip) :
    Ensures (nbhdPonged id sa m) fun m' =>
    (nodeOf m.nbhd id = none ∧ m'.nbhd = m.nbhd) ∨ ∃ n time_ping, nodeOf m.nbhd id = some n ∧
      m.p2p.time_now + TIME_4_MINUTES ≤ time_ping ∧
      nodeOf m'.nbhd = Function.update (nodeOf m.nbhd) id
        (some { n with pinged := 0, time_ping := time_ping, c_addr := sa }) := by
  refine (hm.assign id (fun n => { n with
    pinged := 0, time_ping := (timeAdd5MinApprox m).1, c_addr := sa }) fun _ => rfl).bind ?_
  rintro r (⟨rfl, hnone⟩ | ⟨item_b, item_n, n, rfl, hn, hset⟩)
  · exact ensures_ok.mpr (.inl ⟨hnone, rfl⟩)
  · exact hset.bind fun t ht => ensures_ok.mpr (.inr ⟨n, _, hn, timeAdd5MinApprox_le m, ht⟩)

/-- An update of the map at another id. -/
theorem turn_update {now : ℤ} {x y : Id} {act : Act} {r r' : Option Routing.Node}
    {roster roster' : Id → Option Routing.Node} (hr : roster y = r)
    (h : roster' = Function.update roster y r')
    (hturn : x = y → Turn now x act r r') : Turn now x act (roster x) (roster' x) := by
  rw [h]
  by_cases hx : x = y
  · subst hx
    rw [Function.update_self, hr]
    exact hturn rfl
  · rw [Function.update_of_ne hx]
    exact .same _

theorem turn_of_eq {now : ℤ} {x : Id} {act : Act} {t t' : Table} (h : t' = t) :
    Turn now x act (nodeOf t x) (nodeOf t' x) := by
  rw [h]
  exact .same _

/-- What a step makes of the entry for an id. -/
theorem Deed.turn (hm : InOrder m) {act : Act} (h : Deed m act m') (x : Id) :
    Turn m.p2p.time_now x act (nodeOf m.nbhd x) (nodeOf m'.nbhd x) := by
  obtain ⟨cs, ds, hr⟩ := hm.routed
  cases h with
  | tick now => exact .same _
  | @nbhdPut id sa _ h =>
    by_cases hid : nodeMe m id
    · rw [Daemon.nbhdPut, if_pos hid] at h
      exact turn_of_eq (Except.ok.inj h ▸ rfl)
    · rcases nbhdPut_nodeOf hm hid sa m' h with
        ⟨n, hn, hup⟩ | ⟨hnone, time_ping, time_find, hle, hup⟩
      · exact turn_update hn hup fun hx => hx ▸ .address n
      · exact turn_update hnone hup fun hx => hx ▸ .enter time_find hle
  | @nbhdPinged n _ hn hdue h =>
    rcases nbhdPinged_nodeOf hm n.id m' h with ⟨-, hsame⟩ | ⟨n', time_ping, hn', hle, hup⟩
    · exact turn_of_eq hsame
    · have hnode := hr.nodeOf_eq_some_iff.mpr ⟨hn, rfl⟩
      obtain rfl := Option.some.inj (hnode.symm.trans hn')
      refine turn_update hnode hup ?_
      rintro rfl
      exact .pinged hdue hle
  | @nbhdPonged id sa _ h =>
    rcases nbhdPonged_nodeOf hm id sa m' h with ⟨-, hsame⟩ | ⟨n, time_ping, hn, hle, hup⟩
    · exact turn_of_eq hsame
    · exact turn_update hn hup fun hx => hx ▸ .ponged n hle
  | @nbhdFind c p n time_find nbhd hc hp h =>
    have hn := hr.nodeOf_eq_some_iff.mpr ⟨mem_allNodes.mpr ⟨c, hc, List.mem_map_of_mem hp⟩, rfl⟩
    exact turn_update hn (hr.nodeOf_setNode hc hp rfl h) fun _ => .find n time_find
  | nbhdExpire h =>
    rcases hr.nodeOf_expire h x with hsame | ⟨hnone, n, hn, hbad⟩
    · exact hsame ▸ .same _
    · rw [hn]
      exact hnone ▸ .leave hbad
  | nbhdSplit h => exact (congrFun (hr.nodeOf_split h) x) ▸ .same _
  | lkpPut h => exact turn_of_eq (lkpPut_looked _ _ _ m m' h).nbhd
  | lkpResolve h => exact turn_of_eq (lkpResolve_looked _ _ _ m m' h).nbhd
  | lkpSuccess h => exact turn_of_eq (lkpSuccess_looked _ _ _ m m' h).nbhd
  | lkpExpire h => exact turn_of_eq (lkpExpire_looked m m' h).nbhd
  | announcePut h => exact turn_of_eq (announcePut_announced _ _ m m' h).nbhd
  | announceResolve h => exact turn_of_eq (announceResolve_announced _ _ _ m m' h).nbhd
  | announceExpire h => exact turn_of_eq (announceExpire_announced m m' h).nbhd
  | answer call => exact .same _
  | aside h => exact turn_of_eq h.nbhd

/-- The clock after a step. -/
def Act.clock (now : ℤ) : Act → ℤ
  | .tick now' => now'
  | _ => now

theorem Deed.clock {act : Act} (h : Deed m act m') :
    m'.p2p.time_now = act.clock m.p2p.time_now := by
  cases h with
  | tick now => rfl
  | nbhdPut h => exact (nbhdPut_beside _ _ m m' h).clock
  | nbhdPinged _ _ h => exact (nbhdPinged_beside _ m m' h).clock
  | nbhdPonged h => exact (nbhdPonged_beside _ _ m m' h).clock
  | nbhdFind _ _ h => rfl
  | nbhdExpire h => rfl
  | nbhdSplit h => rfl
  | lkpPut h => exact (lkpPut_looked _ _ _ m m' h).clock
  | lkpResolve h => exact (lkpResolve_looked _ _ _ m m' h).clock
  | lkpSuccess h => exact (lkpSuccess_looked _ _ _ m m' h).clock
  | lkpExpire h => exact (lkpExpire_looked m m' h).clock
  | announcePut h => exact (announcePut_announced _ _ m m' h).clock
  | announceResolve h => exact (announceResolve_announced _ _ _ m m' h).clock
  | announceExpire h => exact (announceExpire_announced m m' h).clock
  | answer call => rfl
  | aside h => exact h.clock

end Roster
end Masala.Daemon
