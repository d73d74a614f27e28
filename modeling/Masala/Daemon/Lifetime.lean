import Masala.Daemon.Turns
import Masala.Daemon.Runs

/-!
# How long a node stays in the table

A node leaves with four unanswered pings, and between two pings of a node lie at
least four minutes. So the timer of the next ping bounds from below how long the
node has been there and how long ago it has answered.
-/
namespace Masala.Daemon
open Library Container Routing Session

/-- The clock readings of the events never go back. -/
def ClockInOrder (time_now : ℤ) (events : List Event) : Prop :=
  (time_now :: events.filterMap Event.clock).Pairwise (· ≤ ·)

/-- Some bucket has a node with the id. -/
def Stored (m : Main) (x : Id) : Prop := ∃ n ∈ allNodes m.nbhd, n.id = x

/-- At the clock `now`: a node with `k` unanswered pings is due for the next one no earlier than
`k` times four minutes after `since`, and has been pinged no earlier than the time before that. -/
def Guarded (since now : ℤ) : Option Routing.Node → Prop
  | none => since ≤ now
  | some n => since + TIME_4_MINUTES * n.pinged ≤ n.time_ping ∧
      since + TIME_4_MINUTES * (n.pinged - 1) ≤ now

section Guarded
variable {since now now' : ℤ} {x : Id} {act : Act} {r r' : Option Routing.Node}

theorem Guarded.later (h : Guarded since now r) (hle : now ≤ now') : Guarded since now' r := by
  cases r with
  | none => exact le_trans h hle
  | some n => exact ⟨h.1, h.2.trans hle⟩

theorem Turn.guarded (h : Turn now x act r r') (hr : Guarded since now r) :
    Guarded since now r' := by
  cases h with
  | same => exact hr
  | enter time_find hle =>
    have hsince : since ≤ now := hr
    exact ⟨by dsimp only [TIME_4_MINUTES] at *; omega, by dsimp only [TIME_4_MINUTES] at *; omega⟩
  | address n => exact hr
  | @pinged n time_ping hdue hle =>
    obtain ⟨hping, hnow⟩ := hr
    constructor
    · push_cast
      dsimp only [TIME_4_MINUTES] at *
      omega
    · push_cast
      dsimp only [TIME_4_MINUTES] at *
      omega
  | ponged n hle =>
    obtain ⟨hping, hnow⟩ := hr
    constructor
    · dsimp only [TIME_4_MINUTES] at *
      omega
    · dsimp only [TIME_4_MINUTES] at *
      omega
  | find n time_find => exact hr
  | @leave n hbad =>
    obtain ⟨hping, hnow⟩ := hr
    have hsince : since ≤ now := by
      dsimp only [TIME_4_MINUTES] at *
      omega
    exact hsince

/-- A guarded node that leaves has been guarded for twelve minutes. -/
theorem Turn.left_late {n : Routing.Node} (h : Turn now x act (some n) none)
    (hr : Guarded since now (some n)) : since + 720 ≤ now := by
  cases h with
  | leave hbad =>
    obtain ⟨hping, hnow⟩ := hr
    dsimp only [TIME_4_MINUTES] at *
    omega

end Guarded

/-! ## Events -/

section Events
variable {m m' : Main} {e : Event} {es fs : List Event} {since : ℤ} {x : Id}

theorem stored_iff_nodeOf : Stored m x ↔ nodeOf m.nbhd x ≠ none := nodeOf_ne_none_iff.symm

theorem ClockInOrder.timed (h : ClockInOrder m.p2p.time_now (e :: es)) :
    m.p2p.time_now ≤ (m.timed e).p2p.time_now ∧ ClockInOrder (m.timed e).p2p.time_now es := by
  rw [ClockInOrder] at h
  rw [Main.timed]
  cases hclock : e.clock with
  | none =>
    rw [List.filterMap_cons_none hclock] at h
    exact ⟨le_refl _, h⟩
  | some now =>
    rw [List.filterMap_cons_some hclock, List.pairwise_cons] at h
    exact ⟨h.1 now List.mem_cons_self, h.2⟩

theorem ClockInOrder.left {time_now : ℤ} (h : ClockInOrder time_now (es ++ fs)) :
    ClockInOrder time_now es := by
  rw [ClockInOrder, List.filterMap_append, ← List.cons_append] at h
  exact (List.pairwise_append.mp h).1

/-- An event only reads the clock at its start. -/
theorem step_clock (hm : InOrder m) (e : Event) : Ensures (m.step e) fun m' =>
    m'.p2p.time_now = (m.timed e).p2p.time_now := by
  have hstep : ∀ m₁ act m₂, Causes m e act → Deed m₁ act m₂ →
      m₁.p2p.time_now = (m.timed e).p2p.time_now → m₂.p2p.time_now = (m.timed e).p2p.time_now := by
    intro m₁ act m₂ hact hd h₁
    rw [hd.clock, ← h₁]
    cases act with
    | tick now => exact hact.elim
    | _ => rfl
  exact fun m' h => (step_does hm e m' h).keeps hstep rfl

/-- An event keeps a node guarded, and removes it only after twelve minutes. -/
theorem step_guarded (hm : InOrder m)
    (hg : Guarded since (m.timed e).p2p.time_now (nodeOf m.nbhd x)) : Ensures (m.step e) fun m' =>
      Guarded since m'.p2p.time_now (nodeOf m'.nbhd x) ∧
        (Stored m x → ¬ Stored m' x → since + 720 ≤ m'.p2p.time_now) := by
  intro m' h
  let now := (m.timed e).p2p.time_now
  let Inv : Main → Prop := fun m₁ => InOrder m₁ ∧ m₁.p2p.time_now = now ∧
    Guarded since now (nodeOf m₁.nbhd x) ∧
      (Stored m x → nodeOf m₁.nbhd x = none → since + 720 ≤ now)
  have hstart : nodeOf (m.timed e).nbhd x = nodeOf m.nbhd x := by
    rw [Main.timed]
    cases e.clock <;> rfl
  have hmt := (timed_moved m e).inOrder hm
  have hstep : ∀ m₁ act m₂, Causes m e act → Deed m₁ act m₂ → Inv m₁ → Inv m₂ := by
    rintro m₁ act m₂ hact hd ⟨hm₁, hnow, hguard, hleft⟩
    have hturn := hd.turn hm₁ x
    rw [hnow] at hturn
    refine ⟨(hd.moved hm₁).inOrder hm₁, ?_, hturn.guarded hguard, fun hstored hnone => ?_⟩
    · rw [hd.clock, hnow]
      cases act with
      | tick now => exact hact.elim
      | _ => rfl
    · cases hr : nodeOf m₁.nbhd x with
      | none => exact hleft hstored hr
      | some n =>
        rw [hr, hnone] at hturn
        exact hturn.left_late (hr ▸ hguard)
  have hinit : Inv (m.timed e) := by
    refine ⟨hmt, rfl, hstart ▸ hg, fun hstored hnone => ?_⟩
    rw [hstart] at hnone
    exact absurd hnone (stored_iff_nodeOf.mp hstored)
  obtain ⟨-, hnow, hguard, hleft⟩ := (step_does hm e m' h).keeps hstep hinit
  rw [hnow]
  refine ⟨hguard, fun hstored hgone => hleft hstored ?_⟩
  by_contra hne
  exact hgone (stored_iff_nodeOf.mpr hne)

theorem run_clock (hm : InOrder m) (h : ClockInOrder m.p2p.time_now (es ++ fs)) :
    Ensures (m.run es) fun m' => ClockInOrder m'.p2p.time_now fs := by
  induction es generalizing m with
  | nil => exact ensures_ok.mpr h
  | cons e es ih =>
    rw [Main.run, List.foldlM_cons]
    refine ((step_clock hm e).and (step_moved hm e)).bind fun m₁ h₁ => ?_
    exact ih (h₁.2.inOrder hm) (h₁.1 ▸ h.timed.2)

theorem run_guarded (hm : InOrder m) (h : ClockInOrder m.p2p.time_now es)
    (hg : Guarded since m.p2p.time_now (nodeOf m.nbhd x)) :
    Ensures (m.run es) fun m' => Guarded since m'.p2p.time_now (nodeOf m'.nbhd x) := by
  induction es generalizing m with
  | nil => exact ensures_ok.mpr hg
  | cons e es ih =>
    rw [Main.run, List.foldlM_cons]
    intro m' h'
    obtain ⟨m₁, hstep, hrest⟩ := exec_bind_eq_ok.mp h'
    have hclock := step_clock hm e m₁ hstep
    have hguard := (step_guarded hm (hg.later h.timed.1) m₁ hstep).1
    exact ih ((step_moved hm e m₁ hstep).inOrder hm) (hclock ▸ h.timed.2) hguard m' hrest

/-- An accepted PONG guards its sender from four minutes on. -/
theorem AcceptsPong.guarded {sa : Ip} (hm : InOrder m) (h : AcceptsPong m e x sa)
    (hs : m.step e = .ok m') :
    Guarded (m'.p2p.time_now + TIME_4_MINUTES) m'.p2p.time_now (nodeOf m'.nbhd x) := by
  obtain ⟨hme, m₁, cache, hput, hponged⟩ := h.step hs
  have hmt := (timed_moved m e).inOrder hm
  have hme' : ¬ nodeMe (m.timed e) x := by
    rwa [nodeMe, (timed_moved m e).conf]
  have hm₁ := (nbhdPut_moved hmt x sa m₁ hput).inOrder hmt
  have hstored : nodeOf m₁.nbhd x ≠ none := by
    rcases nbhdPut_nodeOf hmt hme' sa m₁ hput with ⟨n, -, hup⟩ | ⟨-, time_ping, time_find, -, hup⟩
    · rw [hup, Function.update_self]
      exact Option.some_ne_none _
    · rw [hup, Function.update_self]
      exact Option.some_ne_none _
  have hclock := (nbhdPonged_beside x sa _ m' hponged).clock
  rcases nbhdPonged_nodeOf (m := { m₁ with cache := cache }) hm₁ x sa m' hponged with
    ⟨hnone, -⟩ | ⟨n, time_ping, -, hle, hup⟩
  · exact absurd hnone hstored
  · rw [hup, Function.update_self, hclock]
    constructor
    · simpa using hle
    · simp

end Events

/-- In every run with a clock that never goes back, a node that an event removes has been inserted
at least 720 seconds ago, and its last accepted PONG is at least 960 seconds old. -/
theorem nodeRun_removal (conf : Conf) (udp : Udp) (time_now : ℤ) (urandom : ℕ → Option Id)
    (random : ℕ → ℕ) (es₁ es₂ : List Event) (e f : Event) (x : Id) (m₁ m₂ m₃ m₄ : Main)
    (hclock : ClockInOrder time_now (es₁ ++ e :: (es₂ ++ [f])))
    (h₁ : nodeRun conf udp time_now urandom random es₁ = .ok m₁) (h₂ : m₁.step e = .ok m₂)
    (h₃ : m₂.run es₂ = .ok m₃) (h₄ : m₃.step f = .ok m₄)
    (hstored : Stored m₃ x) (hgone : ¬ Stored m₄ x) :
    (¬ Stored m₁ x → Stored m₂ x → m₂.p2p.time_now + 720 ≤ m₄.p2p.time_now) ∧
      ∀ sa, AcceptsPong m₁ e x sa → m₂.p2p.time_now + 960 ≤ m₄.p2p.time_now := by
  have hm₁ := nodeRun_inOrder conf udp time_now urandom random es₁ m₁ h₁
  obtain ⟨m₀, hinit, hrun⟩ := exec_bind_eq_ok.mp h₁
  obtain ⟨-, hm₀, -⟩ := mainInit_ensures conf udp time_now urandom random m₀ hinit
  have hclock₁ : ClockInOrder m₁.p2p.time_now (e :: (es₂ ++ [f])) := by
    refine run_clock hm₀ ?_ m₁ hrun
    rwa [mainInit_clock conf udp time_now urandom random m₀ hinit]
  have hm₂ := (step_moved hm₁ e m₂ h₂).inOrder hm₁
  have htime₂ := step_clock hm₁ e m₂ h₂
  have hclock₂ : ClockInOrder m₂.p2p.time_now (es₂ ++ [f]) := htime₂ ▸ hclock₁.timed.2
  have hm₃ := (run_moved hm₂ es₂ m₃ h₃).inOrder hm₂
  have hclock₃ := run_clock hm₂ hclock₂ m₃ h₃
  -- a guarded node is removed twelve minutes later
  have hremoval : ∀ since, Guarded since m₂.p2p.time_now (nodeOf m₂.nbhd x) →
      since + 720 ≤ m₄.p2p.time_now := by
    intro since hg
    have hg₃ := run_guarded hm₂ hclock₂.left hg m₃ h₃
    exact (step_guarded hm₃ (hg₃.later hclock₃.timed.1) m₄ h₄).2 hstored hgone
  constructor
  · intro habsent _
    have hnone : nodeOf m₁.nbhd x = none := by
      by_contra hne
      exact habsent (stored_iff_nodeOf.mpr hne)
    have hg : Guarded m₂.p2p.time_now (m₁.timed e).p2p.time_now (nodeOf m₁.nbhd x) := by
      rw [hnone]
      exact htime₂.le
    exact hremoval _ (step_guarded hm₁ hg m₂ h₂).1
  · intro sa hpong
    have hle := hremoval _ (hpong.guarded hm₁ h₂)
    dsimp only [TIME_4_MINUTES] at hle
    omega

/-- A multicast PING, whose session id is the first one read. -/
def firstPing : Event :=
  .cron 1 ⟨.ok [⟨AF_INET6, Octets.replicate 2 0, 0, Octets.replicate 16 0xff, 0⟩], true, fun _ => 1,
    true⟩

/-- A PONG to it. -/
def firstPong : Event :=
  .packet 1 (Message.datagram ⟨headId 1, headId 0, .pong⟩) (newNode (headId 0)).c_addr

/-- A pass of `p2p_cron` at this time, without a bootstrap server. -/
def cronAt (now : ℤ) : Event := .cron now ⟨.error "", true, fun _ => 1, true⟩

/-- Eight different ids to draw. -/
theorem headId_draws {k k' : ℕ} {id : Id}
    (hk : (if k < 8 then some (headId k.toUInt8) else none) = some id)
    (hk' : (if k' < 8 then some (headId k'.toUInt8) else none) = some id) : k = k' := by
  have hsmall : ∀ k < 8, ∀ k' < 8, headId k.toUInt8 = headId k'.toUInt8 → k = k' := by decide
  obtain ⟨hlt, he⟩ := Option.ite_none_right_eq_some.mp hk
  obtain ⟨hlt', he'⟩ := Option.ite_none_right_eq_some.mp hk'
  exact hsmall k hlt k' hlt' (Option.some.inj (he.trans he'.symm))

/-- A node that answers once and is then pinged four times in vain. -/
theorem nodeRun_removal_silent : ∃ m₁ m₂ m₃ m₄,
    nodeRun ⟨headId 0xff, headId 0, none, none⟩ ⟨3, true⟩ 0 (fun k => some (headId k.toUInt8))
      (fun _ => 0) [firstPing] = .ok m₁ ∧ m₁.step firstPong = .ok m₂ ∧
    m₂.run ([242, 483, 724, 965].map cronAt) = .ok m₃ ∧ m₃.step (cronAt 1026) = .ok m₄ ∧
    m₂.p2p.time_now + 720 ≤ m₄.p2p.time_now := by
  have hids : (do
      let m₁ ← nodeRun ⟨headId 0xff, headId 0, none, none⟩ ⟨3, true⟩ 0
        (fun k => some (headId k.toUInt8)) (fun _ => 0) [firstPing]
      let m₂ ← m₁.step firstPong
      let m₃ ← m₂.run ([242, 483, 724, 965].map cronAt)
      let m₄ ← m₃.step (cronAt 1026)
      return [m₁, m₂, m₃, m₄].map fun m : Main => (allNodes m.nbhd).map Node.id) =
      .ok [[], [headId 1], [headId 1], []] := by decide +kernel
  obtain ⟨m₁, h₁, hids⟩ := exec_bind_eq_ok.mp hids
  obtain ⟨m₂, h₂, hids⟩ := exec_bind_eq_ok.mp hids
  obtain ⟨m₃, h₃, hids⟩ := exec_bind_eq_ok.mp hids
  obtain ⟨m₄, h₄, hids⟩ := exec_bind_eq_ok.mp hids
  have hstored : ∀ m : Main, Stored m (headId 1) ↔ headId 1 ∈ (allNodes m.nbhd).map Node.id :=
    fun m => List.mem_map.symm
  simp only [List.map_cons, List.map_nil, exec_pure, Except.ok.injEq, List.cons.injEq] at hids
  obtain ⟨hids₁, hids₂, hids₃, hids₄, -⟩ := hids
  refine ⟨m₁, m₂, m₃, m₄, h₁, h₂, h₃, h₄, ?_⟩
  refine (nodeRun_removal _ _ 0 _ _ [firstPing] _ firstPong (cronAt 1026) (headId 1) m₁ m₂ m₃ m₄
    (by unfold ClockInOrder; decide +kernel) h₁ h₂ h₃ h₄ ?_ ?_).1 ?_ ?_
  · rw [hstored, hids₃]
    exact List.mem_singleton_self _
  · rw [hstored, hids₄]
    exact List.not_mem_nil
  · rw [hstored, hids₁]
    exact List.not_mem_nil
  · rw [hstored, hids₂]
    exact List.mem_singleton_self _

end Masala.Daemon
