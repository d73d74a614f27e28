import Masala.Daemon.Runs

/-!
# When `nbhd_split` ends

Runs of the neighbourhood functions. In each of their tables `nbhd_split`
returns, with a small own bucket, unless the own id and more than eight nodes
are in the upper half of the id space; then it spins under the mutex.
-/
namespace Masala.Daemon
open Library Container Routing

/-- The neighbourhood functions, with the clock of the calls in between. -/
inductive NbhdCall
  | put (id : Id) (sa : Ip)
  | expire
  | split (fuel : ℕ)
  | ping
  | find (id : Id)
  | ponged (id : Id) (sa : Ip)
  | clock (now : ℤ)

def Main.nbhdCall (m : Main) : NbhdCall → Exec Main
  | .put id sa => nbhdPut id sa m
  | .expire => do
    let nbhd ← nbhdExpire m.nbhd
    return { m with nbhd := nbhd }
  | .split fuel => do
    let nbhd ← nbhdSplit m.conf.node_id fuel m.nbhd
    return { m with nbhd := nbhd }
  | .ping => nbhdPing m
  | .find id => nbhdFind id m
  | .ponged id sa => nbhdPonged id sa m
  | .clock now => .ok (m.tick now)

/-- The node after `main_init` and these calls, if all of them end. -/
def nbhdCalls (conf : Conf) (udp : Udp) (time_now : ℤ) (urandom : ℕ → Option Id)
    (random : ℕ → ℕ) (calls : List NbhdCall) : Exec Main := do
  let m ← mainInit conf udp time_now urandom random
  calls.foldlM Main.nbhdCall m

/-- `nbhd_split` returns after at most 160 splits, with at most eight nodes in the bucket of the
own id. -/
def SplitsDown (node_id : Id) (t : Table) : Prop :=
  ∃ t' item_b b, nbhdSplit node_id 161 t = .ok t' ∧ bcktFindBestMatch t' node_id = .ok item_b ∧
    t'.item item_b = .ok b ∧ b.val.nodes.counter ≤ 8

/-- The own id is in the lower half of the id space, or few nodes are in the upper one. -/
def SplitsEnd (node_id : Id) (t : Table) : Prop :=
  node_id.val < 2 ^ 159 ∨ (upperNodes t).length ≤ 8

section Calls
variable {m : Main} {t : Table} {cs : List Cell}

theorem nbhdCall_moved (hm : InOrder m) (c : NbhdCall) : Ensures (m.nbhdCall c) (Moved m) := by
  cases c with
  | put id sa => exact nbhdPut_moved hm id sa
  | expire =>
    exact (nbhdExpire_changes m.conf.node_id m.nbhd).bind fun t' ht => ensures_ok.mpr ⟨rfl, ht⟩
  | split fuel =>
    have hsplit : Ensures (nbhdSplit m.conf.node_id fuel m.nbhd) (Change m.conf.node_id m.nbhd) :=
      fun t' ht => .split fuel ht
    exact hsplit.bind fun t' ht => ensures_ok.mpr (moved_of_change ht)
  | ping => exact nbhdPing_moved hm
  | find id => exact nbhdFind_moved hm id
  | ponged id sa => exact nbhdPonged_moved hm id sa
  | clock now => exact ensures_ok.mpr ⟨rfl, .refl⟩

theorem nbhdCalls_clean (conf : Conf) (udp : Udp) (time_now : ℤ) (urandom : ℕ → Option Id)
    (random : ℕ → ℕ) (calls : List NbhdCall) :
    Ensures (nbhdCalls conf udp time_now urandom random calls) fun m =>
      m.conf = conf ∧ InOrder m ∧ ∃ cs, Clean m.nbhd cs := by
  have hstep : ∀ (m : Main) c, (m.conf = conf ∧ InOrder m ∧ ∃ cs, Clean m.nbhd cs) →
      Ensures (m.nbhdCall c) fun m => m.conf = conf ∧ InOrder m ∧ ∃ cs, Clean m.nbhd cs := by
    rintro m c ⟨rfl, hm, hclean⟩
    exact (nbhdCall_moved hm c).mono fun m' h => ⟨h.conf, h.inOrder hm, h.clean hclean⟩
  exact (mainInit_ensures conf udp time_now urandom random).bind fun m₀ h₀ =>
    ensures_foldlM hstep h₀ calls

theorem splitsDown_iff (h : Clean t cs) (node_id : Id) :
    (SplitsDown node_id t ↔ SplitsEnd node_id t) ∧
      (¬ SplitsEnd node_id t → ∀ fuel, nbhdSplit node_id fuel t = .error .fuel) := by
  rcases h.nbhdSplit_cases node_id with ⟨hok, t', cs₁, c, cs₂, hsplit, h', hsel, hlen⟩ | ⟨hno, hdiv⟩
  · have hcells : cells t' = cs₁ ++ c :: cs₂ := by simp [h'.1.parts]
    obtain ⟨b, prev, hitem, -, hholds⟩ := h'.1.sound.item_eq hcells
    have hbest := bcktFindBestMatch_eq h'.1.sound node_id
    rw [hsel] at hbest
    have hdown : SplitsDown node_id t :=
      ⟨t', _, _, hsplit, hbest, hitem, hholds.counter.trans_le hlen⟩
    exact ⟨iff_of_true hdown hok, fun hno => absurd hok hno⟩
  · refine ⟨iff_of_false ?_ hno, fun _ => hdiv⟩
    rintro ⟨t', item_b, b, hsplit, -⟩
    rw [hdiv] at hsplit
    cases hsplit

end Calls

/-- In every state of a run `nbhd_split` ends as it should exactly if the own id is in the lower
half or the upper half has at most eight nodes; otherwise it never ends. -/
theorem nbhdCalls_splitsDown_iff (conf : Conf) (udp : Udp) (time_now : ℤ)
    (urandom : ℕ → Option Id) (random : ℕ → ℕ) (calls : List NbhdCall) (m : Main)
    (hrun : nbhdCalls conf udp time_now urandom random calls = .ok m) :
    (SplitsDown conf.node_id m.nbhd ↔ SplitsEnd conf.node_id m.nbhd) ∧
      (¬ SplitsEnd conf.node_id m.nbhd →
        ∀ fuel, nbhdSplit conf.node_id fuel m.nbhd = .error .fuel) := by
  obtain ⟨-, -, cs, h⟩ := nbhdCalls_clean conf udp time_now urandom random calls m hrun
  exact splitsDown_iff h conf.node_id

/-- Nine nodes of the upper half. -/
def upperCalls : List NbhdCall :=
  [0x80, 0x81, 0x82, 0x83, 0x84, 0x85, 0x86, 0x87, 0x88].map fun c =>
    .put (headId c) (newNode (headId c)).c_addr

/-- A node of the lower half splits them away. -/
theorem nbhdCalls_splitsDown_lower : ∃ m,
    nbhdCalls ⟨headId 0, headId 0, none, none⟩ ⟨3, true⟩ 0 (fun k => some (headId k.toUInt8))
      (fun k => k) upperCalls = .ok m ∧ SplitsDown (headId 0) m.nbhd := by
  have hlen : (do
      let m ← nbhdCalls ⟨headId 0, headId 0, none, none⟩ ⟨3, true⟩ 0
        (fun k => some (headId k.toUInt8)) (fun k => k) upperCalls
      return (upperNodes m.nbhd).length) = .ok 9 := by decide +kernel
  obtain ⟨m, hrun, -⟩ := exec_bind_eq_ok.mp hlen
  refine ⟨m, hrun, (nbhdCalls_splitsDown_iff _ _ _ _ _ _ m hrun).1.mpr (.inl ?_)⟩
  decide +kernel

/-- A node of the upper half tries forever. -/
theorem nbhdCalls_spins :
    ¬ ∀ conf udp time_now urandom random calls m,
      nbhdCalls conf udp time_now urandom random calls = .ok m →
        SplitsDown conf.node_id m.nbhd := by
  intro hall
  have hlen : (do
      let m ← nbhdCalls ⟨headId 0xff, headId 0, none, none⟩ ⟨3, true⟩ 0
        (fun k => some (headId k.toUInt8)) (fun k => k) upperCalls
      return (upperNodes m.nbhd).length) = .ok 9 := by decide +kernel
  obtain ⟨m, hrun, hm⟩ := exec_bind_eq_ok.mp hlen
  obtain ⟨-, -, cs, h⟩ := nbhdCalls_clean _ _ _ _ _ _ m hrun
  have hupper : (upperNodes m.nbhd).length = 9 := Except.ok.inj hm
  have hown : ¬ (headId 0xff).val < 2 ^ 159 := by decide +kernel
  rcases (splitsDown_iff h _).1.mp (hall _ _ _ _ _ _ m hrun) with hlow | hfew
  · exact hown hlow
  · omega

end Masala.Daemon
