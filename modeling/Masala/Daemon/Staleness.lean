import Masala.Daemon.Database

/-!
# What `db_expire` leaves behind

The loop of `db_expire` counts its rounds up to the counter of the list it
deletes from. An overdue entry is only visited if enough others stand behind
it, and one that is not stays in the database and is still answered.
-/
namespace Masala.Daemon
open Library Container Bencode Routing Session

/-- No overdue entry remains in `m'`, and none that was in `m` is answered. -/
structure Purged (m m' : Main) : Prop where
  left : ∀ x ∈ m'.database.list.items, ¬ x.2.time_anno < m.p2p.time_now
  silent : ∀ x ∈ m.database.list.items, x.2.time_anno < m.p2p.time_now →
    dbFind x.2.host_id m' = .ok none ∧ dbAddress x.2.host_id m' = .ok none ∧
      ∀ sa lkp_id session_id, dbSend sa x.2.host_id lkp_id session_id m' = .ok (m', false)

section Expire
variable {m m' : Main} {xs ws : List (Ptr × Db)}

/-- An entry that has been deleted is not answered any more. -/
theorem purged_of_left (h : Registered Db.key m.database xs)
    (h' : Registered Db.key m'.database ws) (hsub : ws.Sublist xs)
    (hleft : ∀ x ∈ ws, ¬ Overdue m.p2p.time_now x) : Purged m m' := by
  refine ⟨by rwa [h'.items_eq], fun x hx hover => ?_⟩
  rw [h.items_eq] at hx
  refine db_silent h' fun y hy he => ?_
  have hsame : y = x := List.inj_on_of_nodup_map (host_ids_nodup h) (hsub.subset hy) hx he
  exact hleft y hy (hsame ▸ hover)

end Expire

/-- `db_expire` leaves nothing overdue exactly if behind every overdue entry stand at least as many
entries as overdue ones in front of it. -/
theorem dbExpire_purged_iff (m : Main)
    (h : Registered Db.key m.database m.database.list.items) :
    (∃ m', dbExpire m = .ok m' ∧ Purged m m') ↔
      ∀ ys x zs, m.database.list.items = ys ++ x :: zs → x.2.time_anno < m.p2p.time_now →
        ys.countP (fun y => y.2.time_anno < m.p2p.time_now) ≤ zs.length := by
  obtain ⟨m', hexpire, -, h'⟩ := dbExpire_sweep h
  have hvisits : Visits (Overdue m.p2p.time_now) _ m.database.list.items ↔ _ := visits_length
  constructor
  · rintro ⟨m₁, hexpire₁, hpurged⟩
    obtain rfl := Except.ok.inj (hexpire.symm.trans hexpire₁)
    have hleft := hpurged.left
    rw [h'.items_eq] at hleft
    exact hvisits.mp (sweep_clean_iff.mp hleft)
  · intro hall
    refine ⟨m', hexpire, purged_of_left h h' (sweep_sublist _ _) ?_⟩
    exact sweep_clean_iff.mpr (hvisits.mpr hall)

/-- The database of a fresh node after some events. -/
def dbAfter (es : List DbEvent) : Exec Main := do
  let m ← mainInit ⟨headId 0xff, headId 0, none, none⟩ ⟨3, true⟩ 0
    (fun k => some (headId k.toUInt8)) fun _ => 0
  dbRun m es

theorem dbAfter_registered (es : List DbEvent) : ∃ m, dbAfter es = .ok m ∧
    Registered Db.key m.database m.database.list.items := by
  obtain ⟨m₀, m, xs, hinit, hrun, h⟩ := dbRun_current ⟨headId 0xff, headId 0, none, none⟩
    ⟨3, true⟩ 0 (fun k => some (headId k.toUInt8)) (fun _ => 0) es
  refine ⟨m, by rw [dbAfter, hinit, exec_ok_bind, hrun], ?_⟩
  rw [h.registered.items_eq]
  exact h.registered

/-- The entries of a database whose time has passed. -/
def overdueFlags (m : Main) : List Bool :=
  m.database.list.items.map fun x => decide (x.2.time_anno < m.p2p.time_now)

/-- One overdue entry in front of one that is not. -/
theorem dbExpire_purged_iff_one : ∃ m m',
    dbAfter [.put (headId 1) (newNode (headId 1)).c_addr, .tick 1,
      .put (headId 2) (newNode (headId 2)).c_addr, .tick 901] = .ok m ∧
    overdueFlags m = [true, false] ∧ dbExpire m = .ok m' ∧ Purged m m' := by
  obtain ⟨m, hm, hreg⟩ := dbAfter_registered [.put (headId 1) (newNode (headId 1)).c_addr,
    .tick 1, .put (headId 2) (newNode (headId 2)).c_addr, .tick 901]
  have hflags : overdueFlags m = [true, false] := by
    have hcalc : (dbAfter [.put (headId 1) (newNode (headId 1)).c_addr, .tick 1,
        .put (headId 2) (newNode (headId 2)).c_addr, .tick 901]).map overdueFlags =
        .ok [true, false] := by
      decide +kernel
    rw [hm] at hcalc
    exact Except.ok.inj hcalc
  obtain ⟨m', hexpire, hpurged⟩ := (dbExpire_purged_iff m hreg).mpr fun ys x zs hitems hx => by
    rw [overdueFlags, hitems, List.map_append, List.map_cons, decide_eq_true hx] at hflags
    cases ys with
    | nil => exact Nat.zero_le _
    | cons y ys => cases ys <;> simp at hflags
  exact ⟨m, m', hm, hflags, hexpire, hpurged⟩

/-- Of two overdue entries the second stays. -/
theorem dbExpire_leaves_overdue : ¬ ∀ m : Main,
    Registered Db.key m.database m.database.list.items →
      ∃ m', dbExpire m = .ok m' ∧ Purged m m' := by
  intro hall
  obtain ⟨m, hm, hreg⟩ := dbAfter_registered [.put (headId 1) (newNode (headId 1)).c_addr,
    .put (headId 2) (newNode (headId 2)).c_addr, .tick 901]
  obtain ⟨m', hexpire, hpurged⟩ := hall m hreg
  have hcalc : (do
      let m ← dbAfter [.put (headId 1) (newNode (headId 1)).c_addr,
        .put (headId 2) (newNode (headId 2)).c_addr, .tick 901]
      let m' ← dbExpire m
      let times := m'.database.list.items.map fun x : Ptr × Db => x.2.time_anno
      return (m.p2p.time_now, times)) = .ok (901, [900]) := by
    decide +kernel
  rw [hm, exec_ok_bind, hexpire, exec_ok_bind] at hcalc
  obtain ⟨hnow, hanno⟩ := Prod.mk.inj (Except.ok.inj hcalc)
  have hmem : (900 : ℤ) ∈ m'.database.list.items.map fun x => x.2.time_anno := by
    rw [hanno]
    exact List.mem_singleton.mpr rfl
  obtain ⟨x, hx, htime⟩ := List.mem_map.mp hmem
  refine hpurged.left x hx ?_
  rw [htime, hnow]
  decide

end Masala.Daemon
