import Masala.Daemon.Message
import Masala.Library.Sweep

/-!
# The database as a map

The database keeps the address that a host announced last, and the time until
which it is valid. List and hash hold the same entries, one for each host id.
-/
namespace Masala.Daemon
open Library Container Bencode Routing Session

/-! ## Runs -/

inductive DbEvent
  | put (host_id : Id) (sa : Ip)
  | expire
  | tick (now : ℤ)

def dbStep (m : Main) : DbEvent → Exec Main
  | .put host_id sa => dbPut host_id sa m
  | .expire => dbExpire m
  | .tick now => .ok (m.tick now)

def dbRun (m : Main) (es : List DbEvent) : Exec Main := es.foldlM dbStep m

/-- The clock after some events. -/
def clockOf : ℤ → List DbEvent → ℤ
  | now, [] => now
  | _, .tick now :: es => clockOf now es
  | now, _ :: es => clockOf now es

/-- What was put, and the clock at that moment. -/
def putsOf : ℤ → List DbEvent → List (Id × Ip × ℤ)
  | _, [] => []
  | now, .put host_id sa :: es => (host_id, sa, now) :: putsOf now es
  | now, .expire :: es => putsOf now es
  | _, .tick now :: es => putsOf now es

/-- Address and clock of the most recent `db_put` of a host. -/
def lastPut (now : ℤ) (es : List DbEvent) (host_id : Id) : Option (Ip × ℤ) :=
  (((putsOf now es).filter fun x => x.1 = host_id).getLast?).map Prod.snd

/-- No `db_expire` since the most recent `db_put` of a host has run behind this time. -/
def InTime (now : ℤ) (es : List DbEvent) (host_id : Id) (time_anno : ℤ) : Prop :=
  ∀ pre post, es = pre ++ .expire :: post → (∀ sa, .put host_id sa ∉ post) →
    clockOf now pre ≤ time_anno

section History
variable {now : ℤ} {es : List DbEvent}

theorem clockOf_snoc (e : DbEvent) : clockOf now (es ++ [e]) = clockOf (clockOf now es) [e] := by
  induction es generalizing now with
  | nil => rfl
  | cons d es ih => cases d <;> exact ih

theorem putsOf_snoc (e : DbEvent) :
    putsOf now (es ++ [e]) = putsOf now es ++ putsOf (clockOf now es) [e] := by
  induction es generalizing now with
  | nil => rfl
  | cons d es ih =>
    cases d with
    | put host_id sa => exact congrArg (_ :: ·) ih
    | expire => exact ih
    | tick now => exact ih

theorem lastPut_put (host_id : Id) (sa : Ip) :
    lastPut now (es ++ [.put host_id sa]) host_id = some (sa, clockOf now es) := by
  rw [lastPut, putsOf_snoc, List.filter_append]
  simp [putsOf]

theorem lastPut_put_other {host_id other : Id} (sa : Ip) (hne : other ≠ host_id) :
    lastPut now (es ++ [.put host_id sa]) other = lastPut now es other := by
  rw [lastPut, putsOf_snoc, List.filter_append]
  simp [putsOf, Ne.symm hne, lastPut]

theorem lastPut_quiet {e : DbEvent} (he : ∀ now, putsOf now [e] = []) (host_id : Id) :
    lastPut now (es ++ [e]) host_id = lastPut now es host_id := by
  rw [lastPut, putsOf_snoc, he, List.append_nil, lastPut]

theorem InTime.of_snoc {host_id : Id} {time_anno : ℤ} {e : DbEvent}
    (h : InTime now (es ++ [e]) host_id time_anno) (he : ∀ sa, e ≠ .put host_id sa) :
    InTime now es host_id time_anno := by
  intro pre post hes hpost
  refine h pre (post ++ [e]) (by rw [hes, List.append_assoc, List.cons_append]) fun sa hmem => ?_
  rcases List.mem_append.mp hmem with hmem | hmem
  · exact hpost sa hmem
  · exact he sa (List.mem_singleton.mp hmem).symm

theorem InTime.last {host_id : Id} {time_anno : ℤ}
    (h : InTime now (es ++ [.expire]) host_id time_anno) : clockOf now es ≤ time_anno :=
  h es [] rfl fun _ => List.not_mem_nil

end History

/-! ## The operations -/

/-- An entry whose time has passed. -/
def Overdue (now : ℤ) (x : Ptr × Db) : Prop := now > x.2.time_anno

instance (now : ℤ) : DecidablePred (Overdue now) := fun x =>
  inferInstanceAs (Decidable (now > x.2.time_anno))

section Operations
variable {m : Main} {xs ys zs : List (Ptr × Db)} {p : Ptr} {db : Db}

theorem key_eq_iff {host_id : Id} : Db.key db = host_id.bytes ↔ db.host_id = host_id :=
  Octets.bytes_injective

theorem dbFind_absent (h : Registered Db.key m.database xs) {host_id : Id}
    (hne : ∀ x ∈ xs, x.2.host_id ≠ host_id) : dbFind host_id m = .ok none :=
  h.get_absent fun x hx he => hne x hx (key_eq_iff.mp he)

theorem dbFind_present (h : Registered Db.key m.database (ys ++ (p, db) :: zs)) :
    dbFind db.host_id m = .ok (some p) :=
  h.get_present (show (p, db) ∈ _ by simp)

theorem host_ids_nodup (h : Registered Db.key m.database xs) :
    (xs.map fun x => x.2.host_id).Nodup := by
  have hkeys := h.hash.keys
  rw [show (fun x : Ptr × Db => Db.key x.2) = Octets.bytes ∘ fun x => x.2.host_id from rfl,
    ← List.map_map] at hkeys
  exact hkeys.of_map _

/-- A host without an entry is not answered. -/
theorem db_silent (h : Registered Db.key m.database xs) {host_id : Id}
    (hne : ∀ x ∈ xs, x.2.host_id ≠ host_id) :
    dbFind host_id m = .ok none ∧ dbAddress host_id m = .ok none ∧
      ∀ sa lkp_id session_id, dbSend sa host_id lkp_id session_id m = .ok (m, false) := by
  have hfind := dbFind_absent h hne
  refine ⟨hfind, ?_, fun sa lkp_id session_id => ?_⟩
  · rw [dbAddress, hfind]
    rfl
  · rw [dbSend, hfind]
    rfl

/-- A host with an entry is answered with its address. -/
theorem db_answers (h : Registered Db.key m.database (ys ++ (p, db) :: zs)) :
    dbFind db.host_id m = .ok (some p) ∧ dbAddress db.host_id m = .ok (some db.c_addr) ∧
      ∀ sa lkp_id session_id, ∃ m', sendValue sa db.c_addr session_id lkp_id m = .ok m' ∧
        dbSend sa db.host_id lkp_id session_id m = .ok (m', true) := by
  have hfind := dbFind_present h
  have hitem := h.list.item_eq
  refine ⟨hfind, ?_, fun sa lkp_id session_id => ⟨_, sendValue_eq _ _ _ _ _, ?_⟩⟩
  · rw [dbAddress, hfind, exec_ok_bind]
    dsimp only
    rw [hitem]
    rfl
  · rw [dbSend, hfind, exec_ok_bind]
    dsimp only
    rw [hitem, exec_ok_bind, sendValue_eq]
    rfl

theorem dbUpdate_eq (h : Registered Db.key m.database (ys ++ (p, db) :: zs)) (sa : Ip) :
    ∃ list, dbUpdate p sa m = .ok { m with database.list := list } ∧
      Registered Db.key ⟨list, m.database.hash⟩
        (ys ++ (p, ⟨db.host_id, sa, timeAdd15Min m⟩) :: zs) := by
  obtain ⟨list, hset, hreg⟩ := h.setVal (w := ⟨db.host_id, sa, timeAdd15Min m⟩) rfl
  refine ⟨list, ?_, hreg⟩
  rw [dbUpdate, h.list.item_eq, exec_ok_bind]
  exact congrArg (· >>= fun list => .ok { m with database.list := list }) hset

/-- `db_put` of a host without an entry appends one. -/
theorem dbPut_new (h : Registered Db.key m.database xs) {host_id : Id} (sa : Ip)
    (hne : ∀ x ∈ xs, x.2.host_id ≠ host_id) : ∃ m' p, dbPut host_id sa m = .ok m' ∧
      m'.p2p = m.p2p ∧
      Registered Db.key m'.database (xs ++ [(p, ⟨host_id, sa, timeAdd15Min m⟩)]) := by
  let db : Db := ⟨host_id, sa, timeAdd15Min m⟩
  obtain ⟨list, hash, hlist, hhash, hreg⟩ := h.put (v := db)
    fun x hx he => hne x hx (key_eq_iff.mp he)
  have hsize : (Db.key db).length = SHA_DIGEST_LENGTH := db.host_id.size_eq
  rw [hsize] at hhash
  have hput : dbPut host_id sa m = dbUpdate m.database.list.fresh sa
      (Main.logInfo { m with database := ⟨list, hash⟩ } "Database size: %li (+1)"
        [.num list.counter]) := by
    rw [dbPut, dbFind_absent h hne, exec_ok_bind]
    dsimp only
    rw [hlist, exec_ok_bind]
    dsimp only
    rw [hhash, exec_ok_bind]
  obtain ⟨list', hupdate, hreg'⟩ := dbUpdate_eq (m := Main.logInfo
    { m with database := ⟨list, hash⟩ } "Database size: %li (+1)" [.num list.counter]) hreg sa
  exact ⟨_, _, hput.trans hupdate, rfl, hreg'⟩

/-- `db_put` of a host with an entry assigns to it. -/
theorem dbPut_known (h : Registered Db.key m.database (ys ++ (p, db) :: zs)) (sa : Ip) :
    ∃ m', dbPut db.host_id sa m = .ok m' ∧ m'.p2p = m.p2p ∧ Registered Db.key m'.database
      (ys ++ (p, ⟨db.host_id, sa, timeAdd15Min m⟩) :: zs) := by
  obtain ⟨list, hupdate, hreg⟩ := dbUpdate_eq h sa
  refine ⟨{ m with database.list := list }, ?_, rfl, hreg⟩
  rw [dbPut, dbFind_present h, exec_ok_bind]
  exact hupdate

theorem dbDel_eq (h : Registered Db.key m.database (ys ++ (p, db) :: zs)) :
    ∃ database, dbDel p m = .ok { m with database := database } ∧
      Registered Db.key database (ys ++ zs) := by
  obtain ⟨list, hash, hhash, hlist, hreg⟩ := h.del
  have hkey : hashDel (m.database.list.look Db.key) m.database.hash db.host_id.bytes = .ok hash :=
    hhash
  refine ⟨⟨list, hash⟩, ?_, hreg⟩
  rw [dbDel, h.list.item_eq, exec_ok_bind]
  dsimp only
  rw [hkey, exec_ok_bind, hlist]
  rfl

/-- The walk stands in front of the entries `zs` and has kept `ys`; `j` counts its rounds. -/
theorem dbExpireLoop_eq (fuel j : ℕ) (m : Main) (ys zs : List (Ptr × Db))
    (h : Registered Db.key m.database (ys ++ zs)) (hj : ys.length ≤ j)
    (hf : (ys ++ zs).length - j < fuel) : ∃ m', dbExpireLoop fuel j (firstPtr zs none) m = .ok m' ∧
      m'.p2p = m.p2p ∧ Registered Db.key m'.database
        (ys ++ sweep (Overdue m.p2p.time_now) ((ys ++ zs).length - j) zs) := by
  induction zs generalizing fuel j m ys with
  | nil =>
    obtain ⟨fuel, rfl⟩ := Nat.exists_eq_add_one_of_ne_zero (Nat.ne_zero_of_lt hf)
    have hcount : ¬ j < m.database.list.counter := by
      rw [h.list.counter, List.append_nil]
      exact Nat.not_lt.mpr hj
    have hnil : sweep (Overdue m.p2p.time_now) ((ys ++ []).length - j) [] = [] := by
      cases (ys ++ []).length - j <;> rfl
    refine ⟨m, ?_, rfl, by rwa [hnil]⟩
    rw [firstPtr_nil, dbExpireLoop, if_neg hcount, exec_pure]
  | cons x zs ih =>
    obtain ⟨p, db⟩ := x
    obtain ⟨fuel, rfl⟩ := Nat.exists_eq_add_one_of_ne_zero (Nat.ne_zero_of_lt hf)
    have hlen : (ys ++ (p, db) :: zs).length = ys.length + zs.length + 1 := by simp; omega
    rw [firstPtr_cons, dbExpireLoop, h.list.counter]
    by_cases hlt : j < (ys ++ (p, db) :: zs).length
    · obtain ⟨k, hk⟩ : ∃ k, (ys ++ (p, db) :: zs).length - j = k + 1 :=
        Nat.exists_eq_add_one_of_ne_zero (by omega)
      rw [if_pos hlt, h.list.item_eq, exec_ok_bind, h.list.next_eq, exec_ok_bind, hk, sweep]
      by_cases hbad : Overdue m.p2p.time_now (p, db)
      · -- a deleted entry costs the walk a round and one of the counter
        obtain ⟨database, hdel, hreg⟩ := dbDel_eq h
        have hk' : (ys ++ zs).length - (j + 1) = k - 1 := by
          rw [List.length_append]
          omega
        obtain ⟨m', hloop, hp2p, hreg'⟩ := ih fuel (j + 1)
          (Main.logInfo { m with database := database } "Database size: %li (-1)"
            [.num database.list.counter]) ys hreg (by omega) (by omega)
        rw [hk'] at hreg'
        refine ⟨m', ?_, hp2p, by rw [if_pos hbad]; exact hreg'⟩
        rw [if_pos (show m.p2p.time_now > db.time_anno from hbad), hdel, exec_ok_bind]
        exact hloop
      · have hsplit : ys ++ (p, db) :: zs = (ys ++ [(p, db)]) ++ zs := by simp
        rw [hsplit] at h hk hf
        obtain ⟨m', hloop, hp2p, hreg'⟩ := ih fuel (j + 1) m (ys ++ [(p, db)]) h
          (by simp; omega) (by omega)
        rw [show (ys ++ [(p, db)] ++ zs).length - (j + 1) = k by omega] at hreg'
        refine ⟨m', ?_, hp2p, by rw [if_neg hbad]; simpa using hreg'⟩
        rw [if_neg (show ¬ m.p2p.time_now > db.time_anno from hbad), exec_pure, exec_ok_bind]
        exact hloop
    · have hk : (ys ++ (p, db) :: zs).length - j = 0 := Nat.sub_eq_zero_of_le (Nat.not_lt.mp hlt)
      rw [if_neg hlt, hk]
      exact ⟨m, exec_pure m, rfl, h⟩

/-- `db_expire` sweeps over the entries whose time has passed. -/
theorem dbExpire_sweep (h : Registered Db.key m.database xs) : ∃ m', dbExpire m = .ok m' ∧
    m'.p2p = m.p2p ∧
    Registered Db.key m'.database (sweep (Overdue m.p2p.time_now) xs.length xs) := by
  have hstart : m.database.list.start = firstPtr xs none := h.list.start
  obtain ⟨m', hloop, hp2p, hreg⟩ := dbExpireLoop_eq (m.database.list.counter + 1) 0 m [] xs h
    (Nat.zero_le _) (by rw [h.list.counter]; simp)
  exact ⟨m', by rw [dbExpire, hstart, hloop], hp2p, hreg⟩

/-- `db_expire` ends and removes entries whose time has passed and no others. -/
theorem dbExpire_eq (h : Registered Db.key m.database xs) : ∃ m' ws, dbExpire m = .ok m' ∧
    m'.p2p = m.p2p ∧ Registered Db.key m'.database ws ∧ ws.Sublist xs ∧
    ∀ x ∈ xs, m.p2p.time_now ≤ x.2.time_anno → x ∈ ws := by
  obtain ⟨m', hexpire, hp2p, hreg⟩ := dbExpire_sweep h
  refine ⟨m', _, hexpire, hp2p, hreg, sweep_sublist _ _, fun x hx ht => ?_⟩
  exact mem_sweep_of_not_bad hx (Int.not_lt.mpr ht)

end Operations

/-! ## The map -/

/-- The entry holds what was put last for its host. -/
def Latest (now : ℤ) (es : List DbEvent) (db : Db) : Prop :=
  ∃ t, lastPut now es db.host_id = some (db.c_addr, t) ∧ db.time_anno = t + TIME_15_MINUTES

/-- What was put last for a host has its entry, unless a `db_expire` has come after its time. -/
def Entered (now : ℤ) (es : List DbEvent) (xs : List (Ptr × Db)) : Prop :=
  ∀ host_id sa t, lastPut now es host_id = some (sa, t) →
    InTime now es host_id (t + TIME_15_MINUTES) → ∃ p, (p, ⟨host_id, sa, t + TIME_15_MINUTES⟩) ∈ xs

/-- The database after the events `es`, with its entries `xs`. -/
structure Current (now : ℤ) (es : List DbEvent) (m : Main) (xs : List (Ptr × Db)) : Prop where
  registered : Registered Db.key m.database xs
  clock : m.p2p.time_now = clockOf now es
  latest : ∀ x ∈ xs, Latest now es x.2
  entered : Entered now es xs

section Map
variable {now : ℤ} {es : List DbEvent} {m : Main} {xs xs' ys zs : List (Ptr × Db)}

theorem Latest.quiet {db : Db} (h : Latest now es db) {e : DbEvent}
    (he : ∀ now, putsOf now [e] = []) : Latest now (es ++ [e]) db := by
  rw [Latest, lastPut_quiet he]
  exact h

/-- The entry of the host just put, between those of other hosts. -/
theorem latest_put (hclock : m.p2p.time_now = clockOf now es) (hys : ∀ x ∈ ys, Latest now es x.2)
    (hzs : ∀ x ∈ zs, Latest now es x.2) {host_id : Id} (sa : Ip)
    (hne : (∀ x ∈ ys, x.2.host_id ≠ host_id) ∧ ∀ x ∈ zs, x.2.host_id ≠ host_id) (p : Ptr) :
    ∀ x ∈ ys ++ (p, ⟨host_id, sa, timeAdd15Min m⟩) :: zs,
      Latest now (es ++ [.put host_id sa]) x.2 := by
  have hkeep : ∀ db : Db, Latest now es db → db.host_id ≠ host_id →
      Latest now (es ++ [.put host_id sa]) db := by
    rintro db ⟨t, hlast, htime⟩ hother
    exact ⟨t, by rw [lastPut_put_other sa hother, hlast], htime⟩
  intro x hx
  rcases List.mem_append.mp hx with hx | hx
  · exact hkeep x.2 (hys x hx) (hne.1 x hx)
  · rcases List.mem_cons.mp hx with rfl | hx
    · exact ⟨clockOf now es, lastPut_put host_id sa, by rw [timeAdd15Min, hclock]⟩
    · exact hkeep x.2 (hzs x hx) (hne.2 x hx)

/-- The host just put is entered, and the others stay. -/
theorem Entered.put (h : Entered now es xs) (hclock : m.p2p.time_now = clockOf now es)
    {host_id : Id} {sa : Ip} {p : Ptr} (hnew : (p, ⟨host_id, sa, timeAdd15Min m⟩) ∈ xs')
    (hkeep : ∀ x ∈ xs, x.2.host_id ≠ host_id → x ∈ xs') :
    Entered now (es ++ [.put host_id sa]) xs' := by
  intro other sa' t hlast htime
  by_cases hother : other = host_id
  · subst hother
    rw [lastPut_put] at hlast
    obtain ⟨rfl, rfl⟩ := Prod.mk.inj (Option.some.inj hlast)
    exact ⟨p, by rwa [timeAdd15Min, hclock] at hnew⟩
  · rw [lastPut_put_other sa hother] at hlast
    have hput : ∀ sa', DbEvent.put host_id sa ≠ .put other sa' :=
      fun sa' he => hother (DbEvent.put.inj he).1.symm
    obtain ⟨q, hq⟩ := h other sa' t hlast (htime.of_snoc hput)
    exact ⟨q, hkeep _ hq hother⟩

/-- Nothing else takes an entry away before its time. -/
theorem Entered.quiet (h : Entered now es xs) {e : DbEvent} (he : ∀ now, putsOf now [e] = [])
    (hkeep : ∀ x ∈ xs, InTime now (es ++ [e]) x.2.host_id x.2.time_anno → x ∈ xs') :
    Entered now (es ++ [e]) xs' := by
  intro host_id sa t hlast htime
  rw [lastPut_quiet he] at hlast
  have hput : ∀ sa', e ≠ .put host_id sa' := by
    rintro sa' rfl
    exact List.cons_ne_nil _ _ (he 0)
  obtain ⟨p, hp⟩ := h host_id sa t hlast (htime.of_snoc hput)
  exact ⟨p, hkeep _ hp htime⟩

theorem Current.put (h : Current now es m xs) (host_id : Id) (sa : Ip) :
    ∃ m' xs', dbPut host_id sa m = .ok m' ∧ Current now (es ++ [.put host_id sa]) m' xs' := by
  have hclock : m.p2p.time_now = clockOf now (es ++ [.put host_id sa]) := by
    rw [clockOf_snoc, h.clock]
    rfl
  by_cases hknown : ∃ x ∈ xs, x.2.host_id = host_id
  · obtain ⟨⟨p, db⟩, hx, rfl⟩ := hknown
    obtain ⟨ys, zs, rfl⟩ := List.append_of_mem hx
    obtain ⟨m', hput, hp2p, hreg⟩ := dbPut_known h.registered sa
    have hne := h.registered.hash.key_ne
    refine ⟨m', _, hput, hreg, by rw [hp2p, hclock], latest_put h.clock
      (fun x hx => h.latest x (by simp [hx])) (fun x hx => h.latest x (by simp [hx])) sa ⟨?_, ?_⟩ p,
      h.entered.put h.clock (List.mem_append_right _ List.mem_cons_self) fun x hx hother => ?_⟩
    · exact fun x hx he => hne.1 x hx (congrArg Octets.bytes he)
    · exact fun x hx he => hne.2 x hx (congrArg Octets.bytes he)
    · rcases List.mem_append.mp hx with hx | hx
      · exact List.mem_append_left _ hx
      · rcases List.mem_cons.mp hx with rfl | hx
        · exact absurd rfl hother
        · exact List.mem_append_right _ (List.mem_cons_of_mem _ hx)
  · have hne : ∀ x ∈ xs, x.2.host_id ≠ host_id := fun x hx he => hknown ⟨x, hx, he⟩
    obtain ⟨m', p, hput, hp2p, hreg⟩ := dbPut_new h.registered sa hne
    exact ⟨m', _, hput, hreg, by rw [hp2p, hclock],
      latest_put h.clock h.latest (by simp) sa ⟨hne, by simp⟩ p,
      h.entered.put h.clock (List.mem_append_right _ (List.mem_singleton_self _))
        fun x hx _ => List.mem_append_left _ hx⟩

theorem Current.step (h : Current now es m xs) (e : DbEvent) :
    ∃ m' xs', dbStep m e = .ok m' ∧ Current now (es ++ [e]) m' xs' := by
  cases e with
  | put host_id sa => exact h.put host_id sa
  | expire =>
    obtain ⟨m', ws, hexpire, hp2p, hreg, hsub, hkept⟩ := dbExpire_eq h.registered
    refine ⟨m', ws, hexpire, hreg, ?_, fun x hx => ?_, h.entered.quiet (fun _ => rfl) ?_⟩
    · rw [hp2p, h.clock, clockOf_snoc]
      rfl
    · exact (h.latest x (hsub.subset hx)).quiet fun _ => rfl
    · intro x hx htime
      exact hkept x hx (by rw [h.clock]; exact htime.last)
  | tick time =>
    refine ⟨m.tick time, xs, rfl, h.registered, ?_, fun x hx => ?_,
      h.entered.quiet (fun _ => rfl) fun x hx _ => hx⟩
    · rw [clockOf_snoc]
      rfl
    · exact (h.latest x hx).quiet fun _ => rfl

theorem Current.run (h : Current now [] m xs) (es : List DbEvent) :
    ∃ m' xs', dbRun m es = .ok m' ∧ Current now es m' xs' := by
  have hstep : ∀ es e m, (∃ xs, Current now es m xs) →
      ∃ m', dbStep m e = .ok m' ∧ ∃ xs, Current now (es ++ [e]) m' xs := by
    rintro es e m ⟨xs, h⟩
    obtain ⟨m', xs', hstep, h'⟩ := h.step e
    exact ⟨m', hstep, xs', h'⟩
  obtain ⟨m', hrun, xs', h'⟩ := foldlM_total hstep ⟨xs, h⟩ es
  exact ⟨m', xs', hrun, h'⟩

end Map

/-- The database is a map from host ids to addresses and deadlines: one entry for each id, found by
all three functions exactly if it is there, with the address of the most recent `db_put` and its
time plus 15 minutes, there from then on until a `db_expire` behind this time, and not removed
before it. -/
structure DbMap (now : ℤ) (es : List DbEvent) (m : Main) : Prop where
  unique : (m.database.list.items.map fun x => x.2.host_id).Nodup
  absent : ∀ host_id, (∀ x ∈ m.database.list.items, x.2.host_id ≠ host_id) →
    dbFind host_id m = .ok none ∧ dbAddress host_id m = .ok none ∧
      ∀ sa lkp_id session_id, dbSend sa host_id lkp_id session_id m = .ok (m, false)
  present : ∀ x ∈ m.database.list.items, dbFind x.2.host_id m = .ok (some x.1) ∧
    dbAddress x.2.host_id m = .ok (some x.2.c_addr) ∧
      ∀ sa lkp_id session_id, ∃ m', sendValue sa x.2.c_addr session_id lkp_id m = .ok m' ∧
        dbSend sa x.2.host_id lkp_id session_id m = .ok (m', true)
  latest : ∀ x ∈ m.database.list.items, ∃ t,
    lastPut now es x.2.host_id = some (x.2.c_addr, t) ∧ x.2.time_anno = t + 900
  entered : ∀ host_id sa t, lastPut now es host_id = some (sa, t) →
    InTime now es host_id (t + 900) →
      (∃ p, (p, ⟨host_id, sa, t + 900⟩) ∈ m.database.list.items) ∧
        dbAddress host_id m = .ok (some sa)
  kept : ∃ m', dbExpire m = .ok m' ∧ ∀ x ∈ m.database.list.items,
    m.p2p.time_now ≤ x.2.time_anno → x ∈ m'.database.list.items

theorem Current.map {now : ℤ} {es : List DbEvent} {m : Main} {xs : List (Ptr × Db)}
    (h : Current now es m xs) : DbMap now es m := by
  have hitems := h.registered.items_eq
  refine ⟨?_, ?_, ?_, ?_, ?_, ?_⟩
  · rw [hitems]
    exact host_ids_nodup h.registered
  · intro host_id hne
    rw [hitems] at hne
    exact db_silent h.registered hne
  · rintro ⟨p, db⟩ hx
    rw [hitems] at hx
    obtain ⟨ys, zs, rfl⟩ := List.append_of_mem hx
    exact db_answers h.registered
  · rw [hitems]
    exact h.latest
  · intro host_id sa t hlast htime
    obtain ⟨p, hp⟩ := h.entered host_id sa t hlast htime
    rw [hitems]
    refine ⟨⟨p, hp⟩, ?_⟩
    obtain ⟨ys, zs, rfl⟩ := List.append_of_mem hp
    exact (db_answers h.registered).2.1
  · obtain ⟨m', ws, hexpire, -, hreg, -, hkept⟩ := dbExpire_eq h.registered
    rw [hitems]
    exact ⟨m', hexpire, fun x hx ht => hreg.items_eq ▸ hkept x hx ht⟩

/-- Every sequence of operations on the database of a node succeeds. -/
theorem dbRun_current (conf : Conf) (udp : Udp) (now : ℤ) (urandom : ℕ → Option Id)
    (random : ℕ → ℕ) (es : List DbEvent) : ∃ m₀ m xs,
      mainInit conf udp now urandom random = .ok m₀ ∧ dbRun m₀ es = .ok m ∧
        Current now es m xs := by
  obtain ⟨t, ht⟩ : ∃ t, bcktInit = .ok t := ⟨_, rfl⟩
  let m₀ : Main := {
    conf, udp, nbhd := t, urandom, random
    p2p := ⟨now, 0, 0, 0, 0, 0, 0, 0, 0⟩
    cache := cacheInit
    lkps := ⟨listInit, hashInit 4096⟩
    announce := ⟨listInit, hashInit 4096⟩
    database := ⟨listInit, hashInit 4096⟩
    reads := 0, draws := 0, out := [], log := [], calls := [] }
  have hinit : mainInit conf udp now urandom random = .ok m₀ := by
    rw [mainInit, ht]
    rfl
  have h₀ : Current now [] m₀ [] := by
    refine ⟨registered_init 4096, rfl, by simp, fun host_id sa t hlast => ?_⟩
    cases hlast
  obtain ⟨m, xs, hrun, h⟩ := h₀.run es
  exact ⟨m₀, m, xs, hinit, hrun, h⟩

/-- The database of a node is a map after every sequence of its operations. -/
theorem dbRun_map (conf : Conf) (udp : Udp) (now : ℤ) (urandom : ℕ → Option Id) (random : ℕ → ℕ)
    (es : List DbEvent) : ∃ m₀ m, mainInit conf udp now urandom random = .ok m₀ ∧
      dbRun m₀ es = .ok m ∧ DbMap now es m := by
  obtain ⟨m₀, m, xs, hinit, hrun, h⟩ := dbRun_current conf udp now urandom random es
  exact ⟨m₀, m, hinit, hrun, h.map⟩

end Masala.Daemon
