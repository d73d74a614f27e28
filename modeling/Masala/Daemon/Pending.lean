import Masala.Daemon.Findings
import Mathlib.Data.List.Perm.Basic

/-!
# What a node owes its callers

Each lookup with a callback is owed one call with its argument. In every event
the calls that were owed and those that the event asks for are, taken together,
those that are made in it and those that are owed after it. So in a run no call
is lost or made twice, and expiry settles what is left.
-/
namespace Masala.Daemon
open Library Container Bencode Routing Session

/-- The callback of a lookup and its argument. -/
def Search.owed (l : Search) : Option (ℕ × ℕ) := l.callback.map fun callback => (callback, l.ctx)

def Lookup.owed (l : Lookup) : Option (ℕ × ℕ) := l.search.owed

def Call.owed (c : Call) : ℕ × ℕ := (c.callback, c.ctx)

def owed (xs : List (Ptr × Lookup)) : List (ℕ × ℕ) := xs.filterMap fun x => x.2.owed

/-- What an event asks the node to call. -/
def Event.owes : Event → List (ℕ × ℕ)
  | .lookup callback ctx _ => [(callback, ctx)]
  | _ => []

/-- The id of the lookup has been drawn, and it lasts for five seconds after one of the readings of
the clock. -/
structure Started (clocks : Set ℤ) (m : Main) (l : Lookup) : Prop where
  drawn : ∃ k < m.reads, m.urandom k = some l.lkp_id
  timed : ∃ t ∈ clocks, l.time_find = t + 5

/-- The pending lookups are `xs`. -/
structure Pends (clocks : Set ℤ) (m : Main) (xs : List (Ptr × Lookup)) : Prop where
  registered : Registered Lookup.key m.lkps xs
  started : ∀ x ∈ xs, Started clocks m x.2

/-- The calls made from one state to the other settle what was owed. -/
def Settles (clocks : Set ℤ) (m m' : Main) (due : List (ℕ × ℕ)) : Prop :=
  ∃ xs' calls, Pends clocks m' xs' ∧ m'.calls = m.calls ++ calls ∧
    due.Perm (owed xs' ++ calls.map Call.owed)

section Settle
variable {clocks : Set ℤ} {m₀ m m' m'' : Main} {e : Event} {eff : Effect}
  {xs ys zs : List (Ptr × Lookup)} {p : Ptr} {l : Lookup} {due : List (ℕ × ℕ)}

/-- The nodes that a lookup has asked do not matter. -/
theorem Started.of_search {l' : Lookup} (h : Started clocks m l) (hl : l.search = l'.search) :
    Started clocks m l' := by
  have hid : l.lkp_id = l'.lkp_id := congrArg Search.lkp_id hl
  have htime : l.time_find = l'.time_find := congrArg Search.time_find hl
  exact ⟨hid ▸ h.drawn, htime ▸ h.timed⟩

theorem Started.mono (h : Started clocks m l) (hurandom : m'.urandom = m.urandom)
    (hreads : m.reads ≤ m'.reads) : Started clocks m' l := by
  obtain ⟨⟨k, hk, hdraw⟩, htimed⟩ := h
  exact ⟨⟨k, hk.trans_le hreads, by rw [hurandom, hdraw]⟩, htimed⟩

theorem Search.answer_owed (l : Lookup) (node_id : Id) (address : Option (Octets 16)) :
    (l.search.answer node_id address).map Call.owed = l.owed := by
  rw [Search.answer, Lookup.owed, Search.owed, Option.map_map]
  rfl

/-- The calls of `lkp_expire` are those that the lookups it removes are owed. -/
theorem timeouts_owed (now : ℤ) (xs : List (Ptr × Lookup)) :
    (timeouts now xs).map Call.owed = owed (xs.filter fun x => x.2.search.timedOut now) := by
  rw [timeouts, owed, List.map_filterMap]
  congr 1
  funext x
  exact Search.answer_owed _ _ _

theorem owed_filter_perm (now : ℤ) (xs : List (Ptr × Lookup)) :
    (owed xs).Perm (owed (xs.filter fun x => !x.2.search.timedOut now) ++
      (timeouts now xs).map Call.owed) := by
  rw [timeouts_owed, owed, owed, owed, ← List.filterMap_append]
  refine List.Perm.filterMap _ (List.Perm.trans ?_ List.perm_append_comm)
  exact (List.filter_append_perm (fun x => x.2.search.timedOut now) xs).symm

theorem owed_append (xs ys : List (Ptr × Lookup)) : owed (xs ++ ys) = owed xs ++ owed ys :=
  List.filterMap_append

/-- What a lookup that is removed has been owed. -/
theorem owed_remove (ys zs : List (Ptr × Lookup)) (p : Ptr) (l : Lookup) :
    (owed (ys ++ (p, l) :: zs)).Perm (owed (ys ++ zs) ++ l.owed.toList) := by
  rw [owed_append, owed_append, owed, owed, owed, List.filterMap_cons]
  cases l.owed with
  | none => simp
  | some o => exact List.perm_middle.trans (List.perm_append_singleton o _).symm

theorem Settles.refl (h : Pends clocks m xs) : Settles clocks m m (owed xs) :=
  ⟨xs, [], h, by simp, by simp⟩

/-- Effects that leave lookups and callbacks alone. -/
theorem Settles.quiet (h : Pends clocks m xs) (hlkps : m'.lkps = m.lkps)
    (hcalls : m'.calls = m.calls) (hurandom : m'.urandom = m.urandom)
    (hreads : m.reads ≤ m'.reads) : Settles clocks m m' (owed xs) :=
  ⟨xs, [], ⟨hlkps ▸ h.registered, fun x hx => (h.started x hx).mono hurandom hreads⟩,
    by simpa using hcalls, by simp⟩

/-- An effect of an event that starts no lookup. -/
theorem Work.settles (hw : Work m₀ e m eff m') (h : Pends clocks m xs)
    (hquiet : e.search? = none) : Settles clocks m m' (owed xs) := by
  obtain ⟨hurandom, hreads⟩ := hw.random
  have hsame := fun hlkps hcalls => Settles.quiet h hlkps hcalls hurandom hreads
  have hstarted : ∀ x ∈ xs, Started clocks m' x.2 := fun x hx =>
    (h.started x hx).mono hurandom hreads
  cases hw with
  | idle hidle => exact hsame hidle.lkps hidle.calls
  | host _ _ _ _ _ hidle => exact hsame hidle.lkps hidle.calls
  | hosts _ hidle => exact hsame hidle.lkps hidle.calls
  | search hsearch => cases hquiet.symm.trans hsearch
  | answer he =>
    subst he
    cases hquiet
  | remember hitem hlist =>
    rename_i i l asked list
    have hkey : Lookup.key { l.val with asked := asked } = Lookup.key l.val := rfl
    obtain ⟨ws, hreg, hws⟩ := registered_setVal h.registered hitem hkey hlist
      Lookup.search rfl
    have howed : owed ws = owed xs := by
      have hmap := congrArg (List.filterMap Search.owed) hws
      rw [List.filterMap_map, List.filterMap_map] at hmap
      exact hmap
    refine ⟨ws, [], ⟨hreg, fun w hw => ?_⟩, by simp, by simp [howed]⟩
    have hmem : w.2.search ∈ ws.map fun x => x.2.search := List.mem_map_of_mem hw
    rw [hws] at hmem
    obtain ⟨x, hx, hsearch⟩ := List.mem_map.mp hmem
    exact (hstarted x hx).of_search hsearch
  | success haccept hq hl ha hsuccess hidle =>
    rename_i packet id key lkp_id address
    rcases lkpGet_cases h.registered lkp_id with ⟨hnone, -⟩ | ⟨ys, p, l, zs, rfl, rfl⟩
    · rw [lkpSuccess, hnone, exec_ok_bind] at hsuccess
      obtain rfl := Except.ok.inj hsuccess
      exact .refl h
    · obtain ⟨lkps, heq, hreg, -⟩ := lkpSuccess_eq h.registered id address
      obtain rfl := Except.ok.inj (heq.symm.trans hsuccess)
      refine ⟨ys ++ zs, _, ⟨hreg, fun x hx => hstarted x ?_⟩, rfl, ?_⟩
      · exact ((List.sublist_append_right [(p, l)] zs).append_left ys).subset hx
      · have hanswer : (l.search.answer id (some address)).toList.map Call.owed =
            l.owed.toList := by
          rw [← Search.answer_owed l id (some address)]
          cases l.search.answer id (some address) with
          | none => rfl
          | some call => rfl
        rw [hanswer]
        exact owed_remove ys zs p l
  | timeouts hexpire hidle =>
    obtain ⟨lkps, heq, hreg, -⟩ := lkpExpire_eq h.registered
    obtain rfl := Except.ok.inj (heq.symm.trans hexpire)
    exact ⟨_, _, ⟨hreg, fun x hx => hstarted x (List.mem_of_mem_filter hx)⟩, rfl,
      owed_filter_perm m.p2p.time_now xs⟩
  | _ => exact hsame rfl rfl

theorem Settles.trans (h : Settles clocks m m' due)
    (h' : ∀ xs, Pends clocks m' xs → Settles clocks m' m'' (owed xs)) :
    Settles clocks m m'' due := by
  obtain ⟨xs, calls, hxs, hcalls, hdue⟩ := h
  obtain ⟨ys, calls', hys, hcalls', hdue'⟩ := h' xs hxs
  refine ⟨ys, calls ++ calls', hys, by rw [hcalls', hcalls, List.append_assoc], hdue.trans ?_⟩
  rw [List.map_append]
  calc List.Perm (owed xs ++ calls.map Call.owed)
        ((owed ys ++ calls'.map Call.owed) ++ calls.map Call.owed) := hdue'.append_right _
    List.Perm _ (owed ys ++ (calls.map Call.owed ++ calls'.map Call.owed)) := by
      rw [List.append_assoc]
      exact List.perm_append_comm.append_left _

/-- A packet and a pass of `p2p_cron` only settle what has been owed before. -/
theorem Works.settles (hw : Works m₀ e m m') (h : Pends clocks m xs) (hquiet : e.search? = none) :
    Settles clocks m m' (owed xs) := by
  have hkeep : ∀ m₁ eff m₂, Work m₀ e m₁ eff m₂ → Settles clocks m m₁ (owed xs) →
      Settles clocks m m₂ (owed xs) := fun m₁ eff m₂ hw hs =>
    hs.trans fun ys hys => hw.settles hys hquiet
  exact hw.keeps hkeep (.refl h)

/-! ## Expiry -/

theorem Settles.nothing (h : Settles clocks m m' []) : m'.calls = m.calls := by
  obtain ⟨xs, calls, -, hcalls, hdue⟩ := h
  obtain ⟨-, hnone⟩ := List.append_eq_nil_iff.mp hdue.nil_eq.symm
  rw [hcalls, List.map_eq_nil_iff.mp hnone, List.append_nil]

/-- When all clock readings are long past, `lkp_expire` leaves no lookup. -/
theorem lkpExpire_settles (h : Pends clocks m xs) (hlate : ∀ t ∈ clocks, t + 5 < m.p2p.time_now)
    (hexpire : lkpExpire m = .ok m') : ∃ calls, Pends clocks m' [] ∧
      m'.calls = m.calls ++ calls ∧ (owed xs).Perm (calls.map Call.owed) := by
  obtain ⟨lkps, heq, hreg, -⟩ := lkpExpire_eq h.registered
  obtain rfl := Except.ok.inj (heq.symm.trans hexpire)
  have hnone : (xs.filter fun x => !x.2.search.timedOut m.p2p.time_now) = [] := by
    rw [List.filter_eq_nil_iff]
    intro x hx
    obtain ⟨t, ht, htime⟩ := (h.started x hx).timed
    have hpast : m.p2p.time_now > x.2.time_find := by
      rw [htime]
      exact hlate t ht
    have hout : x.2.search.timedOut m.p2p.time_now = true := decide_eq_true hpast
    simp [hout]
  have hperm := owed_filter_perm m.p2p.time_now xs
  rw [hnone] at hreg hperm
  exact ⟨_, ⟨hreg, by simp⟩, rfl, hperm⟩

/-- A pass of `p2p_cron` in which the expiry is due, when all clock readings before it are long
past, settles everything. -/
theorem p2pCron_settles (hm : InOrder m) (h : Pends clocks m xs) {now : ℤ} {env : Env}
    (hdue : m.p2p.time_expire < now) (hlate : ∀ t ∈ clocks, t + 5 < now)
    (hstep : p2pCron now env m = .ok m') :
    ∃ calls, m'.calls = m.calls ++ calls ∧ (owed xs).Perm (calls.map Call.owed) := by
  have htick : Pends clocks (m.tick now) xs := ⟨h.registered, fun x hx =>
    (h.started x hx).mono rfl le_rfl⟩
  have hm₀ : InOrder (m.tick now) := (timed_moved m (.cron now env)).inOrder hm
  have hpast : (m.tick now).p2p.time_now > P2p.time_expire (m.tick now).p2p := hdue
  have hset : ∀ (t : ℤ) (p : P2p), ({ p with time_expire := t } : P2p).time_now = p.time_now :=
    fun _ _ => rfl
  obtain ⟨m₁, hexpire, -, hrest⟩ := p2pCron_split hm hstep
  obtain ⟨m₂, hall, htimer⟩ : ∃ m₂, expireAll (m.tick now) = .ok m₂ ∧
      Works m (.cron now env) m₂ m₁ := every_due approx2_idle hset hpast hexpire
  obtain ⟨m₃, m₄, hbefore, hlkp, -, hafter⟩ : ∃ m₃ m₄, Works m (.cron now env) (m.tick now) m₃ ∧
      lkpExpire m₃ = .ok m₄ ∧ Works m (.cron now env) m₃ m₄ ∧ Works m (.cron now env) m₄ m₂ :=
    expireAll_split hm₀ hall
  have hclock : ∀ m₁ eff m₂, Work m (.cron now env) m₁ eff m₂ → m₁.p2p.time_now = now →
      m₂.p2p.time_now = now := by
    intro m₁ eff m₂ hw h₁
    rcases hw.clock with hsame | hread
    · exact hsame.trans h₁
    · exact (Option.some.inj hread).symm
  have hnow : m₃.p2p.time_now = now := hbefore.keeps hclock rfl
  obtain ⟨ys, calls, hys, hcalls, hperm⟩ := hbefore.settles htick rfl
  obtain ⟨calls', hnone, hcalls', hperm'⟩ := lkpExpire_settles hys (hnow ▸ hlate) hlkp
  have hrest' : Works m (.cron now env) m₄ m' := (hafter.trans htimer).trans hrest
  have hend := (hrest'.settles hnone rfl).nothing
  refine ⟨calls ++ calls', ?_, hperm.trans ?_⟩
  · rw [hend, hcalls', hcalls, List.append_assoc]
    rfl
  · rw [List.map_append]
    exact (hperm'.append_right _).trans List.perm_append_comm

/-! ## Events -/

/-- A new lookup reads its id. -/
theorem lkpPut_random (id : Id) (callback : Option ℕ) (ctx : ℕ) (m : Main) :
    Ensures (lkpPut id callback ctx m) fun m' =>
      m'.urandom = m.urandom ∧ m.reads < m'.reads := by
  rw [lkpPut, randUrandom]
  cases hread : m.urandom m.reads with
  | none => exact ensures_error
  | some lkp_id =>
    rw [exec_ok_bind]
    dsimp only
    intro m' h
    obtain ⟨⟨list, i⟩, -, h⟩ := exec_bind_eq_ok.mp h
    obtain ⟨hash, -, h⟩ := exec_bind_eq_ok.mp h
    have hw : Works m (.search id) _ m' := nbhdLookup_works i m' h
    have hkeep : ∀ m₁ eff m₂, Work m (.search id) m₁ eff m₂ →
        m₁.urandom = m.urandom ∧ m.reads < m₁.reads → m₂.urandom = m.urandom ∧
          m.reads < m₂.reads := fun m₁ eff m₂ hw hs =>
      ⟨hw.random.1.trans hs.1, hs.2.trans_le hw.random.2⟩
    exact hw.keeps hkeep ⟨rfl, Nat.lt_succ_self _⟩

variable (hdraws : ∀ k k' id, m.urandom k = some id → m.urandom k' = some id → k = k')
include hdraws

/-- A new lookup is owed what it asks for. -/
theorem lkpPut_settles (hm : InOrder m) (hclock : m.p2p.time_now ∈ clocks)
    (h : Pends clocks m xs) (id : Id) (callback : Option ℕ) (ctx : ℕ) :
    Ensures (lkpPut id callback ctx m) fun m' => m'.calls = m.calls ∧ Settles clocks m m'
      (owed xs ++ (callback.map fun callback => (callback, ctx)).toList) := by
  have hunused : ∀ lkp_id, m.urandom m.reads = some lkp_id → ∀ x ∈ xs, x.2.lkp_id ≠ lkp_id := by
    rintro lkp_id hread x hx rfl
    obtain ⟨k, hk, hdraw⟩ := (h.started x hx).drawn
    exact absurd (hdraws k m.reads _ hdraw hread) (Nat.ne_of_lt hk)
  intro m' hput
  obtain ⟨lkp_id, asked, hread, -, hreg, -, hsent⟩ :=
    lkpPut_ensures hm h.registered id callback ctx hunused m' hput
  obtain ⟨hurandom, hreads⟩ := lkpPut_random id callback ctx m m' hput
  refine ⟨hsent.calls, _, [], ⟨hreg, ?_⟩, by simpa using hsent.calls, ?_⟩
  · rw [List.forall_mem_append, List.forall_mem_singleton]
    refine ⟨fun x hx => (h.started x hx).mono hurandom hreads.le, ⟨m.reads, hreads, ?_⟩,
      m.p2p.time_now, hclock, rfl⟩
    rw [hurandom, hread]
  · rw [owed_append, List.map_nil, List.append_nil]
    cases callback with
    | none => exact List.Perm.refl _
    | some callback => exact List.Perm.refl _

/-- In every event the node calls, or goes on to owe, what it owed before and what the event asks
for: no call is lost and none is made twice. -/
theorem step_settles (hm : InOrder m) (hclock : m.p2p.time_now ∈ clocks) (h : Pends clocks m xs)
    (e : Event) : Ensures (m.step e) fun m' => Settles clocks m m' (owed xs ++ e.owes) := by
  intro m' hstep
  cases e with
  | packet now datagram sender =>
    change Settles clocks m m' (owed xs ++ [])
    rw [List.append_nil]
    exact (step_works hm _ m' hstep).settles h rfl
  | cron now env =>
    change Settles clocks m m' (owed xs ++ [])
    rw [List.append_nil]
    exact (step_works hm _ m' hstep).settles h rfl
  | search id => exact (lkpPut_settles hdraws hm hclock h id none 0 m' hstep).2
  | lookup callback ctx id =>
    obtain ⟨r, -, hstep⟩ := exec_bind_eq_ok.mp hstep
    cases r with
    | none => exact (lkpPut_settles hdraws hm hclock h id (some callback) ctx m' hstep).2
    | some sa =>
      obtain rfl := Except.ok.inj hstep
      have hsame : ∀ x ∈ xs, Started clocks
          { m with calls := m.calls ++ [⟨callback, ctx, id, some sa.addr⟩] } x.2 := fun x hx =>
        (h.started x hx).mono rfl le_rfl
      exact ⟨xs, [⟨callback, ctx, id, some sa.addr⟩], ⟨h.registered, hsame⟩, rfl,
        List.Perm.refl _⟩

end Settle

/-! ## Runs -/

section Runs
variable {clocks : Set ℤ} {urandom : ℕ → Option Id} {done : List Event} {e : Event} {m : Main}

/-- A node of a run, with its random numbers and its readings of the clock. -/
structure Running (clocks : Set ℤ) (urandom : ℕ → Option Id) (m : Main) : Prop where
  inOrder : InOrder m
  urandom : m.urandom = urandom
  clock : m.p2p.time_now ∈ clocks

/-- The calls that have been asked for are those that have been made and those that are owed. -/
structure Balanced (clocks : Set ℤ) (urandom : ℕ → Option Id) (done : List Event) (m : Main) :
    Prop extends Running clocks urandom m where
  books : ∃ xs, Pends clocks m xs ∧
    (done.flatMap Event.owes).Perm (owed xs ++ m.calls.map Call.owed)

theorem Works.random {m₀ m' : Main} (hw : Works m₀ e m m') : m'.urandom = m.urandom :=
  hw.keeps (fun _ _ _ hwork h => hwork.random.1.trans h) rfl

theorem Running.step (h : Running clocks urandom m)
    (he : ∀ now, e.clock = some now → now ∈ clocks) :
    Ensures (m.step e) (Running clocks urandom) := by
  intro m' hstep
  have hm := h.inOrder
  refine ⟨(step_moved hm e m' hstep).inOrder hm,
    (step_works hm e m' hstep).random.trans h.urandom, ?_⟩
  rw [step_clock hm e m' hstep, Main.timed]
  cases hread : e.clock with
  | none => exact h.clock
  | some now => exact he now hread

theorem Balanced.step (h : Balanced clocks urandom done m)
    (hdraws : ∀ k k' id, urandom k = some id → urandom k' = some id → k = k')
    (he : ∀ now, e.clock = some now → now ∈ clocks) :
    Ensures (m.step e) (Balanced clocks urandom (done ++ [e])) := by
  intro m' hstep
  obtain ⟨hrunning, xs, hpends, hbooks⟩ := h
  obtain ⟨xs', calls, hpends', hcalls, hdue⟩ :=
    step_settles (hrunning.urandom ▸ hdraws) hrunning.inOrder hrunning.clock hpends e m' hstep
  refine ⟨hrunning.step he m' hstep, xs', hpends', ?_⟩
  rw [List.flatMap_append, List.flatMap_singleton, hcalls, List.map_append]
  calc List.Perm (done.flatMap Event.owes ++ e.owes)
        ((owed xs ++ m.calls.map Call.owed) ++ e.owes) := hbooks.append_right _
    List.Perm _ ((owed xs ++ e.owes) ++ m.calls.map Call.owed) := by
      rw [List.append_assoc, List.append_assoc]
      exact List.perm_append_comm.append_left _
    List.Perm _ ((owed xs' ++ calls.map Call.owed) ++ m.calls.map Call.owed) :=
      hdue.append_right _
    List.Perm _ (owed xs' ++ (m.calls.map Call.owed ++ calls.map Call.owed)) := by
      rw [List.append_assoc]
      exact List.perm_append_comm.append_left _

theorem mainInit_running {conf : Conf} {udp : Udp} {time_now : ℤ} {random : ℕ → ℕ}
    (hclock : time_now ∈ clocks) : Ensures (mainInit conf udp time_now urandom random) fun m =>
      Running clocks urandom m ∧ Pends clocks m [] ∧ m.calls = [] := by
  intro m hinit
  obtain ⟨-, hm, -⟩ := mainInit_ensures _ _ _ _ _ m hinit
  obtain ⟨t, -, hinit⟩ := exec_bind_eq_ok.mp hinit
  obtain rfl := Except.ok.inj hinit
  exact ⟨⟨hm, rfl, hclock⟩, ⟨registered_init 4096, by simp⟩, rfl⟩

/-- The calls of a run. -/
theorem nodeRun_balanced {conf : Conf} {udp : Udp} {time_now : ℤ} {random : ℕ → ℕ}
    {events : List Event}
    (hdraws : ∀ k k' id, urandom k = some id → urandom k' = some id → k = k')
    (hrun : nodeRun conf udp time_now urandom random events = .ok m) :
    Balanced {t | t ∈ time_now :: events.filterMap Event.clock} urandom events m := by
  obtain ⟨m₀, hinit, hrun⟩ := exec_bind_eq_ok.mp hrun
  have hclock : time_now ∈ {t | t ∈ time_now :: events.filterMap Event.clock} :=
    List.mem_cons_self
  obtain ⟨hrunning, hpends, hcalls⟩ := mainInit_running hclock m₀ hinit
  have hstart : Balanced {t | t ∈ time_now :: events.filterMap Event.clock} urandom [] m₀ :=
    ⟨hrunning, [], hpends, by rw [hcalls]; exact .refl _⟩
  refine ensures_foldlM_history (fun done e rest m hsplit h => ?_) hstart m hrun
  have he : e ∈ events := by
    rw [hsplit]
    exact List.mem_append_right _ List.mem_cons_self
  exact h.step hdraws fun now hread =>
    List.mem_cons_of_mem _ (List.mem_filterMap.mpr ⟨e, he, hread⟩)

end Runs

/-- In every run of a node that draws no random number twice, the calls that have been made and
those that pending lookups are owed are together those that have been asked for. A pass of
`p2p_cron` in which the expiry is due makes the last of them when the clock has been read for the
last time more than five seconds before. -/
theorem node_settles (conf : Conf) (udp : Udp) (time_now : ℤ) (urandom : ℕ → Option Id)
    (random : ℕ → ℕ) (hdraws : ∀ k k' id, urandom k = some id → urandom k' = some id → k = k')
    (events : List Event) (m : Main)
    (hrun : nodeRun conf udp time_now urandom random events = .ok m) :
    (∃ xs, Registered Lookup.key m.lkps xs ∧
      (events.flatMap Event.owes).Perm (owed xs ++ m.calls.map Call.owed)) ∧
    ∀ now env m', m.step (.cron now env) = .ok m' → m.p2p.time_expire < now →
      (∀ t ∈ time_now :: events.filterMap Event.clock, t + 5 < now) →
      (events.flatMap Event.owes).Perm (m'.calls.map Call.owed) := by
  obtain ⟨⟨hm, -, -⟩, xs, hpends, hbooks⟩ := nodeRun_balanced hdraws hrun
  refine ⟨⟨xs, hpends.registered, hbooks⟩, fun now env m' hstep hdue hlate => ?_⟩
  obtain ⟨calls, hcalls, hperm⟩ := p2pCron_settles hm hpends hdue hlate hstep
  rw [hcalls, List.map_append]
  exact (hbooks.trans (hperm.append_right _)).trans List.perm_append_comm

/-- A lookup that nobody answers. -/
theorem node_settles_unanswered : ∃ m m',
    nodeRun ⟨headId 0xff, headId 0, none, none⟩ ⟨3, true⟩ 0
      (fun k => if k < 8 then some (headId k.toUInt8) else none) (fun _ => 0)
      [.lookup 7 70 (headId 3)] = .ok m ∧
    m.step (cronAt 6) = .ok m' ∧ [(7, 70)].Perm (m'.calls.map Call.owed) := by
  have hcalc : (do
      let m ← nodeRun ⟨headId 0xff, headId 0, none, none⟩ ⟨3, true⟩ 0
        (fun k => if k < 8 then some (headId k.toUInt8) else none) (fun _ => 0)
        [.lookup 7 70 (headId 3)]
      let _ ← m.step (cronAt 6)
      return m.p2p.time_expire) = .ok 0 := by decide +kernel
  obtain ⟨m, hrun, hcalc⟩ := exec_bind_eq_ok.mp hcalc
  obtain ⟨m', hstep, hcalc⟩ := exec_bind_eq_ok.mp hcalc
  have hdue : m.p2p.time_expire < 6 := by
    rw [Except.ok.inj hcalc]
    decide
  have hsettles := (node_settles _ _ _ _ _ (fun _ _ _ => headId_draws) _ m hrun).2
  exact ⟨m, m', hrun, hstep, hsettles 6 _ m' hstep hdue (by decide)⟩
end Masala.Daemon
