import Masala.Daemon.Lookups
import Masala.Daemon.Runs
import Masala.Library.Ledger

/-!
# Every lookup is answered once

The books of the lookups: one is opened by `lkp_put`, held while it is pending,
and closed by `lkp_success` or `lkp_expire`, which call its callback. Every step
keeps the books balanced, whatever the order of the steps.
-/
namespace Masala.Daemon
open Library Container Bencode Routing Session

/-- The pending lookups under their items. -/
def searches (m : Main) : List (Ptr × Search) := m.lkps.list.items.map fun x => (x.1, x.2.search)

/-- A lookup that ends, with the call of its callback. -/
structure Ending where
  item : Ptr
  search : Search
  call : Option Call

def Ending.lookup (e : Ending) : Ptr × Search := (e.item, e.search)

namespace Step

/-- The lookup that a step creates. -/
def issued (s : Step) : List (Ptr × Search) :=
  match s.act, s.pre.urandom s.pre.reads with
  | .lkpPut find_id callback ctx, some lkp_id =>
    [(s.pre.lkps.list.fresh, ⟨find_id, lkp_id, callback, ctx, timeAddXSec 5 s.pre⟩)]
  | _, _ => []

/-- The lookups that a step ends. -/
def endings (s : Step) : List Ending :=
  match s.act with
  | .lkpSuccess lkp_id node_id address =>
    ((searches s.pre).filter fun x => x.2.lkp_id = lkp_id).map fun x =>
      ⟨x.1, x.2, x.2.answer node_id (some address)⟩
  | .lkpExpire =>
    ((searches s.pre).filter fun x => x.2.timedOut s.pre.p2p.time_now).map fun x =>
      ⟨x.1, x.2, x.2.answer x.2.find_id none⟩
  | _ => []

/-- The callbacks that a step calls. -/
def calls (s : Step) : List Call := s.endings.filterMap Ending.call ++ s.act.answered

end Step

/-! ## The books -/

section Books
variable {m m' : Main} {act : Act} {xs xs' : List (Ptr × Lookup)} {s : Step}

theorem issued_other (h : ¬ act.onLkps) : Step.issued ⟨m, act, m'⟩ = [] := by
  cases act with
  | lkpPut find_id callback ctx => exact absurd trivial h
  | _ => rfl

theorem endings_other (h : ¬ act.onLkps) : Step.endings ⟨m, act, m'⟩ = [] := by
  cases act with
  | lkpSuccess lkp_id node_id address => exact absurd trivial h
  | lkpExpire => exact absurd trivial h
  | _ => rfl

theorem Looking.searches_eq (h : Looking m xs) :
    searches m = xs.map fun x => (x.1, x.2.search) := by
  rw [searches, h.items_eq]

theorem Looking.searches_filter {ys zs : List (Ptr × Lookup)} {p : Ptr} {l : Lookup}
    (h : Looking m (ys ++ (p, l) :: zs)) :
    (searches m).filter (fun x => x.2.lkp_id = l.lkp_id) = [(p, l.search)] := by
  rw [searches, List.filter_map]
  exact congrArg (List.map _) h.items_filter

/-- An answer to a lookup that is not pending ends nothing. -/
theorem Looking.endings_late (h : Looking m xs) {lkp_id node_id : Id} {address : Octets 16}
    (hne : ∀ x ∈ xs, x.2.lkp_id ≠ lkp_id) :
    Step.endings ⟨m, .lkpSuccess lkp_id node_id address, m'⟩ = [] := by
  rw [Step.endings]
  dsimp only
  rw [h.searches_eq, List.map_eq_nil_iff, List.filter_eq_nil_iff]
  intro y hy
  obtain ⟨x, hmem, rfl⟩ := List.mem_map.mp hy
  exact fun he => hne x hmem (of_decide_eq_true he)

theorem LkpTurn.balance (h : LkpTurn m act m' xs xs') (hx : Looking m xs) (hx' : Looking m' xs') :
    (searches m ++ Step.issued ⟨m, act, m'⟩).Perm
      (searches m' ++ (Step.endings ⟨m, act, m'⟩).map Ending.lookup) := by
  have hsame : searches m' = searches m → Step.issued ⟨m, act, m'⟩ = [] →
      Step.endings ⟨m, act, m'⟩ = [] → (searches m ++ Step.issued ⟨m, act, m'⟩).Perm
        (searches m' ++ (Step.endings ⟨m, act, m'⟩).map Ending.lookup) := by
    intro hs hi he
    rw [hs, hi, he, List.map_nil]
  cases h with
  | put hread hasked hfresh hsent =>
    rw [hx.searches_eq, hx'.searches_eq, Step.issued]
    dsimp only
    rw [hread, Step.endings, List.map_nil, List.append_nil, List.map_append, List.map_singleton]
    rfl
  | ask hids hx₁ hasked hfresh hsent =>
    refine hsame ?_ rfl rfl
    rw [hx.searches_eq, hx'.searches_eq]
    simp [Lookup.search]
  | ignore => exact hsame rfl rfl rfl
  | @success p l node_id address _ ys zs hfresh hout hcalls =>
    rw [Step.issued, Step.endings]
    dsimp only
    rw [hx.searches_filter, hx.searches_eq, hx'.searches_eq, List.append_nil, List.map_append,
      List.map_append, List.map_cons]
    exact List.perm_middle.trans (List.perm_append_singleton _ _).symm
  | late hne => exact hsame rfl rfl (hx.endings_late hne)
  | expire hfresh hout hcalls =>
    have hkept : searches m' =
        (searches m).filter fun x => !x.2.timedOut m.p2p.time_now := by
      rw [hx.searches_eq, hx'.searches_eq, List.filter_map]
      rfl
    have hended : (Step.endings ⟨m, .lkpExpire, m'⟩).map Ending.lookup =
        (searches m).filter fun x => x.2.timedOut m.p2p.time_now := by
      rw [Step.endings, List.map_map]
      exact List.map_id _
    rw [hkept, hended, Step.issued, List.append_nil]
    exact (List.filter_append_perm _ _).symm.trans List.perm_append_comm
  | other hact hlkps hcalls =>
    exact hsame (by rw [searches, searches, hlkps]) (issued_other hact) (endings_other hact)

/-- A new lookup gets the next address of the allocator. -/
theorem LkpTurn.fresh (h : LkpTurn m act m' xs xs') :
    (Step.issued ⟨m, act, m'⟩ = [] ∧ m'.lkps.list.fresh = m.lkps.list.fresh) ∨
      ∃ l, Step.issued ⟨m, act, m'⟩ = [(m.lkps.list.fresh, l)] ∧
        m'.lkps.list.fresh = m.lkps.list.fresh + 1 := by
  cases h with
  | @put find_id lkp_id callback ctx asked _ _ hread hasked hfresh hsent =>
    refine .inr ⟨⟨find_id, lkp_id, callback, ctx, timeAddXSec 5 m⟩, ?_, hfresh⟩
    rw [Step.issued]
    dsimp only
    rw [hread]
  | ask hids hx hasked hfresh hsent => exact .inl ⟨rfl, hfresh⟩
  | ignore => exact .inl ⟨rfl, rfl⟩
  | success hfresh hout hcalls => exact .inl ⟨rfl, hfresh⟩
  | late hne => exact .inl ⟨rfl, rfl⟩
  | expire hfresh hout hcalls => exact .inl ⟨rfl, hfresh⟩
  | other hact hlkps hcalls => exact .inl ⟨issued_other hact, by rw [hlkps]⟩

/-- The calls of a step are those of the lookups that it ends. -/
theorem LkpTurn.calls (h : LkpTurn m act m' xs xs') (hx : Looking m xs) :
    m'.calls = m.calls ++ Step.calls ⟨m, act, m'⟩ := by
  cases h with
  | put hread hasked hfresh hsent => exact hsent.calls.trans (List.append_nil _).symm
  | ask hids hx₁ hasked hfresh hsent => exact hsent.calls.trans (List.append_nil _).symm
  | ignore => exact (List.append_nil _).symm
  | success hfresh hout hcalls =>
    rw [hcalls, Step.calls, Step.endings]
    dsimp only [Act.answered]
    rw [hx.searches_filter, List.append_nil]
    rfl
  | late hne =>
    rw [Step.calls, hx.endings_late hne]
    exact (List.append_nil _).symm
  | expire hfresh hout hcalls =>
    rw [hcalls, Step.calls, Step.endings, timeouts, hx.searches_eq]
    dsimp only [Act.answered]
    rw [List.append_nil, List.filterMap_map, List.filter_map, List.filterMap_map]
    rfl
  | other hact hlkps hcalls =>
    rw [hcalls, Step.calls, endings_other hact, List.filterMap_nil, List.nil_append]

/-- After some steps the books are balanced and the callbacks that were called are those of the
closed lookups. -/
structure Accounted (m : Main) (past : List Step) : Prop where
  inOrder : InOrder m
  looking : ∃ xs, Looking m xs
  ledger : Ledger Prod.fst (past.flatMap Step.issued) (searches m)
    ((past.flatMap Step.endings).map Ending.lookup)
  fresh : ∀ x ∈ past.flatMap Step.issued, x.1 < m.lkps.list.fresh
  calls : m.calls = past.flatMap Step.calls

theorem Accounted.step {past : List Step} (h : Accounted s.pre past)
    (hd : Deed s.pre s.act s.post) (hids : s.drawsUnused) : Accounted s.post (past ++ [s]) := by
  obtain ⟨xs, hx⟩ := h.looking
  obtain ⟨xs', hx', hturn⟩ := hd.lkpTurn h.inOrder hx hids
  have hissued : (past ++ [s]).flatMap Step.issued = past.flatMap Step.issued ++ s.issued := by simp
  have hended : (past ++ [s]).flatMap Step.endings = past.flatMap Step.endings ++ s.endings := by
    simp
  have hcalls : s.post.calls = s.pre.calls ++ s.calls := hturn.calls hx
  have hnew : (((past ++ [s]).flatMap Step.issued).map Prod.fst).Nodup ∧
      ∀ x ∈ (past ++ [s]).flatMap Step.issued, x.1 < s.post.lkps.list.fresh := by
    have hfresh : (s.issued = [] ∧ s.post.lkps.list.fresh = s.pre.lkps.list.fresh) ∨
        ∃ l, s.issued = [(s.pre.lkps.list.fresh, l)] ∧
          s.post.lkps.list.fresh = s.pre.lkps.list.fresh + 1 := hturn.fresh
    rw [hissued]
    rcases hfresh with ⟨hnone, hfresh⟩ | ⟨l, hone, hfresh⟩
    · rw [hnone, hfresh, List.append_nil]
      exact ⟨h.ledger.keys, h.fresh⟩
    · rw [hone, hfresh, List.map_append, List.map_singleton]
      constructor
      · refine List.nodup_append.mpr ⟨h.ledger.keys, List.nodup_singleton _, ?_⟩
        intro a ha b hb
        obtain ⟨x, hx, rfl⟩ := List.mem_map.mp ha
        rw [List.mem_singleton.mp hb]
        exact Nat.ne_of_lt (h.fresh x hx)
      · intro x hx
        rcases List.mem_append.mp hx with hx | hx
        · exact Nat.lt_succ_of_lt (h.fresh x hx)
        · rw [List.mem_singleton.mp hx]
          exact Nat.lt_succ_self _
  refine ⟨(hd.moved h.inOrder).inOrder h.inOrder, ⟨xs', hx'⟩, ?_, hnew.2, ?_⟩
  · rw [hended, List.map_append, hissued]
    exact h.ledger.step (hturn.balance hx hx') (hissued ▸ hnew.1)
  · rw [hcalls, h.calls]
    simp

theorem mainInit_looking (conf : Conf) (udp : Udp) (time_now : ℤ) (urandom : ℕ → Option Id)
    (random : ℕ → ℕ) : Ensures (mainInit conf udp time_now urandom random) fun m =>
      Looking m [] ∧ m.calls = [] :=
  ensures_then fun _ => ensures_ok.mpr ⟨⟨registered_init 4096, by simp⟩, rfl⟩

theorem mainInit_accounted (conf : Conf) (udp : Udp) (time_now : ℤ) (urandom : ℕ → Option Id)
    (random : ℕ → ℕ) : Ensures (mainInit conf udp time_now urandom random) fun m =>
      Accounted m [] := by
  intro m hinit
  obtain ⟨hlook, hcalls⟩ := mainInit_looking conf udp time_now urandom random m hinit
  have hord := (mainInit_ensures conf udp time_now urandom random m hinit).2.1
  have hnone : searches m = [] := hlook.searches_eq
  refine ⟨hord, ⟨[], hlook⟩, ?_, by simp, hcalls⟩
  rw [hnone]
  exact ledger_nil

theorem Deeds.accounted {tr : List Step} (hrun : Deeds m tr m') (hm : Accounted m [])
    (hids : ∀ s ∈ tr, s.drawsUnused) : Accounted m' tr := by
  have h := hrun.history (fun s hs hd _ hpast => Accounted.step hpast hd (hids s hs)) hm
  rwa [List.nil_append] at h

end Books

/-! ## Answers -/

/-- The calls that were made for the lookup at an item. -/
def callsFor (tr : List Step) (p : Ptr) : List Call :=
  ((tr.flatMap Step.endings).filter fun e => e.item = p).filterMap Ending.call

/-- The lookup is in the list once, and it is found under its id. -/
structure Waits (m : Main) (p : Ptr) (l : Search) : Prop where
  once : (m.lkps.list.items.map Prod.fst).count p = 1
  item : ∃ it, m.lkps.list.item (some p) = .ok it ∧ it.val.search = l
  found : hashGet (m.lkps.list.look Lookup.key) m.lkps.hash l.lkp_id.bytes = .ok (some p)

/-- Neither the list nor the hash has the item. -/
structure Gone (m : Main) (p : Ptr) : Prop where
  list : p ∉ m.lkps.list.items.map Prod.fst
  hash : ∀ i, ∀ pair ∈ m.lkps.hash.buckets i, pair.value ≠ p

/-- The step calls back with an address that has arrived for the lookup, or with NULL after its
time. -/
def Step.answers (s : Step) (l : Search) (call : Call) : Prop :=
  (∃ node_id address, s.act = .lkpSuccess l.lkp_id node_id address ∧
    l.answer node_id (some address) = some call) ∨
  (s.act = .lkpExpire ∧ l.time_find < s.pre.p2p.time_now ∧ l.answer l.find_id none = some call)

section Answers
variable {m : Main} {s : Step} {past : List Step} {p : Ptr} {l : Search}

theorem Step.answers_of_mem {e : Ending} {call : Call} (he : e ∈ s.endings)
    (hcall : e.call = some call) : s.answers e.search call := by
  rw [Step.endings] at he
  split at he
  · rename_i lkp_id node_id address hact
    obtain ⟨x, hx, rfl⟩ := List.mem_map.mp he
    obtain rfl : x.2.lkp_id = lkp_id := of_decide_eq_true (List.mem_filter.mp hx).2
    exact .inl ⟨node_id, address, hact, hcall⟩
  · rename_i hact
    obtain ⟨x, hx, rfl⟩ := List.mem_map.mp he
    have hlate : x.2.timedOut s.pre.p2p.time_now = true := (List.mem_filter.mp hx).2
    exact .inr ⟨hact, of_decide_eq_true hlate, hcall⟩
  · cases he

/-- Only a lookup without a callback ends without a call. -/
theorem Step.callback_of_mem {e : Ending} (he : e ∈ s.endings) (hcall : e.call = none) :
    e.search.callback = none := by
  rw [Step.endings] at he
  split at he
  · obtain ⟨x, -, rfl⟩ := List.mem_map.mp he
    exact Option.map_eq_none_iff.mp hcall
  · obtain ⟨x, -, rfl⟩ := List.mem_map.mp he
    exact Option.map_eq_none_iff.mp hcall
  · cases he

theorem Accounted.waits (h : Accounted m past) (hp : (p, l) ∈ searches m) : Waits m p l := by
  obtain ⟨xs, hx⟩ := h.looking
  rw [hx.searches_eq] at hp
  obtain ⟨⟨q, r⟩, hmem, he⟩ := List.mem_map.mp hp
  obtain ⟨rfl, rfl⟩ := Prod.mk.inj he
  refine ⟨?_, ?_, hx.registered.get_present hmem⟩
  · rw [hx.items_eq]
    exact List.count_eq_one_of_mem hx.registered.list.nodup (List.mem_map_of_mem hmem)
  · obtain ⟨ys, zs, rfl⟩ := List.append_of_mem hmem
    exact ⟨_, hx.registered.list.item_eq, rfl⟩

theorem Accounted.gone (h : Accounted m past) (hp : p ∉ (searches m).map Prod.fst) : Gone m p := by
  obtain ⟨xs, hx⟩ := h.looking
  have hitems : (searches m).map Prod.fst = xs.map Prod.fst := by
    rw [hx.searches_eq, List.map_map]
    rfl
  rw [hitems] at hp
  refine ⟨by rwa [hx.items_eq], fun i pair hpair he => hp ?_⟩
  rw [hx.registered.hash.buckets] at hpair
  obtain ⟨x, hmem, rfl⟩ := List.mem_map.mp hpair
  exact he ▸ List.mem_map_of_mem (List.mem_of_mem_filter hmem)

/-- A lookup with a callback waits, or its callback has been called once. -/
theorem Accounted.answered (h : Accounted m past) (hp : (p, l) ∈ past.flatMap Step.issued)
    (hl : l.callback ≠ none) : (Waits m p l ∧ callsFor past p = []) ∨
      (Gone m p ∧ ∃ s ∈ past, ∃ call, s.answers l call ∧ callsFor past p = [call]) := by
  have hitems : ((past.flatMap Step.endings).map Ending.lookup).map Prod.fst =
      (past.flatMap Step.endings).map Ending.item := by
    rw [List.map_map]
    rfl
  rcases h.ledger.held_or_closed hp with ⟨hheld, hopen⟩ | ⟨hclosed, hgone⟩
  · refine .inl ⟨h.waits hheld, ?_⟩
    have hnone : (past.flatMap Step.endings).filter (fun e => e.item = p) = [] := by
      refine List.filter_eq_nil_iff.mpr fun e he hitem => hopen ?_
      rw [hitems]
      exact List.mem_map.mpr ⟨e, he, of_decide_eq_true hitem⟩
    rw [callsFor, hnone, List.filterMap_nil]
  · refine .inr ⟨h.gone hgone, ?_⟩
    obtain ⟨e, he, hlookup⟩ := List.mem_map.mp hclosed
    obtain ⟨rfl, rfl⟩ := Prod.mk.inj hlookup
    obtain ⟨s, hs, hes⟩ := List.mem_flatMap.mp he
    have hkeys := h.ledger.closed_keys
    rw [hitems] at hkeys
    have hone := filter_key_eq hkeys he
    cases hcall : e.call with
    | some call =>
      refine ⟨s, hs, call, s.answers_of_mem hes hcall, ?_⟩
      rw [callsFor, hone, List.filterMap_cons_some hcall, List.filterMap_nil]
    | none => exact absurd (Step.callback_of_mem hes hcall) hl

/-- `lkp_expire` leaves the lookups whose time has not passed. -/
theorem Accounted.expire_keeps (h : Accounted s.pre past) (hd : Deed s.pre s.act s.post)
    (hact : s.act = .lkpExpire) {x : Ptr × Lookup} (hx : x ∈ s.pre.lkps.list.items)
    (htime : s.pre.p2p.time_now ≤ x.2.time_find) : x ∈ s.post.lkps.list.items := by
  obtain ⟨xs, hlook⟩ := h.looking
  rw [hact] at hd
  cases hd with
  | lkpExpire hexp =>
    obtain ⟨lkps, heq, hreg, -⟩ := lkpExpire_eq hlook.registered
    rw [← Except.ok.inj (heq.symm.trans hexp)]
    rw [hlook.items_eq] at hx
    have hkept : x.2.search.timedOut s.pre.p2p.time_now = false :=
      decide_eq_false (Int.not_lt.mpr htime)
    dsimp only
    rw [hreg.items_eq, List.mem_filter, hkept]
    exact ⟨hx, rfl⟩

/-- Both functions that end lookups come back, whatever they delete on their way. -/
theorem Accounted.completes (h : Accounted m past) : (∃ m', lkpExpire m = .ok m') ∧
    ∀ lkp_id node_id address, ∃ m', lkpSuccess lkp_id node_id address m = .ok m' := by
  obtain ⟨xs, hx⟩ := h.looking
  constructor
  · obtain ⟨lkps, heq, -⟩ := lkpExpire_eq hx.registered
    exact ⟨_, heq⟩
  · intro lkp_id node_id address
    rcases lkpGet_cases hx.registered lkp_id with ⟨hget, -⟩ | ⟨ys, q, r, zs, rfl, rfl⟩
    · exact ⟨m, by rw [lkpSuccess, hget]; rfl⟩
    · obtain ⟨lkps, heq, -⟩ := lkpSuccess_eq hx.registered node_id address
      exact ⟨_, heq⟩

end Answers

/-- In every sequence of steps each lookup with a callback either waits, and no call has been made
for it, or it is gone, and one step has made the one call for it. All calls are accounted for, and
`lkp_expire` leaves the lookups whose time has not passed. -/
theorem lookup_answered_once (conf : Conf) (udp : Udp) (time_now : ℤ) (urandom : ℕ → Option Id)
    (random : ℕ → ℕ) (m₀ m : Main) (tr : List Step)
    (hinit : mainInit conf udp time_now urandom random = .ok m₀) (hrun : Deeds m₀ tr m)
    (hids : ∀ s ∈ tr, s.drawsUnused) :
    (∀ p l, (p, l) ∈ tr.flatMap Step.issued → l.callback ≠ none →
      (Waits m p l ∧ callsFor tr p = []) ∨
        (Gone m p ∧ ∃ s ∈ tr, ∃ call, s.answers l call ∧ callsFor tr p = [call])) ∧
    m.calls = tr.flatMap Step.calls ∧
    (∀ s ∈ tr, s.act = .lkpExpire → ∀ x ∈ s.pre.lkps.list.items,
      s.pre.p2p.time_now ≤ x.2.time_find → x ∈ s.post.lkps.list.items) ∧
    (∃ m', lkpExpire m = .ok m') ∧
    ∀ lkp_id node_id address, ∃ m', lkpSuccess lkp_id node_id address m = .ok m' := by
  have hstart := mainInit_accounted conf udp time_now urandom random m₀ hinit
  have hend := hrun.accounted hstart hids
  refine ⟨fun p l hp hl => hend.answered hp hl, hend.calls, fun s hs hact x hx htime => ?_,
    hend.completes⟩
  obtain ⟨past, rest, rfl, hpast, hd⟩ := hrun.before hs
  have hbefore := hpast.accounted hstart fun s hs => hids s (List.mem_append_left _ hs)
  exact hbefore.expire_keeps hd hact hx htime

/-- Two lookups in an empty table: an answer for the first, and no time left for the second. -/
theorem lookup_answered_once_two : ∃ m₀ m tr, Deeds m₀ tr m ∧
    m.calls = [⟨7, 70, headId 9, some (Octets.replicate 16 0xfe)⟩, ⟨8, 80, headId 4, none⟩] ∧
    m.calls = tr.flatMap Step.calls ∧
    Gone m 0 ∧ ∃ s ∈ tr, ∃ call, s.answers ⟨headId 3, headId 0, some 7, 70, 5⟩ call ∧
      callsFor tr 0 = [call] := by
  let l : Search := ⟨headId 3, headId 0, some 7, 70, 5⟩
  have hcalc : (do
      let m₀ ← mainInit ⟨headId 0xff, headId 0, none, none⟩ ⟨3, true⟩ 0
        (fun k => some (headId k.toUInt8)) fun _ => 0
      let m₁ ← lkpPut (headId 3) (some 7) 70 m₀
      let m₂ ← lkpPut (headId 4) (some 8) 80 m₁
      let m₃ ← lkpSuccess (headId 0) (headId 9) (Octets.replicate 16 0xfe) m₂
      let m₄ ← lkpExpire (m₃.tick 6)
      return ([searches m₀, Step.issued ⟨m₀, .lkpPut (headId 3) (some 7) 70, m₁⟩, searches m₁,
        searches m₄], [m₀.urandom m₀.reads, m₁.urandom m₁.reads], m₄.calls)) =
      .ok ([[], [(0, l)], [(0, l)], []], [some (headId 0), some (headId 1)],
        [⟨7, 70, headId 9, some (Octets.replicate 16 0xfe)⟩, ⟨8, 80, headId 4, none⟩]) := by
    decide +kernel
  obtain ⟨m₀, hinit, hcalc⟩ := exec_bind_eq_ok.mp hcalc
  obtain ⟨m₁, h₁, hcalc⟩ := exec_bind_eq_ok.mp hcalc
  obtain ⟨m₂, h₂, hcalc⟩ := exec_bind_eq_ok.mp hcalc
  obtain ⟨m₃, h₃, hcalc⟩ := exec_bind_eq_ok.mp hcalc
  obtain ⟨m₄, h₄, hcalc⟩ := exec_bind_eq_ok.mp hcalc
  simp only [exec_pure, Except.ok.injEq, Prod.mk.injEq, List.cons.injEq, and_true] at hcalc
  obtain ⟨⟨hs₀, hissued, hs₁, hs₄⟩, ⟨hr₀, hr₁⟩, hcalls⟩ := hcalc
  let tr : List Step := [⟨m₀, .lkpPut (headId 3) (some 7) 70, m₁⟩,
    ⟨m₁, .lkpPut (headId 4) (some 8) 80, m₂⟩,
    ⟨m₂, .lkpSuccess (headId 0) (headId 9) (Octets.replicate 16 0xfe), m₃⟩,
    ⟨m₃, .tick 6, m₃.tick 6⟩, ⟨m₃.tick 6, .lkpExpire, m₄⟩]
  have hrun : Deeds m₀ tr m₄ := .cons (.lkpPut h₁) <| .cons (.lkpPut h₂) <|
    .cons (.lkpSuccess h₃) <| .cons (.tick 6) <| .cons (.lkpExpire h₄) <| .nil m₄
  have hunused : ∀ m lkp_id, m.urandom m.reads = some lkp_id →
      (∀ y ∈ searches m, y.2.lkp_id ≠ lkp_id) → ∀ act m', Step.drawsUnused ⟨m, act, m'⟩ := by
    intro m lkp_id hread hne act m' find_id callback ctx id _ hid x hx
    obtain rfl := Option.some.inj (hread.symm.trans hid)
    exact hne (x.1, x.2.search) (List.mem_map.mpr ⟨x, hx, rfl⟩)
  have hids : ∀ s ∈ tr, s.drawsUnused := by
    intro s hs
    simp only [tr, List.mem_cons, List.not_mem_nil, or_false] at hs
    rcases hs with rfl | rfl | rfl | rfl | rfl
    · exact hunused m₀ _ hr₀ (by rw [hs₀]; decide) _ _
    · exact hunused m₁ _ hr₁ (by rw [hs₁]; decide) _ _
    · exact Step.drawsUnused_of_act (by intros; simp)
    · exact Step.drawsUnused_of_act (by intros; simp)
    · exact Step.drawsUnused_of_act (by intros; simp)
  obtain ⟨hone, hall, -⟩ := lookup_answered_once _ _ _ _ _ m₀ m₄ tr hinit hrun hids
  refine ⟨m₀, m₄, tr, hrun, hcalls, hall, ?_⟩
  have hmem : (0, l) ∈ tr.flatMap Step.issued := by
    refine List.mem_flatMap.mpr ⟨_, List.mem_cons_self, ?_⟩
    rw [hissued]
    exact List.mem_singleton.mpr rfl
  refine (hone 0 l hmem (by simp [l])).resolve_left fun hwait => ?_
  have hnone : m₄.lkps.list.items = [] := List.map_eq_nil_iff.mp hs₄
  have hcount := hwait.1.once
  rw [hnone] at hcount
  cases hcount

end Masala.Daemon
