import Masala.Session.Cache
import Masala.Library.Ensures

/-!
# Runs of the session cache

A run is any sequence of puts, validations and sweeps. What a history leaves
for one session id is a single entry, which `entryOf` computes from the events
alone; the cache holds exactly these entries.
-/
namespace Masala.Session
open Library Container Routing

inductive CacheEvent
  | put (now : ℤ) (session_id : Id) (type : ℤ)
  | validate (session_id : Id)
  | expire (now : ℤ)

def cacheStep (cache : ObjCache) : CacheEvent → Exec ObjCache
  | .put now session_id type => cachePut now cache session_id type
  | .validate session_id => do
    let (cache, _) ← cacheValidate cache session_id
    return cache
  | .expire now => cacheExpire now cache

def cacheRun (es : List CacheEvent) : Exec ObjCache := es.foldlM cacheStep cacheInit

/-! ## The abstract entry of one id -/

/-- What an event makes of the entry of `id`: the first put creates it, later puts are ignored. -/
def entryStep (id : Id) : Option ObjKey → CacheEvent → Option ObjKey
  | none, .put now s type => if s = id then some ⟨id, now + TIME_1_MINUTE, type⟩ else none
  | none, _ => none
  | some sk, .put .. => some sk
  | some sk, .validate s => if s = id ∧ sk.type = SEND_UNICAST then none else some sk
  | some sk, .expire now => if now > sk.time then none else some sk

def entryOf (es : List CacheEvent) (id : Id) : Option ObjKey := es.foldl (entryStep id) none

theorem entryOf_snoc (es : List CacheEvent) (e : CacheEvent) (id : Id) :
    entryOf (es ++ [e]) id = entryStep id (entryOf es id) e := by
  simp [entryOf]

/-- The events that end an entry: its consumption and the sweep after its time. -/
def Ends (sk : ObjKey) : CacheEvent → Prop
  | .put .. => False
  | .validate s => s = sk.session_id ∧ sk.type = SEND_UNICAST
  | .expire now => now > sk.time

theorem entryStep_of_not_ends {sk : ObjKey} {e : CacheEvent} (h : ¬ Ends sk e) :
    entryStep sk.session_id (some sk) e = some sk := by
  cases e with
  | put => rfl
  | validate s => exact if_neg h
  | expire now => exact if_neg h

theorem entryStep_of_ends {sk : ObjKey} {e : CacheEvent} (h : Ends sk e) :
    entryStep sk.session_id (some sk) e = none := by
  cases e with
  | put => exact h.elim
  | validate s => exact if_pos h
  | expire now => exact if_pos h

theorem entryStep_none_eq {id : Id} {e : CacheEvent} {sk : ObjKey} :
    entryStep id none e = some sk ↔
      ∃ now type, e = .put now id type ∧ sk = ⟨id, now + TIME_1_MINUTE, type⟩ := by
  cases e with
  | put now s type =>
    by_cases hs : s = id
    · simp [entryStep, hs, eq_comm]
    · simp [entryStep, hs]
  | validate s => simp [entryStep]
  | expire now => simp [entryStep]

/-- An entry is either created by the last event or was there and has not been ended by it. -/
theorem entryOf_snoc_eq_some {es : List CacheEvent} {e : CacheEvent} {id : Id} {sk : ObjKey}
    (ih : ∀ sk, entryOf es id = some sk → sk.session_id = id) :
    entryOf (es ++ [e]) id = some sk ↔
      (entryOf es id = none ∧ ∃ now type, e = .put now id type ∧
        sk = ⟨id, now + TIME_1_MINUTE, type⟩) ∨ (entryOf es id = some sk ∧ ¬ Ends sk e) := by
  rw [entryOf_snoc]
  cases hent : entryOf es id with
  | none => simp [entryStep_none_eq]
  | some sk₀ =>
    obtain rfl := ih sk₀ hent
    by_cases hend : Ends sk₀ e
    · simp only [entryStep_of_ends hend]
      refine ⟨fun h => (by cases h), ?_⟩
      rintro (⟨h, -⟩ | ⟨h, hn⟩)
      · cases h
      · exact absurd (Option.some.inj h ▸ hend) hn
    · simp only [entryStep_of_not_ends hend]
      constructor
      · intro h
        exact .inr ⟨h, Option.some.inj h ▸ hend⟩
      · rintro (⟨h, -⟩ | ⟨h, -⟩)
        · cases h
        · exact h

theorem entryOf_id {es : List CacheEvent} {id : Id} {sk : ObjKey} (h : entryOf es id = some sk) :
    sk.session_id = id := by
  induction es using List.reverseRecOn generalizing sk with
  | nil => cases h
  | append_singleton es e ih =>
    rcases (entryOf_snoc_eq_some fun _ => ih).mp h with ⟨-, now, type, -, rfl⟩ | ⟨h, -⟩
    · rfl
    · exact ih h

theorem entryOf_append_of_not_ends {pre post : List CacheEvent} {id : Id} {sk : ObjKey}
    (h : entryOf pre id = some sk) (hpost : ∀ e ∈ post, ¬ Ends sk e) :
    entryOf (pre ++ post) id = some sk := by
  induction post using List.reverseRecOn with
  | nil => rwa [List.append_nil]
  | append_singleton post e ih =>
    rw [← List.append_assoc, entryOf_snoc_eq_some fun _ => entryOf_id]
    exact .inr ⟨ih fun x hx => hpost x (by simp [hx]), hpost e (by simp)⟩

/-- An entry stems from the last put that found none, and nothing has ended it since. -/
theorem entryOf_eq_some_iff {es : List CacheEvent} {id : Id} {sk : ObjKey} :
    entryOf es id = some sk ↔ ∃ pre now type post, es = pre ++ .put now id type :: post ∧
      sk = ⟨id, now + TIME_1_MINUTE, type⟩ ∧ entryOf pre id = none ∧ ∀ e ∈ post, ¬ Ends sk e := by
  constructor
  · intro h
    induction es using List.reverseRecOn with
    | nil => cases h
    | append_singleton es e ih =>
      rcases (entryOf_snoc_eq_some fun _ => entryOf_id).mp h with
        ⟨hnone, now, type, rfl, rfl⟩ | ⟨h, hend⟩
      · exact ⟨es, now, type, [], rfl, rfl, hnone, by simp⟩
      · obtain ⟨pre, now, type, post, rfl, rfl, hnone, hpost⟩ := ih h
        refine ⟨pre, now, type, post ++ [e], by simp, rfl, hnone, ?_⟩
        intro x hx
        rcases List.mem_append.mp hx with hx | hx
        · exact hpost x hx
        · exact List.mem_singleton.mp hx ▸ hend
  · rintro ⟨pre, now, type, post, rfl, rfl, hnone, hpost⟩
    rw [List.append_cons]
    refine entryOf_append_of_not_ends ?_ hpost
    rw [entryOf_snoc, hnone, entryStep_none_eq]
    exact ⟨now, type, rfl, rfl⟩

/-- A consumed or swept entry only comes back through another put. -/
theorem exists_put_of_some {pre post : List CacheEvent} {id : Id} {sk : ObjKey}
    (hnone : entryOf pre id = none) (h : entryOf (pre ++ post) id = some sk) :
    ∃ now type, CacheEvent.put now id type ∈ post := by
  induction post using List.reverseRecOn generalizing sk with
  | nil =>
    rw [List.append_nil, hnone] at h
    cases h
  | append_singleton post e ih =>
    rw [← List.append_assoc, entryOf_snoc_eq_some fun _ => entryOf_id] at h
    rcases h with ⟨-, now, type, rfl, -⟩ | ⟨h, -⟩
    · exact ⟨now, type, by simp⟩
    · obtain ⟨now, type, hmem⟩ := ih h
      exact ⟨now, type, List.mem_append_left _ hmem⟩

/-! ## The cache holds the entries of its history -/

/-- The records of the cache are the entries that the history leaves. -/
def Remembers (es : List CacheEvent) (xs : List (Ptr × ObjKey)) : Prop :=
  ∀ sk, sk ∈ xs.map Prod.snd ↔ entryOf es sk.session_id = some sk

section Step
variable {es : List CacheEvent} {cache : ObjCache} {xs : List (Ptr × ObjKey)}

theorem Remembers.known (h : Remembers es xs) {id : Id} {sk : ObjKey}
    (hent : entryOf es id = some sk) :
    sk.session_id = id ∧ ∃ ys p zs, xs = ys ++ (p, sk) :: zs := by
  have hid := entryOf_id hent
  obtain ⟨⟨p, sk'⟩, hx, rfl⟩ := List.mem_map.mp ((h sk).mpr (hid ▸ hent))
  obtain ⟨ys, zs, hxs⟩ := List.append_of_mem hx
  exact ⟨hid, ys, p, zs, hxs⟩

theorem Remembers.unknown (h : Remembers es xs) {id : Id} (hent : entryOf es id = none) :
    ∀ x ∈ xs, x.2.session_id ≠ id := by
  rintro x hx rfl
  have hx' := (h x.2).mp (List.mem_map_of_mem hx)
  rw [hent] at hx'
  cases hx'

theorem Remembers.snoc (h : Remembers es xs) {ws : List (Ptr × ObjKey)} {e : CacheEvent}
    (hw : ∀ sk, sk ∈ ws.map Prod.snd ↔
      (entryOf es sk.session_id = none ∧ ∃ now type, e = .put now sk.session_id type ∧
        sk = ⟨sk.session_id, now + TIME_1_MINUTE, type⟩) ∨
      (sk ∈ xs.map Prod.snd ∧ ¬ Ends sk e)) : Remembers (es ++ [e]) ws := by
  intro sk
  rw [hw, entryOf_snoc_eq_some fun _ => entryOf_id, h]

theorem Cached.mem_erase {ys zs : List (Ptr × ObjKey)} {p : Ptr} {sk sk' : ObjKey}
    (h : Cached cache (ys ++ (p, sk) :: zs)) :
    sk' ∈ (ys ++ zs).map Prod.snd ↔ sk' ∈ (ys ++ (p, sk) :: zs).map Prod.snd ∧
      sk'.session_id ≠ sk.session_id := by
  obtain ⟨hy, hz⟩ := h.hash.key_ne
  have hne : ∀ x ∈ ys ++ zs, x.2.session_id ≠ sk.session_id := by
    intro x hx he
    have hkey : x.2.key = sk.key := congrArg Octets.bytes he
    rcases List.mem_append.mp hx with hx | hx
    · exact hy x hx hkey
    · exact hz x hx hkey
  constructor
  · intro hmem
    obtain ⟨x, hx, rfl⟩ := List.mem_map.mp hmem
    refine ⟨List.mem_map_of_mem ?_, hne x hx⟩
    rw [List.mem_append, List.mem_cons]
    exact (List.mem_append.mp hx).imp_right .inr
  · rintro ⟨hmem, hid⟩
    obtain ⟨x, hx, rfl⟩ := List.mem_map.mp hmem
    refine List.mem_map_of_mem ?_
    rw [List.mem_append, List.mem_cons] at hx
    rcases hx with hx | rfl | hx
    · exact List.mem_append_left _ hx
    · exact absurd rfl hid
    · exact List.mem_append_right _ hx

/-- Put: a known id changes nothing, a new one gets its record. -/
theorem cachePut_remembers (h : Cached cache xs) (hr : Remembers es xs) (now : ℤ) (id : Id)
    (type : ℤ) : ∃ cache' ws, cachePut now cache id type = .ok cache' ∧ Cached cache' ws ∧
      Remembers (es ++ [.put now id type]) ws := by
  cases hent : entryOf es id with
  | some sk =>
    obtain ⟨rfl, ys, p, zs, rfl⟩ := hr.known hent
    refine ⟨cache, _, cachePut_known now type h, h, hr.snoc fun sk' => ?_⟩
    constructor
    · intro hmem
      exact .inr ⟨hmem, id⟩
    · rintro (⟨hnone, now', type', he, -⟩ | ⟨hmem, -⟩)
      · injection he with _ hid
        rw [← hid, hent] at hnone
        cases hnone
      · exact hmem
  | none =>
    obtain ⟨cache', hput, h'⟩ := cachePut_new now type h (hr.unknown hent)
    refine ⟨cache', _, hput, h', hr.snoc fun sk' => ?_⟩
    rw [List.map_append, List.mem_append, List.map_singleton, List.mem_singleton]
    constructor
    · rintro (hmem | rfl)
      · exact .inr ⟨hmem, fun hend => hend⟩
      · exact .inl ⟨hent, now, type, rfl, rfl⟩
    · rintro (⟨-, now', type', he, hsk⟩ | ⟨hmem, -⟩)
      · injection he with hnow hid htype
        rw [hsk, ← hnow, ← hid, ← htype]
        exact .inr rfl
      · exact .inl hmem

/-- Validation: accepted exactly for an entry of the history, which ends if it is unicast. -/
theorem cacheValidate_remembers (h : Cached cache xs) (hr : Remembers es xs) (id : Id) :
    ∃ cache' ws, cacheValidate cache id = .ok (cache', (entryOf es id).isSome) ∧
      Cached cache' ws ∧ Remembers (es ++ [.validate id]) ws := by
  cases hent : entryOf es id with
  | none =>
    refine ⟨cache, xs, cacheValidate_unknown h (hr.unknown hent), h, hr.snoc fun sk' => ?_⟩
    constructor
    · intro hmem
      refine .inr ⟨hmem, fun hend => ?_⟩
      have hsk := (hr sk').mp hmem
      rw [← hend.1, hent] at hsk
      cases hsk
    · rintro (⟨-, now, type, he, -⟩ | ⟨hmem, -⟩)
      · cases he
      · exact hmem
  | some sk =>
    obtain ⟨rfl, ys, p, zs, rfl⟩ := hr.known hent
    by_cases ht : sk.type = SEND_UNICAST
    · obtain ⟨cache', hval, h'⟩ := cacheValidate_unicast h ht
      refine ⟨cache', _, hval, h', hr.snoc fun sk' => ?_⟩
      rw [h.mem_erase]
      constructor
      · rintro ⟨hmem, hid⟩
        exact .inr ⟨hmem, fun hend => hid hend.1.symm⟩
      · rintro (⟨-, now, type, he, -⟩ | ⟨hmem, hend⟩)
        · cases he
        · refine ⟨hmem, fun hid => hend ?_⟩
          have hsk := (hr sk').mp hmem
          rw [hid, hent] at hsk
          obtain rfl := Option.some.inj hsk
          exact ⟨rfl, ht⟩
    · refine ⟨cache, _, cacheValidate_multicast h ht, h, hr.snoc fun sk' => ?_⟩
      constructor
      · intro hmem
        refine .inr ⟨hmem, fun hend => ht ?_⟩
        have hsk := (hr sk').mp hmem
        rw [← hend.1, hent] at hsk
        rw [Option.some.inj hsk]
        exact hend.2
      · rintro (⟨-, now, type, he, -⟩ | ⟨hmem, -⟩)
        · cases he
        · exact hmem

/-- The sweep keeps the records whose time has not passed. -/
theorem cacheExpire_remembers (h : Cached cache xs) (hr : Remembers es xs) (now : ℤ) :
    ∃ cache' ws, cacheExpire now cache = .ok cache' ∧ Cached cache' ws ∧
      Remembers (es ++ [.expire now]) ws := by
  obtain ⟨cache', hexp, h'⟩ := cacheExpire_records now h
  refine ⟨cache', _, hexp, h', hr.snoc fun sk' => ?_⟩
  simp only [List.mem_map, List.mem_filter, decide_eq_true_eq]
  constructor
  · rintro ⟨x, ⟨hx, ht⟩, rfl⟩
    exact .inr ⟨⟨x, hx, rfl⟩, ht⟩
  · rintro (⟨-, now', type, he, -⟩ | ⟨⟨x, hx, rfl⟩, hend⟩)
    · cases he
    · exact ⟨x, ⟨hx, hend⟩, rfl⟩

theorem cacheStep_remembers (h : Cached cache xs) (hr : Remembers es xs) (e : CacheEvent) :
    ∃ cache' ws, cacheStep cache e = .ok cache' ∧ Cached cache' ws ∧ Remembers (es ++ [e]) ws := by
  cases e with
  | put now id type => exact cachePut_remembers h hr now id type
  | validate id =>
    obtain ⟨cache', ws, hval, h'⟩ := cacheValidate_remembers h hr id
    exact ⟨cache', ws, by rw [cacheStep, hval]; rfl, h'⟩
  | expire now => exact cacheExpire_remembers h hr now

end Step

/-- No run faults, and after it list and hash hold exactly the entries of the history. -/
theorem cacheRun_remembers (es : List CacheEvent) :
    ∃ cache xs, cacheRun es = .ok cache ∧ Cached cache xs ∧ Remembers es xs := by
  have hinit : ∃ xs, Cached cacheInit xs ∧ Remembers [] xs :=
    ⟨[], registered_init 100, fun sk => by simp [entryOf]⟩
  have hstep : ∀ es e cache, (∃ xs, Cached cache xs ∧ Remembers es xs) →
      ∃ cache', cacheStep cache e = .ok cache' ∧
        ∃ xs, Cached cache' xs ∧ Remembers (es ++ [e]) xs := by
    rintro es e cache ⟨xs, h, hr⟩
    obtain ⟨cache', ws, hstep, h', hr'⟩ := cacheStep_remembers h hr e
    exact ⟨cache', hstep, ws, h', hr'⟩
  obtain ⟨cache, hrun, xs, h, hr⟩ := foldlM_total hstep hinit es
  exact ⟨cache, xs, hrun, h, hr⟩

end Masala.Session
