import Masala.Session.Run

/-!
# Replay protection

What the guards of the reply handlers may rely on: a session id is accepted
from its put on until it is consumed or swept, a unicast id only once.
-/
namespace Masala.Session
open Library Container Routing

/-- A validation of `id` right after the history `es` is accepted. -/
def Accepts (es : List CacheEvent) (id : Id) : Prop :=
  ∃ cache cache', cacheRun es = .ok cache ∧ cacheValidate cache id = .ok (cache', true)

/-- The cache holds the record `sk` after the history `es`. -/
def Stored (es : List CacheEvent) (sk : ObjKey) : Prop :=
  ∃ cache xs, cacheRun es = .ok cache ∧ Cached cache xs ∧ sk ∈ xs.map Prod.snd

theorem stored_iff {es : List CacheEvent} {sk : ObjKey} :
    Stored es sk ↔ entryOf es sk.session_id = some sk := by
  obtain ⟨cache, xs, hrun, h, hr⟩ := cacheRun_remembers es
  constructor
  · rintro ⟨cache', ws, hrun', h', hmem⟩
    rw [hrun] at hrun'
    obtain rfl := Except.ok.inj hrun'
    obtain rfl := h.list.toLinked.unique h'.list.toLinked
    exact (hr sk).mp hmem
  · intro hent
    exact ⟨cache, xs, hrun, h, (hr sk).mpr hent⟩

theorem accepts_iff {es : List CacheEvent} {id : Id} :
    Accepts es id ↔ ∃ sk, entryOf es id = some sk := by
  obtain ⟨cache, xs, hrun, h, hr⟩ := cacheRun_remembers es
  obtain ⟨cache', ws, hval, -⟩ := cacheValidate_remembers h hr id
  constructor
  · rintro ⟨cache₁, cache₂, hrun', hacc⟩
    rw [hrun] at hrun'
    obtain rfl := Except.ok.inj hrun'
    rw [hval] at hacc
    injection hacc with hacc
    injection hacc with _ hsome
    exact Option.isSome_iff_exists.mp hsome
  · intro hent
    rw [Option.isSome_iff_exists.mpr hent] at hval
    exact ⟨cache, cache', hrun, hval⟩

/-- New sessions leave the others as they are. -/
theorem accepts_puts {es puts : List CacheEvent} {id : Id} (h : Accepts es id)
    (hputs : ∀ e ∈ puts, ∃ now s type, e = .put now s type) : Accepts (es ++ puts) id := by
  obtain ⟨sk, hent⟩ := accepts_iff.mp h
  refine accepts_iff.mpr ⟨sk, entryOf_append_of_not_ends hent fun e he hend => ?_⟩
  obtain ⟨now, s, type, rfl⟩ := hputs e he
  exact hend

/-- The guarantees of the cache after the history `es`. -/
structure ReplayProtected (es : List CacheEvent) : Prop where
  /-- No call faults; list and hash hold the same ids, each once. -/
  consistent : ∃ cache xs, cacheRun es = .ok cache ∧ Cached cache xs
  /-- Every validation returns. -/
  decides : ∀ id, ∃ cache cache' accepted, cacheRun es = .ok cache ∧
    cacheValidate cache id = .ok (cache', accepted)
  /-- Accepted are the ids that were put and since then neither consumed nor swept. -/
  accepts : ∀ id, Accepts es id ↔ ∃ pre now type post, es = pre ++ .put now id type :: post ∧
    ¬ Accepts pre id ∧ ∀ e ∈ post, ¬ Ends ⟨id, now + TIME_1_MINUTE, type⟩ e
  /-- After an accepted unicast validation only a new put makes the id acceptable again. -/
  unicast : ∀ pre post sk, es = pre ++ .validate sk.session_id :: post → Stored pre sk →
    sk.type = SEND_UNICAST → Accepts es sk.session_id →
      ∃ now type, CacheEvent.put now sk.session_id type ∈ post
  /-- A multicast entry is accepted until a sweep after its time. -/
  multicast : ∀ pre post sk, es = pre ++ post → Stored pre sk → sk.type = SEND_MULTICAST →
    (∀ now, CacheEvent.expire now ∈ post → now ≤ sk.time) → Accepts es sk.session_id
  /-- A sweep leaves every entry whose time has not passed. -/
  unexpired : ∀ sk now, Stored es sk → now ≤ sk.time → Stored (es ++ [.expire now]) sk

/-- The session cache protects every run against replayed replies. -/
theorem cache_replayProtected (es : List CacheEvent) : ReplayProtected es where
  consistent := by
    obtain ⟨cache, xs, hrun, h, -⟩ := cacheRun_remembers es
    exact ⟨cache, xs, hrun, h⟩
  decides := by
    intro id
    obtain ⟨cache, xs, hrun, h, hr⟩ := cacheRun_remembers es
    obtain ⟨cache', ws, hval, -⟩ := cacheValidate_remembers h hr id
    exact ⟨cache, cache', _, hrun, hval⟩
  accepts := by
    intro id
    rw [accepts_iff]
    constructor
    · rintro ⟨sk, hent⟩
      obtain ⟨pre, now, type, post, rfl, rfl, hnone, hpost⟩ := entryOf_eq_some_iff.mp hent
      refine ⟨pre, now, type, post, rfl, ?_, hpost⟩
      rw [accepts_iff, hnone]
      rintro ⟨sk, h⟩
      cases h
    · rintro ⟨pre, now, type, post, rfl, hno, hpost⟩
      refine ⟨_, entryOf_eq_some_iff.mpr ⟨pre, now, type, post, rfl, rfl, ?_, hpost⟩⟩
      cases hent : entryOf pre id with
      | none => rfl
      | some sk => exact absurd (accepts_iff.mpr ⟨sk, hent⟩) hno
  unicast := by
    intro pre post sk hes hstored htype hacc
    have hend : Ends sk (.validate sk.session_id) := ⟨rfl, htype⟩
    have hnone : entryOf (pre ++ [.validate sk.session_id]) sk.session_id = none := by
      rw [entryOf_snoc, stored_iff.mp hstored, entryStep_of_ends hend]
    obtain ⟨sk', hent⟩ := accepts_iff.mp hacc
    rw [hes, List.append_cons] at hent
    exact exists_put_of_some hnone hent
  multicast := by
    intro pre post sk hes hstored htype hpost
    refine accepts_iff.mpr ⟨sk, hes ▸ entryOf_append_of_not_ends (stored_iff.mp hstored) ?_⟩
    intro e he hend
    cases e with
    | put => exact hend
    | validate s =>
      rw [hend.2] at htype
      cases htype
    | expire now => exact Int.not_lt.mpr (hpost now he) hend
  unexpired := by
    intro sk now hstored ht
    refine stored_iff.mpr (entryOf_append_of_not_ends (stored_iff.mp hstored) ?_)
    intro e he hend
    rw [List.mem_singleton.mp he] at hend
    exact Int.not_lt.mpr ht hend

end Masala.Session
