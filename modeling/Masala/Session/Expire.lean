import Masala.Session.Run

/-!
# The sweep of the session cache

`cache_expire` hands `cache_del` a pointer into the record that it deletes, and
`cache_del` begins with a load through its `item_sk`, which is still NULL. Here
the key is a pointer that is read again for every use, and the load is executed
unless the compiler has dropped it as dead.
-/
namespace Masala.Session
open Library Container Routing

/-- `cache_del` with the session id behind a pointer into a record. -/
def cacheDelAt (dead : Bool) (cache : ObjCache) (session_id : Ptr) : Exec ObjCache := do
  -- struct obj_key *sk = item_sk->val
  let _ ← if dead then pure none else some <$> cache.list.item none
  let key ← cache.list.look ObjKey.key session_id
  match ← hashGet (cache.list.look ObjKey.key) cache.hash key with
  | none => return cache
  | some item_sk =>
    let key ← cache.list.look ObjKey.key session_id
    let hash ← hashDel (cache.list.look ObjKey.key) cache.hash key
    let (list, _) ← listDel cache.list (some item_sk)
    return ⟨list, hash⟩

def cacheExpireLoopAt (dead : Bool) (now : ℤ) : ℕ → Option Ptr → ObjCache → Exec ObjCache
  | _, none, cache => .ok cache
  | 0, some _, _ => .error .fuel
  | fuel + 1, some item_sk, cache => do
    let it ← cache.list.item (some item_sk)
    let next_sk ← listNext cache.list (some item_sk)
    let cache ← if now > it.val.time then cacheDelAt dead cache item_sk else pure cache
    cacheExpireLoopAt dead now fuel next_sk cache

def cacheExpireAt (dead : Bool) (now : ℤ) (cache : ObjCache) : Exec ObjCache :=
  cacheExpireLoopAt dead now cache.list.counter cache.list.start cache

/-- List and hash hold the entries whose time has not passed, in their former order. -/
structure Swept (now : ℤ) (cache cache' : ObjCache) : Prop where
  items : cache'.list.items = cache.list.items.filter fun x => now ≤ x.2.time
  cached : Cached cache' cache'.list.items

/-! ## Without the load -/

section Dead
variable {cache : ObjCache} {now : ℤ}

theorem cacheDelAt_dead {p : Ptr} {it : ObjItem ObjKey} (h : cache.list.item (some p) = .ok it) :
    cacheDelAt true cache p = cacheDel cache it.val.session_id := by
  have hlook : cache.list.look ObjKey.key p = .ok it.val.session_id.bytes := by
    rw [ObjList.look, h]
    rfl
  rw [cacheDelAt, hlook]
  rfl

theorem cacheExpireLoopAt_dead (fuel : ℕ) (p : Option Ptr) :
    cacheExpireLoopAt true now fuel p cache = cacheExpireLoop now fuel p cache := by
  induction fuel generalizing p cache with
  | zero => cases p <;> rfl
  | succ fuel ih =>
    cases p with
    | none => rfl
    | some p =>
      rw [cacheExpireLoopAt, cacheExpireLoop]
      cases hitem : cache.list.item (some p) with
      | error e => rfl
      | ok it =>
        rw [exec_ok_bind, exec_ok_bind, cacheDelAt_dead hitem]
        simp only [ih]

theorem cacheExpireAt_dead : cacheExpireAt true now cache = cacheExpire now cache :=
  cacheExpireLoopAt_dead _ _

end Dead

/-! ## With the load -/

section Load
variable {cache : ObjCache} {now : ℤ} {xs ys zs : List (Ptr × ObjKey)}

theorem cacheDelAt_load (p : Ptr) : cacheDelAt false cache p = .error .null := rfl

/-- Until the first deletion the sweep changes nothing. -/
theorem cacheExpireLoopAt_load (fuel : ℕ) (h : Cached cache (ys ++ zs)) (hf : zs.length ≤ fuel) :
    cacheExpireLoopAt false now fuel (firstPtr zs none) cache =
      if ∀ x ∈ zs, now ≤ x.2.time then .ok cache else .error .null := by
  induction zs generalizing ys fuel with
  | nil => cases fuel <;> simp [cacheExpireLoopAt]
  | cons x zs ih =>
    obtain ⟨p, sk⟩ := x
    obtain ⟨fuel, rfl⟩ := Nat.exists_eq_add_one_of_ne_zero (Nat.ne_zero_of_lt hf)
    rw [firstPtr_cons, cacheExpireLoopAt, h.list.item_eq, exec_ok_bind, h.list.next_eq,
      exec_ok_bind]
    by_cases ht : now > sk.time
    · have hno : ¬ ∀ x ∈ (p, sk) :: zs, now ≤ x.2.time := fun hall =>
        Int.not_le.mpr ht (hall (p, sk) List.mem_cons_self)
      rw [if_pos ht, cacheDelAt_load, exec_error_bind, if_neg hno]
    · have hsnoc : Cached cache ((ys ++ [(p, sk)]) ++ zs) := by simpa using h
      rw [if_neg ht, exec_pure, exec_ok_bind]
      dsimp only
      rw [ih fuel hsnoc (Nat.le_of_succ_le_succ hf)]
      refine if_congr (Iff.symm ?_) rfl rfl
      rw [List.forall_mem_cons]
      exact and_iff_right (Int.not_lt.mp ht)

theorem cacheExpireAt_load (h : Cached cache xs) : cacheExpireAt false now cache =
    if ∀ x ∈ xs, now ≤ x.2.time then .ok cache else .error .null := by
  rw [cacheExpireAt, h.list.start, h.list.counter]
  have hall : Cached cache ([] ++ xs) := h
  exact cacheExpireLoopAt_load xs.length hall (Nat.le_refl _)

end Load

/-- With the load the sweep of a reachable cache ends exactly if no entry's time has passed, and
without it the sweep always does what it should. -/
theorem cacheExpire_swept_iff (es : List CacheEvent) (cache : ObjCache)
    (hrun : cacheRun es = .ok cache) (now : ℤ) :
    ((∃ cache', cacheExpireAt false now cache = .ok cache' ∧ Swept now cache cache') ↔
      ∀ x ∈ cache.list.items, now ≤ x.2.time) ∧
    ∃ cache', cacheExpireAt true now cache = .ok cache' ∧ Swept now cache cache' := by
  obtain ⟨cache₁, xs, hrun₁, h, -⟩ := cacheRun_remembers es
  obtain rfl := Except.ok.inj (hrun₁.symm.trans hrun)
  have hitems := h.items_eq
  refine ⟨⟨?_, fun hall => ?_⟩, ?_⟩
  · rintro ⟨cache', hexpire, -⟩
    rw [cacheExpireAt_load h] at hexpire
    rw [hitems]
    by_contra hno
    rw [if_neg hno] at hexpire
    cases hexpire
  · refine ⟨cache₁, ?_, ?_, ?_⟩
    · rw [cacheExpireAt_load h, if_pos (hitems ▸ hall)]
    · rw [eq_comm, List.filter_eq_self]
      simpa using hall
    · rwa [hitems]
  · obtain ⟨cache', hexpire, h'⟩ := cacheExpire_records now h
    refine ⟨cache', cacheExpireAt_dead.trans hexpire, ?_, ?_⟩
    · rw [h'.items_eq, hitems]
      simp
    · rwa [h'.items_eq]

/-- A sweep before the time of the only entry. -/
theorem cacheExpire_swept_iff_early : ∃ cache cache', cacheRun [.put 0 (headId 1) 0] = .ok cache ∧
    cacheExpireAt false 60 cache = .ok cache' ∧ Swept 60 cache cache' := by
  have hcalc : (cacheRun [.put 0 (headId 1) 0]).map (fun cache =>
      cache.list.items.map fun x => x.2.time) = .ok [60] := by
    rfl
  obtain ⟨cache, xs, hrun, -⟩ := cacheRun_remembers [.put 0 (headId 1) 0]
  rw [hrun] at hcalc
  have hone : (cache.list.items.map fun x => x.2.time) = [60] := Except.ok.inj hcalc
  have htimes : ∀ x ∈ cache.list.items, 60 ≤ x.2.time := by
    intro x hx
    have hmem : x.2.time ∈ cache.list.items.map fun x => x.2.time := List.mem_map_of_mem hx
    rw [hone, List.mem_singleton] at hmem
    exact hmem.ge
  obtain ⟨cache', hexpire, hswept⟩ := (cacheExpire_swept_iff _ cache hrun 60).1.mpr htimes
  exact ⟨cache, cache', hrun, hexpire, hswept⟩

/-- With one entry whose time has passed, the load follows NULL. -/
theorem cacheExpire_null : ¬ ∀ es cache, cacheRun es = .ok cache → ∀ now,
    ∃ cache', cacheExpireAt false now cache = .ok cache' ∧ Swept now cache cache' := by
  intro hall
  obtain ⟨cache, xs, hrun, -⟩ := cacheRun_remembers [.put 0 (headId 1) 0]
  obtain ⟨cache', hexpire, -⟩ := hall _ cache hrun 61
  have hnull : (cacheRun [.put 0 (headId 1) 0] >>= fun cache => cacheExpireAt false 61 cache) =
      .error .null := by
    rfl
  rw [hrun, exec_ok_bind, hexpire] at hnull
  cases hnull

end Masala.Session
