import Masala.Container.Registry
import Masala.Routing.Identifier

/-!
# The session cache

The functions of `cache.c`. The clock `_main->p2p->time_now.tv_sec` is an
argument. The load through a NULL pointer in the initialiser of `cache_del` is
dead and left out; `Session.Expire` executes it.
-/
namespace Masala.Session
open Library Container Routing

def SEND_UNICAST : ℤ := 0
def SEND_MULTICAST : ℤ := 1
def TIME_1_MINUTE : ℤ := 60

structure ObjKey where
  session_id : Id
  time : ℤ
  type : ℤ
deriving DecidableEq

def ObjKey.key (sk : ObjKey) : Bytes := sk.session_id.bytes

abbrev ObjCache := Registry ObjKey

def cacheInit : ObjCache := ⟨listInit, hashInit 100⟩

def cachePut (now : ℤ) (cache : ObjCache) (session_id : Id) (type : ℤ) : Exec ObjCache := do
  if ← hashExists (cache.list.look ObjKey.key) cache.hash session_id.bytes then return cache
  else
    let sk : ObjKey := ⟨session_id, now + TIME_1_MINUTE, type⟩
    let (list, item_sk) ← listPut cache.list sk
    let hash ← hashPut (list.look ObjKey.key) cache.hash item_sk SHA_DIGEST_LENGTH item_sk
    return ⟨list, hash⟩

def cacheDel (cache : ObjCache) (session_id : Id) : Exec ObjCache := do
  match ← hashGet (cache.list.look ObjKey.key) cache.hash session_id.bytes with
  | none => return cache
  | some item_sk =>
    let hash ← hashDel (cache.list.look ObjKey.key) cache.hash session_id.bytes
    let (list, _) ← listDel cache.list (some item_sk)
    return ⟨list, hash⟩

/-- The `while( item_sk )` of `cache_expire`. -/
def cacheExpireLoop (now : ℤ) : ℕ → Option Ptr → ObjCache → Exec ObjCache
  | _, none, cache => .ok cache
  | 0, some _, _ => .error .fuel
  | fuel + 1, some item_sk, cache => do
    let it ← cache.list.item (some item_sk)
    let next_sk ← listNext cache.list (some item_sk)
    let cache ← if now > it.val.time then cacheDel cache it.val.session_id else pure cache
    cacheExpireLoop now fuel next_sk cache

/-- `cache_expire`. The loop visits no item twice, so the number of items is fuel enough. -/
def cacheExpire (now : ℤ) (cache : ObjCache) : Exec ObjCache :=
  cacheExpireLoop now cache.list.counter cache.list.start cache

def cacheValidate (cache : ObjCache) (session_id : Id) : Exec (ObjCache × Bool) := do
  match ← hashGet (cache.list.look ObjKey.key) cache.hash session_id.bytes with
  | none => return (cache, false)
  | some item_sk =>
    let it ← cache.list.item (some item_sk)
    if it.val.type = SEND_UNICAST then
      let cache ← cacheDel cache session_id
      return (cache, true)
    else return (cache, true)

/-! ## What each function does to the records -/

section Records
variable {cache : ObjCache} {xs ys zs : List (Ptr × ObjKey)} {p : Ptr} {sk : ObjKey}

abbrev Cached (cache : ObjCache) (xs : List (Ptr × ObjKey)) : Prop :=
  Registered ObjKey.key cache xs

theorem key_ne {sk : ObjKey} {id : Id} (h : sk.session_id ≠ id) : sk.key ≠ id.bytes :=
  fun he => h (Octets.bytes_injective.mp he)

theorem Cached.get_absent (h : Cached cache xs) {id : Id}
    (hne : ∀ x ∈ xs, x.2.session_id ≠ id) :
    hashGet (cache.list.look ObjKey.key) cache.hash id.bytes = .ok none :=
  Registered.get_absent h fun x hx => key_ne (hne x hx)

theorem Cached.get_present (h : Cached cache (ys ++ (p, sk) :: zs)) :
    hashGet (cache.list.look ObjKey.key) cache.hash sk.session_id.bytes = .ok (some p) :=
  Registered.get_present h (x := (p, sk)) (by simp)

theorem cachePut_known (now : ℤ) (type : ℤ) (h : Cached cache (ys ++ (p, sk) :: zs)) :
    cachePut now cache sk.session_id type = .ok cache := by
  simp [cachePut, hashExists, h.get_present]

theorem cachePut_new (now : ℤ) (type : ℤ) (h : Cached cache xs) {id : Id}
    (hne : ∀ x ∈ xs, x.2.session_id ≠ id) :
    ∃ cache', cachePut now cache id type = .ok cache' ∧
      Cached cache' (xs ++ [(cache.list.fresh, ⟨id, now + TIME_1_MINUTE, type⟩)]) := by
  obtain ⟨l', map', hl, hm, hreg⟩ := h.put (v := ⟨id, now + TIME_1_MINUTE, type⟩)
    fun x hx => key_ne (hne x hx)
  refine ⟨⟨l', map'⟩, ?_, hreg⟩
  have hsize : (ObjKey.key ⟨id, now + TIME_1_MINUTE, type⟩).length = SHA_DIGEST_LENGTH := id.size_eq
  rw [hsize] at hm
  simp [cachePut, hashExists, h.get_absent hne, hl, hm]

theorem cacheDel_known (h : Cached cache (ys ++ (p, sk) :: zs)) :
    ∃ cache', cacheDel cache sk.session_id = .ok cache' ∧ Cached cache' (ys ++ zs) := by
  obtain ⟨l', map', hm, hl, hreg⟩ := h.del
  refine ⟨⟨l', map'⟩, ?_, hreg⟩
  have hm' : hashDel (cache.list.look ObjKey.key) cache.hash sk.session_id.bytes = .ok map' := hm
  simp [cacheDel, h.get_present, hm', hl]

theorem cacheValidate_unknown (h : Cached cache xs) {id : Id}
    (hne : ∀ x ∈ xs, x.2.session_id ≠ id) : cacheValidate cache id = .ok (cache, false) := by
  simp [cacheValidate, h.get_absent hne]

/-- A unicast record is consumed by its first accepting validation. -/
theorem cacheValidate_unicast (h : Cached cache (ys ++ (p, sk) :: zs))
    (ht : sk.type = SEND_UNICAST) :
    ∃ cache', cacheValidate cache sk.session_id = .ok (cache', true) ∧
      Cached cache' (ys ++ zs) := by
  obtain ⟨cache', hdel, h'⟩ := cacheDel_known h
  refine ⟨cache', ?_, h'⟩
  simp [cacheValidate, h.get_present, h.list.item_eq, ht, hdel]

theorem cacheValidate_multicast (h : Cached cache (ys ++ (p, sk) :: zs))
    (ht : sk.type ≠ SEND_UNICAST) : cacheValidate cache sk.session_id = .ok (cache, true) := by
  simp [cacheValidate, h.get_present, h.list.item_eq, ht]

/-- The rest of the sweep, when `ys` are the records it has passed and kept. -/
theorem cacheExpireLoop_records (now : ℤ) (fuel : ℕ) (h : Cached cache (ys ++ zs))
    (hf : zs.length ≤ fuel) :
    ∃ cache', cacheExpireLoop now fuel (firstPtr zs none) cache = .ok cache' ∧
      Cached cache' (ys ++ zs.filter fun x => ¬ now > x.2.time) := by
  induction zs generalizing cache ys fuel with
  | nil => exact ⟨cache, by cases fuel <;> rfl, h⟩
  | cons x zs ih =>
    obtain ⟨p, sk⟩ := x
    cases fuel with
    | zero => simp at hf
    | succ fuel =>
      have hf' : zs.length ≤ fuel := Nat.le_of_succ_le_succ hf
      by_cases ht : now > sk.time
      · obtain ⟨cache₁, hdel, h₁⟩ := cacheDel_known h
        obtain ⟨cache₂, hloop, h₂⟩ := ih fuel h₁ hf'
        refine ⟨cache₂, ?_, ?_⟩
        · simp [cacheExpireLoop, h.list.item_eq, h.list.next_eq, ht, hdel, hloop]
        · simpa [ht] using h₂
      · have hsnoc : Cached cache ((ys ++ [(p, sk)]) ++ zs) := by simpa using h
        obtain ⟨cache₂, hloop, h₂⟩ := ih fuel hsnoc hf'
        refine ⟨cache₂, ?_, ?_⟩
        · simp [cacheExpireLoop, h.list.item_eq, h.list.next_eq, ht, hloop]
        · rw [List.filter_cons_of_pos (by simpa using ht)]
          simpa using h₂

theorem cacheExpire_records (now : ℤ) (h : Cached cache xs) :
    ∃ cache', cacheExpire now cache = .ok cache' ∧
      Cached cache' (xs.filter fun x => ¬ now > x.2.time) := by
  have hc : xs.length ≤ cache.list.counter := Nat.le_of_eq h.list.counter.symm
  have hnil : Cached cache ([] ++ xs) := h
  obtain ⟨cache', hloop, h'⟩ := cacheExpireLoop_records now _ hnil hc
  exact ⟨cache', by rw [cacheExpire, h.list.start, hloop], h'⟩

end Records
end Masala.Session
