import Masala.Library.Exec
import Mathlib.Logic.Function.Basic
import Mathlib.Data.List.Basic

/-!
# The chained hash table

The map of `hash.c`. A pair does not own its key: it holds a pointer into the
record it belongs to, and `look` gives the bytes behind such a pointer at the
moment it is compared. Keys and values are never NULL here, since `hash_put`
refuses such pairs.
-/
namespace Masala.Container
open Library

structure ObjPair (κ ν : Type) where
  key : κ
  keysize : ℕ
  value : ν

/-- The `count` buckets with their arrays of pairs. -/
structure ObjHash (κ ν : Type) where
  count : ℕ
  buckets : ℕ → List (ObjPair κ ν)

variable {κ ν : Type}

def hashInit (capacity : ℕ) : ObjHash κ ν := ⟨capacity, fun _ => []⟩

/-- `hash_this` in the wrapping arithmetic of a 64-bit `unsigned long`. -/
def hashThis (key : Bytes) : UInt64 := key.foldl (fun r c => ((r <<< 5) + r) + c.toUInt64) 5381

/-- The bucket index that every operation computes first. -/
def ObjHash.index (map : ObjHash κ ν) (key : Bytes) : ℕ := (hashThis key).toNat % map.count

/-- `hash_getpair`: the position of the first pair with this key, and the pair. -/
def hashGetpair (look : κ → Exec Bytes) (key : Bytes) :
    List (ObjPair κ ν) → Exec (Option (ℕ × ObjPair κ ν))
  | [] => .ok none
  | pair :: pairs =>
    if pair.keysize = key.length then do
      let bytes ← look pair.key
      if bytes.take pair.keysize = key then return some (0, pair)
      else do
        let r ← hashGetpair look key pairs
        return r.map fun x => (x.1 + 1, x.2)
    else do
      let r ← hashGetpair look key pairs
      return r.map fun x => (x.1 + 1, x.2)

def hashGet (look : κ → Exec Bytes) (map : ObjHash κ ν) (key : Bytes) : Exec (Option ν) := do
  let r ← hashGetpair look key (map.buckets (map.index key))
  return r.map fun x => x.2.value

def hashExists (look : κ → Exec Bytes) (map : ObjHash κ ν) (key : Bytes) : Exec Bool := do
  let r ← hashGet look map key
  return r.isSome

/-- `hash_put`: replace the value of an equal key, else append a pair to the bucket. -/
def hashPut (look : κ → Exec Bytes) (map : ObjHash κ ν) (key : κ) (keysize : ℕ) (value : ν) :
    Exec (ObjHash κ ν) := do
  let bytes ← look key
  let i := map.index (bytes.take keysize)
  let r ← hashGetpair look (bytes.take keysize) (map.buckets i)
  let pairs := match r with
    | some (j, pair) => (map.buckets i).set j { pair with value := value }
    | none => map.buckets i ++ [⟨key, keysize, value⟩]
  return { map with buckets := Function.update map.buckets i pairs }

/-- `hash_del`: copy all pairs of the bucket except the one with this key. -/
def hashDel (look : κ → Exec Bytes) (map : ObjHash κ ν) (key : Bytes) : Exec (ObjHash κ ν) := do
  let i := map.index key
  let r ← hashGetpair look key (map.buckets i)
  match r with
  | none => return map
  | some (j, _) =>
    let pairs := (map.buckets i).eraseIdx j
    return { map with buckets := Function.update map.buckets i pairs }

/-! ## Pairs of known keys -/

section Keyed
variable {β : Type} {look : κ → Exec Bytes} {pairOf : β → ObjPair κ ν} {keyOf : β → Bytes}

/-- The pair of `y` is stored under the key `keyOf y`. -/
def Keyed (look : κ → Exec Bytes) (pairOf : β → ObjPair κ ν) (keyOf : β → Bytes) (y : β) : Prop :=
  (pairOf y).keysize = (keyOf y).length ∧ look (pairOf y).key = .ok (keyOf y)

/-- The memory behind the pointer of a pair starts with `key`. -/
structure StoredAs (look : κ → Exec Bytes) (pair : ObjPair κ ν) (key : Bytes) : Prop where
  size : pair.keysize = key.length
  bytes : ∃ bs, look pair.key = .ok bs ∧ bs.take pair.keysize = key

theorem Keyed.storedAs {y : β} (h : Keyed look pairOf keyOf y) :
    StoredAs look (pairOf y) (keyOf y) :=
  ⟨h.1, keyOf y, h.2, by rw [h.1, List.take_length]⟩

theorem hashGetpair_cons_ne {y : β} {ys : List β} {key : Bytes}
    (hk : StoredAs look (pairOf y) (keyOf y)) (hne : keyOf y ≠ key) :
    hashGetpair look key ((y :: ys).map pairOf) = (do
      let r ← hashGetpair look key (ys.map pairOf)
      return r.map fun x => (x.1 + 1, x.2)) := by
  obtain ⟨hsize, bs, hlook, htake⟩ := hk
  rw [List.map_cons, hashGetpair]
  by_cases hlen : (pairOf y).keysize = key.length
  · rw [if_pos hlen, hlook, exec_ok_bind, htake, if_neg hne]
  · rw [if_neg hlen]

/-- No stored key is the wanted one: the walk ends with NULL. -/
theorem hashGetpair_none {ys : List β} {key : Bytes}
    (hk : ∀ y ∈ ys, StoredAs look (pairOf y) (keyOf y)) (hne : ∀ y ∈ ys, keyOf y ≠ key) :
    hashGetpair look key (ys.map pairOf) = .ok none := by
  induction ys with
  | nil => rfl
  | cons y ys ih =>
    rw [hashGetpair_cons_ne (hk y (by simp)) (hne y (by simp)),
      ih (fun z hz => hk z (by simp [hz])) fun z hz => hne z (by simp [hz])]
    rfl

/-- The walk stops at the first pair with the wanted key. -/
theorem hashGetpair_some {as bs : List β} {y : β}
    (hk : ∀ x ∈ as ++ y :: bs, StoredAs look (pairOf x) (keyOf x))
    (hne : ∀ a ∈ as, keyOf a ≠ keyOf y) :
    hashGetpair look (keyOf y) ((as ++ y :: bs).map pairOf) = .ok (some (as.length, pairOf y)) := by
  induction as with
  | nil =>
    obtain ⟨hsize, cs, hlook, htake⟩ := hk y (by simp)
    rw [List.nil_append, List.map_cons, hashGetpair, if_pos hsize, hlook, exec_ok_bind,
      if_pos htake]
    rfl
  | cons a as ih =>
    rw [List.cons_append, hashGetpair_cons_ne (hk a (by simp)) (hne a (by simp)),
      ih (fun x hx => hk x (List.mem_cons_of_mem _ hx)) fun x hx => hne x (by simp [hx])]
    rfl

theorem hashGetpair_absent {ys : List β} {key : Bytes}
    (hk : ∀ y ∈ ys, Keyed look pairOf keyOf y) (hne : ∀ y ∈ ys, keyOf y ≠ key) :
    hashGetpair look key (ys.map pairOf) = .ok none :=
  hashGetpair_none (fun y hy => (hk y hy).storedAs) hne

theorem hashGetpair_present {as bs : List β} {y : β}
    (hk : ∀ x ∈ as ++ y :: bs, Keyed look pairOf keyOf x) (hne : ∀ a ∈ as, keyOf a ≠ keyOf y) :
    hashGetpair look (keyOf y) ((as ++ y :: bs).map pairOf) = .ok (some (as.length, pairOf y)) :=
  hashGetpair_some (fun x hx => (hk x hx).storedAs) hne

end Keyed
end Masala.Container
