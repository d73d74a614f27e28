import Masala.Container.HashTable
import Masala.Library.Entries

/-!
# The hash table as a finite map

Runs of calls over a table and over the memory that its keys point into. As
long as the callers leave the bytes of stored keys as they are, every reply is
that of a finite map from byte strings, and a key has one pair in the table.
-/
namespace Masala.Container
open Library

variable {κ ν : Type}

/-- A table with the memory of its callers. -/
structure HashState (κ ν : Type) where
  map : ObjHash κ ν
  mem : κ → Option Bytes

/-- What a pointer gives at the moment; freed memory is a fault. -/
def HashState.look (s : HashState κ ν) (p : κ) : Exec Bytes :=
  match s.mem p with
  | some bytes => .ok bytes
  | none => .error .null

/-- A call, or a change that the callers make to their memory. -/
inductive HashCall (κ ν : Type)
  | put (key : κ) (bytes : Bytes) (value : ν)
  | del (key : Bytes)
  | get (key : Bytes)
  | has (key : Bytes)
  | write (mem : κ → Option Bytes)

inductive HashReply (ν : Type)
  | done
  | value (v : Option ν)
  | found (b : Bool)

def hashCall (s : HashState κ ν) : HashCall κ ν → Exec (HashState κ ν × HashReply ν)
  | .put key bytes value => do
    return ({ s with map := ← hashPut s.look s.map key bytes.length value }, .done)
  | .del key => do
    return ({ s with map := ← hashDel s.look s.map key }, .done)
  | .get key => do
    return (s, .value (← hashGet s.look s.map key))
  | .has key => do
    return (s, .found (← hashExists s.look s.map key))
  | .write mem => return ({ s with mem := mem }, .done)

def hashRun (s : HashState κ ν) :
    List (HashCall κ ν) → Exec (HashState κ ν × List (HashReply ν))
  | [] => return (s, [])
  | c :: cs => do
    let (s, r) ← hashCall s c
    let (s, rs) ← hashRun s cs
    return (s, r :: rs)

/-- A key that is put is in memory, and no change touches the bytes of a stored key. -/
def HashCall.Allowed (s : HashState κ ν) : HashCall κ ν → Prop
  | put key bytes _ => ∃ bs, s.mem key = some bs ∧ bytes <+: bs
  | del _ => True
  | get _ => True
  | has _ => True
  | write mem => ∀ i, ∀ pair ∈ s.map.buckets i,
      (mem pair.key).map (List.take pair.keysize) = (s.mem pair.key).map (List.take pair.keysize)

/-- Every call of a run is allowed where it is made. -/
def Careful (s : HashState κ ν) : List (HashCall κ ν) → Prop
  | [] => True
  | c :: cs => c.Allowed s ∧ ∀ s' r, hashCall s c = .ok (s', r) → Careful s' cs

theorem Careful.cons {s s' : HashState κ ν} {c : HashCall κ ν} {cs : List (HashCall κ ν)}
    {r : HashReply ν} (hc : c.Allowed s) (hcall : hashCall s c = .ok (s', r))
    (h : Careful s' cs) : Careful s (c :: cs) := by
  refine ⟨hc, fun t q ht => ?_⟩
  rw [hcall] at ht
  cases ht
  exact h

theorem Careful.before {s : HashState κ ν} {as bs : List (HashCall κ ν)}
    (h : Careful s (as ++ bs)) : Careful s as := by
  induction as generalizing s with
  | nil => trivial
  | cons c as ih => exact ⟨h.1, fun s' r hcall => ih (h.2 s' r hcall)⟩

/-! ## The finite map -/

/-- What a call does to the map from keys to values. -/
def HashCall.apply (m : Bytes → Option ν) : HashCall κ ν → Bytes → Option ν
  | put _ bytes value => Function.update m bytes (some value)
  | del key => Function.update m key none
  | get _ => m
  | has _ => m
  | write _ => m

/-- The calls that may change what a key returns. -/
def HashCall.About (k : Bytes) : HashCall κ ν → Prop
  | put _ bytes _ => bytes = k
  | del key => key = k
  | get _ => False
  | has _ => False
  | write _ => False

theorem HashCall.apply_other {c : HashCall κ ν} {k : Bytes} (h : ¬ c.About k)
    (m : Bytes → Option ν) : c.apply m k = m k := by
  cases c with
  | put key bytes v => exact Function.update_of_ne (Ne.symm h) _ _
  | del key => exact Function.update_of_ne (Ne.symm h) _ _
  | get key => rfl
  | has key => rfl
  | write mem => rfl

theorem foldl_apply_other {calls : List (HashCall κ ν)} {k : Bytes}
    (h : ∀ c ∈ calls, ¬ c.About k) (m : Bytes → Option ν) :
    calls.foldl HashCall.apply m k = m k := by
  induction calls generalizing m with
  | nil => rfl
  | cons c calls ih =>
    rw [List.foldl_cons, ih (fun d hd => h d (List.mem_cons_of_mem _ hd)),
      HashCall.apply_other (h c List.mem_cons_self)]

def HashCall.reply (m : Bytes → Option ν) : HashCall κ ν → HashReply ν
  | put _ _ _ => .done
  | del _ => .done
  | get key => .value (m key)
  | has key => .found (m key).isSome
  | write _ => .done

def replies (m : Bytes → Option ν) : List (HashCall κ ν) → List (HashReply ν)
  | [] => []
  | c :: cs => c.reply m :: replies (c.apply m) cs

/-- Each key of the map has one pair, with its value, and there are no other pairs. -/
structure OnePair (s : HashState κ ν) (m : Bytes → Option ν) : Prop where
  inside : ∀ i, s.map.buckets i ≠ [] → i < s.map.count
  present : ∀ k v, m k = some v ↔
    ∃ i, ∃ pair ∈ s.map.buckets i, StoredAs s.look pair k ∧ pair.value = v
  unique : ∀ (k : Bytes) (i j p q : ℕ) (pair pair' : ObjPair κ ν),
    (s.map.buckets i)[p]? = some pair → (s.map.buckets j)[q]? = some pair' →
    StoredAs s.look pair k → StoredAs s.look pair' k → i = j ∧ p = q

/-- The table stands for the map: every bucket holds, under distinct keys that belong to it, the
pairs with the values of these keys. -/
structure Refines (s : HashState κ ν) (m : Bytes → Option ν)
    (ents : ℕ → List (Bytes × ObjPair κ ν)) : Prop where
  pos : 0 < s.map.count
  buckets : ∀ i, s.map.buckets i = (ents i).map Prod.snd
  stored : ∀ i, ∀ x ∈ ents i, StoredAs s.look x.2 x.1
  index : ∀ i, ∀ x ∈ ents i, s.map.index x.1 = i
  nodup : ∀ i, ((ents i).map Prod.fst).Nodup
  value : ∀ k, m k = (entry Prod.fst (ents (s.map.index k)) k).map fun x => x.2.value

/-- The pairs of one bucket, with the keys they are stored under. -/
structure Chain (s : HashState κ ν) (i : ℕ) (zs : List (Bytes × ObjPair κ ν)) : Prop where
  stored : ∀ x ∈ zs, StoredAs s.look x.2 x.1
  index : ∀ x ∈ zs, s.map.index x.1 = i
  nodup : (zs.map Prod.fst).Nodup

section Chain
variable {s : HashState κ ν} {i : ℕ} {zs as bs : List (Bytes × ObjPair κ ν)}
  {x y : Bytes × ObjPair κ ν}

theorem Chain.snoc (h : Chain s i zs) (hx : StoredAs s.look x.2 x.1) (hi : s.map.index x.1 = i)
    (hne : ∀ z ∈ zs, z.1 ≠ x.1) : Chain s i (zs ++ [x]) := by
  refine ⟨?_, ?_, ?_⟩
  · rw [List.forall_mem_append, List.forall_mem_singleton]
    exact ⟨h.stored, hx⟩
  · rw [List.forall_mem_append, List.forall_mem_singleton]
    exact ⟨h.index, hi⟩
  · rw [List.map_append, List.map_singleton, ← List.concat_eq_append, List.nodup_concat]
    refine ⟨fun hmem => ?_, h.nodup⟩
    obtain ⟨z, hz, hkey⟩ := List.mem_map.mp hmem
    exact hne z hz hkey

theorem Chain.replace (h : Chain s i (as ++ x :: bs)) (hy : StoredAs s.look y.2 y.1)
    (hkey : y.1 = x.1) : Chain s i (as ++ y :: bs) := by
  obtain ⟨hstored, hindex, hnodup⟩ := h
  rw [List.forall_mem_append, List.forall_mem_cons] at hstored hindex
  refine ⟨?_, ?_, ?_⟩
  · rw [List.forall_mem_append, List.forall_mem_cons]
    exact ⟨hstored.1, hy, hstored.2.2⟩
  · rw [List.forall_mem_append, List.forall_mem_cons, hkey]
    exact hindex
  · rw [List.map_append, List.map_cons] at hnodup ⊢
    rwa [hkey]

theorem Chain.erase (h : Chain s i (as ++ x :: bs)) : Chain s i (as ++ bs) := by
  have hsub : (as ++ bs).Sublist (as ++ x :: bs) :=
    List.Sublist.append_left (List.sublist_cons_self x bs) as
  exact ⟨fun z hz => h.stored z (hsub.mem hz), fun z hz => h.index z (hsub.mem hz),
    h.nodup.sublist (hsub.map _)⟩

theorem Chain.head (h : Chain s i (as ++ x :: bs)) :
    StoredAs s.look x.2 x.1 ∧ ∀ z ∈ as, z.1 ≠ x.1 := by
  have hnodup := h.nodup
  rw [List.map_append, List.map_cons, List.nodup_append] at hnodup
  exact ⟨h.stored x (by simp), fun z hz =>
    hnodup.2.2 z.1 (List.mem_map_of_mem hz) x.1 List.mem_cons_self⟩

end Chain

section Refines
variable {s : HashState κ ν} {m m' : Bytes → Option ν} {ents : ℕ → List (Bytes × ObjPair κ ν)}
  {k : Bytes} {i : ℕ}

theorem refines_init {capacity : ℕ} (h : 1 ≤ capacity) (mem : κ → Option Bytes) :
    Refines ⟨(hashInit capacity : ObjHash κ ν), mem⟩ (fun _ => none) fun _ => [] :=
  ⟨h, fun _ => rfl, by simp, by simp, fun _ => List.nodup_nil, fun _ => rfl⟩

theorem Refines.chain (h : Refines s m ents) (i : ℕ) : Chain s i (ents i) :=
  ⟨h.stored i, h.index i, h.nodup i⟩

/-- What the walk over the chain of a key finds. -/
theorem Refines.find (h : Refines s m ents) (k : Bytes) :
    ((∀ x ∈ ents (s.map.index k), x.1 ≠ k) ∧ m k = none ∧
      hashGetpair s.look k (s.map.buckets (s.map.index k)) = .ok none) ∨
    ∃ as pair bs, ents (s.map.index k) = as ++ (k, pair) :: bs ∧ m k = some pair.value ∧
      hashGetpair s.look k (s.map.buckets (s.map.index k)) = .ok (some (as.length, pair)) := by
  have hvalue := h.value k
  rw [h.buckets]
  cases hent : entry Prod.fst (ents (s.map.index k)) k with
  | none =>
    rw [hent] at hvalue
    have hne := entry_eq_none_iff.mp hent
    exact .inl ⟨hne, hvalue, hashGetpair_none (h.stored _) hne⟩
  | some x =>
    rw [hent] at hvalue
    obtain ⟨hmem, rfl⟩ := mem_of_entry hent
    obtain ⟨as, bs, hsplit⟩ := List.append_of_mem hmem
    have hstored := h.stored (s.map.index x.1)
    rw [hsplit] at hstored
    have hne := (hsplit ▸ h.chain (s.map.index x.1)).head.2
    exact .inr ⟨as, x.2, bs, hsplit, hvalue, hsplit ▸ hashGetpair_some hstored hne⟩

theorem Refines.get (h : Refines s m ents) (k : Bytes) :
    hashGet s.look s.map k = .ok (m k) := by
  rcases h.find k with ⟨-, hm, hpair⟩ | ⟨as, pair, bs, -, hm, hpair⟩
  · rw [hashGet, hpair, hm]
    rfl
  · rw [hashGet, hpair, hm]
    rfl

/-- Another chain for one bucket. -/
def ObjHash.setBucket (map : ObjHash κ ν) (i : ℕ) (pairs : List (ObjPair κ ν)) : ObjHash κ ν :=
  { map with buckets := Function.update map.buckets i pairs }

theorem Refines.bucket (h : Refines s m ents) {zs : List (Bytes × ObjPair κ ν)}
    (hzs : Chain s i zs)
    (hin : ∀ k, s.map.index k = i → m' k = (entry Prod.fst zs k).map fun x => x.2.value)
    (hout : ∀ k, s.map.index k ≠ i → m' k = m k) :
    Refines { s with map := s.map.setBucket i (zs.map Prod.snd) } m'
      (Function.update ents i zs) := by
  have hchain : ∀ j, Chain s j (Function.update ents i zs j) := by
    intro j
    by_cases hj : j = i
    · rw [hj, Function.update_self]
      exact hzs
    · rw [Function.update_of_ne hj]
      exact h.chain j
  refine ⟨h.pos, fun j => ?_, fun j => (hchain j).stored, fun j => (hchain j).index,
    fun j => (hchain j).nodup, fun k => ?_⟩
  · by_cases hj : j = i
    · subst hj
      simp [ObjHash.setBucket]
    · simp [ObjHash.setBucket, Function.update_of_ne hj, h.buckets j]
  · change m' k = (entry Prod.fst (Function.update ents i zs (s.map.index k)) k).map _
    by_cases hk : s.map.index k = i
    · rw [hin k hk, hk, Function.update_self]
    · rw [hout k hk, h.value k, Function.update_of_ne hk]

/-- Elsewhere an update at `k` changes nothing. -/
theorem update_elsewhere {w : Option ν} (j : Bytes) (hj : s.map.index j ≠ s.map.index k) :
    Function.update m k w j = m j := by
  refine Function.update_of_ne ?_ _ _
  rintro rfl
  exact hj rfl

/-- In the bucket of `k` the update of the map is that of the chain. -/
theorem Refines.update_here (h : Refines s m ents) {zs : List (Bytes × ObjPair κ ν)}
    {w : Option (Bytes × ObjPair κ ν)}
    (hzs : entry Prod.fst zs = Function.update (entry Prod.fst (ents (s.map.index k))) k w)
    (j : Bytes) (hj : s.map.index j = s.map.index k) :
    Function.update m k (w.map fun x => x.2.value) j =
      (entry Prod.fst zs j).map fun x => x.2.value := by
  rw [hzs]
  by_cases hjk : j = k
  · rw [hjk, Function.update_self, Function.update_self]
  · rw [Function.update_of_ne hjk, Function.update_of_ne hjk, h.value j, hj]

theorem Refines.put_new (h : Refines s m ents) {key : κ} {bs : Bytes}
    (hlook : s.look key = .ok bs) (htake : bs.take k.length = k) (v : ν)
    (hne : ∀ x ∈ ents (s.map.index k), x.1 ≠ k)
    (hpair : hashGetpair s.look k (s.map.buckets (s.map.index k)) = .ok none) :
    ∃ map' ents', hashPut s.look s.map key k.length v = .ok map' ∧
      Refines { s with map := map' } (Function.update m k (some v)) ents' := by
  let x : Bytes × ObjPair κ ν := (k, ⟨key, k.length, v⟩)
  have hput : hashPut s.look s.map key k.length v =
      .ok (s.map.setBucket (s.map.index k) ((ents (s.map.index k) ++ [x]).map Prod.snd)) := by
    rw [hashPut, hlook, exec_ok_bind, htake]
    dsimp only
    rw [hpair, h.buckets, List.map_append]
    rfl
  have hchain : Chain s (s.map.index k) (ents (s.map.index k) ++ [x]) :=
    (h.chain _).snoc ⟨rfl, bs, hlook, htake⟩ rfl hne
  have hentry := entry_insert hchain.nodup
  rw [List.append_nil] at hentry
  exact ⟨_, _, hput, h.bucket hchain (h.update_here hentry) update_elsewhere⟩

theorem Refines.put_known (h : Refines s m ents) {key : κ} {bytes : Bytes}
    (hlook : s.look key = .ok bytes) (htake : bytes.take k.length = k) (v : ν)
    {as bs : List (Bytes × ObjPair κ ν)} {pair : ObjPair κ ν}
    (hsplit : ents (s.map.index k) = as ++ (k, pair) :: bs)
    (hpair : hashGetpair s.look k (s.map.buckets (s.map.index k)) = .ok (some (as.length, pair))) :
    ∃ map' ents', hashPut s.look s.map key k.length v = .ok map' ∧
      Refines { s with map := map' } (Function.update m k (some v)) ents' := by
  let y : Bytes × ObjPair κ ν := (k, { pair with value := v })
  have hset : ((as ++ (k, pair) :: bs).map Prod.snd).set as.length { pair with value := v } =
      (as ++ y :: bs).map Prod.snd := by simp [y]
  have hput : hashPut s.look s.map key k.length v =
      .ok (s.map.setBucket (s.map.index k) ((as ++ y :: bs).map Prod.snd)) := by
    rw [hashPut, hlook, exec_ok_bind, htake]
    dsimp only
    rw [hpair, h.buckets, hsplit, ← hset]
    rfl
  have hold := hsplit ▸ h.chain (s.map.index k)
  obtain ⟨hsize, hbytes⟩ := hold.head.1
  have hchain : Chain s (s.map.index k) (as ++ y :: bs) := hold.replace ⟨hsize, hbytes⟩ rfl
  have hentry := entry_replace (y := y) hold.nodup rfl
  rw [← hsplit] at hentry
  exact ⟨_, _, hput, h.bucket hchain (h.update_here hentry) update_elsewhere⟩

theorem Refines.put (h : Refines s m ents) {key : κ} {bs : Bytes} (hmem : s.mem key = some bs)
    (hk : k <+: bs) (v : ν) :
    ∃ map' ents', hashPut s.look s.map key k.length v = .ok map' ∧
      Refines { s with map := map' } (Function.update m k (some v)) ents' := by
  have hlook : s.look key = .ok bs := by rw [HashState.look, hmem]
  have htake : bs.take k.length = k := (List.prefix_iff_eq_take.mp hk).symm
  rcases h.find k with ⟨hne, -, hpair⟩ | ⟨as, pair, zs, hsplit, -, hpair⟩
  · exact h.put_new hlook htake v hne hpair
  · exact h.put_known hlook htake v hsplit hpair

theorem Refines.del (h : Refines s m ents) (k : Bytes) :
    ∃ map' ents', hashDel s.look s.map k = .ok map' ∧
      Refines { s with map := map' } (Function.update m k none) ents' := by
  rcases h.find k with ⟨-, hm, hpair⟩ | ⟨as, pair, zs, hsplit, -, hpair⟩
  · refine ⟨s.map, ents, by rw [hashDel, hpair]; rfl, ?_⟩
    rw [← hm, Function.update_eq_self]
    exact h
  · have herase : ((as ++ (k, pair) :: zs).map Prod.snd).eraseIdx as.length =
        (as ++ zs).map Prod.snd := by
      rw [List.map_append, List.eraseIdx_append_of_length_le (by simp)]
      simp
    have hdel : hashDel s.look s.map k =
        .ok (s.map.setBucket (s.map.index k) ((as ++ zs).map Prod.snd)) := by
      rw [hashDel]
      dsimp only
      rw [hpair, h.buckets, hsplit, ← herase]
      rfl
    have hold := hsplit ▸ h.chain (s.map.index k)
    have hentry := entry_erase hold.nodup
    rw [← hsplit] at hentry
    exact ⟨_, _, hdel, h.bucket hold.erase (h.update_here hentry) update_elsewhere⟩

theorem look_eq_ok {p : κ} {bs : Bytes} : s.look p = .ok bs ↔ s.mem p = some bs := by
  rw [HashState.look]
  cases s.mem p <;> simp

/-- A change of the memory that leaves the stored keys alone. -/
theorem Refines.write (h : Refines s m ents) {mem : κ → Option Bytes}
    (hmem : ∀ i, ∀ pair ∈ s.map.buckets i, (mem pair.key).map (List.take pair.keysize) =
      (s.mem pair.key).map (List.take pair.keysize)) : Refines { s with mem := mem } m ents := by
  refine ⟨h.pos, h.buckets, fun i x hx => ?_, h.index, h.nodup, h.value⟩
  obtain ⟨hsize, bs, hlook, htake⟩ := h.stored i x hx
  have hkeep := hmem i x.2 (h.buckets i ▸ List.mem_map_of_mem hx)
  rw [look_eq_ok.mp hlook, Option.map_some, htake, Option.map_eq_some_iff] at hkeep
  obtain ⟨bs', hmem', htake'⟩ := hkeep
  exact ⟨hsize, bs', look_eq_ok.mpr hmem', htake'⟩

/-- One call. -/
theorem Refines.call (h : Refines s m ents) {c : HashCall κ ν} (hc : c.Allowed s) :
    ∃ s' ents', hashCall s c = .ok (s', c.reply m) ∧ Refines s' (c.apply m) ents' := by
  cases c with
  | put key bytes v =>
    obtain ⟨bs, hmem, hbytes⟩ := hc
    obtain ⟨map', ents', hput, h'⟩ := h.put hmem hbytes v
    exact ⟨_, ents', by rw [hashCall, hput]; rfl, h'⟩
  | del key =>
    obtain ⟨map', ents', hdel, h'⟩ := h.del key
    exact ⟨_, ents', by rw [hashCall, hdel]; rfl, h'⟩
  | get key => exact ⟨s, ents, by rw [hashCall, h.get]; rfl, h⟩
  | has key => exact ⟨s, ents, by rw [hashCall, hashExists, h.get]; rfl, h⟩
  | write mem => exact ⟨_, ents, rfl, h.write hc⟩

/-- A run of calls. -/
theorem Refines.run {calls : List (HashCall κ ν)} (h : Refines s m ents) (hc : Careful s calls) :
    ∃ s' ents', hashRun s calls = .ok (s', replies m calls) ∧
      Refines s' (calls.foldl HashCall.apply m) ents' := by
  induction calls generalizing s m ents with
  | nil => exact ⟨s, ents, rfl, h⟩
  | cons c calls ih =>
    obtain ⟨s₁, ents₁, hcall, h₁⟩ := h.call hc.1
    obtain ⟨s', ents', hrun, h'⟩ := ih h₁ (hc.2 s₁ _ hcall)
    refine ⟨s', ents', ?_, h'⟩
    rw [hashRun, hcall, exec_ok_bind]
    dsimp only
    rw [hrun]
    rfl

theorem StoredAs.unique {pair : ObjPair κ ν} {k' : Bytes} (h : StoredAs s.look pair k)
    (h' : StoredAs s.look pair k') : k = k' := by
  obtain ⟨-, bs, hlook, rfl⟩ := h
  obtain ⟨-, bs', hlook', rfl⟩ := h'
  rw [hlook] at hlook'
  rw [Except.ok.inj hlook']

/-- A pair that is stored under a key. -/
theorem Refines.mem (h : Refines s m ents) {pair : ObjPair κ ν} (hp : pair ∈ s.map.buckets i)
    (hk : StoredAs s.look pair k) : s.map.index k = i ∧ (k, pair) ∈ ents i := by
  rw [h.buckets] at hp
  obtain ⟨x, hx, rfl⟩ := List.mem_map.mp hp
  obtain rfl := (h.stored i x hx).unique hk
  exact ⟨h.index i x hx, hx⟩

theorem Refines.key_at (h : Refines s m ents) {p : ℕ} {pair : ObjPair κ ν}
    (hp : (s.map.buckets i)[p]? = some pair) (hk : StoredAs s.look pair k) :
    ((ents i).map Prod.fst)[p]? = some k := by
  rw [h.buckets, List.getElem?_map, Option.map_eq_some_iff] at hp
  obtain ⟨x, hx, rfl⟩ := hp
  rw [List.getElem?_map, hx, ← (h.stored i x (List.mem_of_getElem? hx)).unique hk]
  rfl

theorem Refines.onePair (h : Refines s m ents) : OnePair s m := by
  refine ⟨fun i hne => ?_, fun k v => ⟨fun hm => ?_, ?_⟩, ?_⟩
  · rw [h.buckets, ne_eq, List.map_eq_nil_iff] at hne
    obtain ⟨x, hx⟩ := List.exists_mem_of_ne_nil _ hne
    rw [← h.index i x hx]
    exact Nat.mod_lt _ h.pos
  · rw [h.value, Option.map_eq_some_iff] at hm
    obtain ⟨x, hent, hv⟩ := hm
    obtain ⟨hx, rfl⟩ := mem_of_entry hent
    exact ⟨_, x.2, h.buckets _ ▸ List.mem_map_of_mem hx, h.stored _ x hx, hv⟩
  · rintro ⟨i, pair, hp, hk, rfl⟩
    obtain ⟨rfl, hx⟩ := h.mem hp hk
    rw [h.value, (entry_eq_some_iff (h.nodup _)).mpr ⟨hx, rfl⟩]
    rfl
  · intro k i j p q pair pair' hp hq hk hk'
    obtain ⟨rfl, -⟩ := h.mem (List.mem_of_getElem? hp) hk
    obtain ⟨rfl, -⟩ := h.mem (List.mem_of_getElem? hq) hk'
    have hp' := h.key_at hp hk
    have hlt := (List.getElem?_eq_some_iff.mp hp').1
    exact ⟨rfl, (List.getElem?_inj hlt (h.nodup _)).mp (hp'.trans (h.key_at hq hk').symm)⟩

end Refines

/-- Careful callers use a finite map: a key has the value of its last `hash_put` that no
`hash_del` followed, every key of the map has one pair, and calls about other keys change nothing
for a key. -/
theorem hashRun_finite_map (capacity : ℕ) (hcap : 1 ≤ capacity) (mem : κ → Option Bytes)
    (calls : List (HashCall κ ν)) (hcalls : Careful ⟨hashInit capacity, mem⟩ calls) :
    ∃ s, hashRun ⟨hashInit capacity, mem⟩ calls = .ok (s, replies (fun _ => none) calls) ∧
      (∀ k, hashGet s.look s.map k = .ok (calls.foldl HashCall.apply (fun _ => none) k)) ∧
      OnePair s (calls.foldl HashCall.apply fun _ => none) ∧
      ∀ k before after, calls = before ++ after → (∀ c ∈ after, ¬ c.About k) →
        ∃ s₁ rs, hashRun ⟨hashInit capacity, mem⟩ before = .ok (s₁, rs) ∧
          hashGet s₁.look s₁.map k = hashGet s.look s.map k := by
  have hinit : Refines ⟨(hashInit capacity : ObjHash κ ν), mem⟩ (fun _ => none) fun _ => [] :=
    refines_init hcap mem
  obtain ⟨s, ents, hrun, h⟩ := hinit.run hcalls
  refine ⟨s, hrun, h.get, h.onePair, ?_⟩
  rintro k before after rfl hother
  obtain ⟨s₁, ents₁, hrun₁, h₁⟩ := hinit.run hcalls.before
  refine ⟨s₁, _, hrun₁, ?_⟩
  rw [h₁.get, h.get, List.foldl_append, foldl_apply_other hother]

/-- Two keys in one chain, one of them the start of the other. -/
theorem hashRun_finite_map_chain : ∃ s : HashState Unit Bool,
    hashRun ⟨hashInit 1, fun _ => some [1, 2]⟩
      [.put () [1] true, .put () [1, 2] false, .del [1], .get [1], .get [1, 2]] =
      .ok (s, [.done, .done, .done, .value none, .value (some false)]) := by
  have hcareful : Careful (⟨hashInit 1, fun _ => some [1, 2]⟩ : HashState Unit Bool)
      [.put () [1] true, .put () [1, 2] false, .del [1], .get [1], .get [1, 2]] :=
    .cons ⟨_, rfl, by decide⟩ rfl <| .cons ⟨_, rfl, by decide⟩ rfl <| .cons trivial rfl <|
      .cons trivial rfl <| .cons trivial rfl trivial
  obtain ⟨s, hrun, -⟩ := hashRun_finite_map 1 (Nat.le_refl 1) _ _ hcareful
  exact ⟨s, hrun⟩

end Masala.Container
