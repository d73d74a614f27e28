import Masala.Container.LinkedList
import Masala.Container.HashTable
import Masala.Library.Entries

/-!
# Lists with a hash index

Session cache, database, lookups and announcements all keep their records in a
list and reach them through a hash whose pairs borrow the key from the record
and point back at the list item. `Registered` couples the two: each bucket
holds, in list order, one pair for every record that hashes to it.
-/
namespace Masala.Container
open Library

/-- A list of records together with its index. -/
structure Registry (ρ : Type) where
  list : ObjList ρ
  hash : ObjHash Ptr Ptr

variable {ρ : Type} (keyOf : ρ → Bytes)

/-- The bytes behind a borrowed key: those of the record the list item carries. -/
def ObjList.look (l : ObjList ρ) (p : Ptr) : Exec Bytes := do
  let it ← l.item (some p)
  return keyOf it.val

/-- The pair that `hash_put` stores for the record at an item. -/
def pairOf (x : Ptr × ρ) : ObjPair Ptr Ptr := ⟨x.1, (keyOf x.2).length, x.1⟩

/-- The index holds one pair for each of the records `xs`, whose keys differ. -/
structure Indexed (map : ObjHash Ptr Ptr) (xs : List (Ptr × ρ)) : Prop where
  keys : (xs.map fun x => keyOf x.2).Nodup
  buckets : ∀ i, map.buckets i =
    (xs.filter fun x => map.index (keyOf x.2) = i).map (pairOf keyOf)

/-- List and index describe the same records `xs`, each under its own key and once. -/
structure Registered (r : Registry ρ) (xs : List (Ptr × ρ)) : Prop where
  list : Holds r.list xs
  hash : Indexed keyOf r.hash xs

variable {keyOf}

theorem registered_init (capacity : ℕ) :
    Registered keyOf (⟨listInit, hashInit capacity⟩ : Registry ρ) [] :=
  ⟨holds_init, List.nodup_nil, fun _ => rfl⟩

theorem Linked.look_eq {l : ObjList ρ} {xs : List (Ptr × ρ)} (h : Linked l xs) {x : Ptr × ρ}
    (hx : x ∈ xs) : l.look keyOf x.1 = .ok (keyOf x.2) := by
  obtain ⟨ys, zs, rfl⟩ := List.append_of_mem hx
  simp [ObjList.look, h.item_eq]

theorem Holds.look_eq {l : ObjList ρ} {xs : List (Ptr × ρ)} (h : Holds l xs) :
    ∀ x ∈ xs, l.look keyOf x.1 = .ok (keyOf x.2) := fun _ hx => h.toLinked.look_eq hx

/-! ## The index alone -/

section Index
variable {map : ObjHash Ptr Ptr} {xs ys zs : List (Ptr × ρ)} {x : Ptr × ρ}
  {look : Ptr → Exec Bytes}

theorem keyed_of_look (hl : ∀ x ∈ xs, look x.1 = .ok (keyOf x.2)) {y : Ptr × ρ} (hy : y ∈ xs) :
    Keyed look (pairOf keyOf) (fun x => keyOf x.2) y := ⟨rfl, hl y hy⟩

theorem Indexed.key_ne (h : Indexed keyOf map (ys ++ x :: zs)) :
    (∀ y ∈ ys, keyOf y.2 ≠ keyOf x.2) ∧ ∀ z ∈ zs, keyOf z.2 ≠ keyOf x.2 := by
  have hn := h.keys
  rw [List.map_append, List.map_cons, List.nodup_append] at hn
  obtain ⟨-, hz, hd⟩ := hn
  constructor
  · intro y hy
    exact hd _ (List.mem_map_of_mem hy) _ (by simp)
  · intro z hm he
    exact (List.nodup_cons.mp hz).1 (List.mem_map.mpr ⟨z, hm, he⟩)

/-- A key that no record has is not found. -/
theorem Indexed.getpair_absent (h : Indexed keyOf map xs)
    (hl : ∀ x ∈ xs, look x.1 = .ok (keyOf x.2)) {key : Bytes} (hne : ∀ x ∈ xs, keyOf x.2 ≠ key) :
    hashGetpair look key (map.buckets (map.index key)) = .ok none := by
  rw [h.buckets]
  have hsub : ∀ y ∈ xs.filter fun x => map.index (keyOf x.2) = map.index key, y ∈ xs := by
    intro y hy
    exact List.mem_of_mem_filter hy
  exact hashGetpair_absent (fun y hy => keyed_of_look hl (hsub y hy)) fun y hy => hne y (hsub y hy)

/-- A record is found under its key, at its place in the bucket. -/
theorem Indexed.getpair_present (h : Indexed keyOf map (ys ++ x :: zs))
    (hl : ∀ y ∈ ys ++ x :: zs, look y.1 = .ok (keyOf y.2)) :
    hashGetpair look (keyOf x.2) (map.buckets (map.index (keyOf x.2))) =
      .ok (some ((ys.filter fun y => map.index (keyOf y.2) = map.index (keyOf x.2)).length,
        pairOf keyOf x)) := by
  rw [h.buckets, List.filter_append, List.filter_cons_of_pos (by simp)]
  have hkeyed : ∀ y ∈ ys.filter (fun y => map.index (keyOf y.2) = map.index (keyOf x.2)) ++
      x :: zs.filter (fun y => map.index (keyOf y.2) = map.index (keyOf x.2)),
      Keyed look (pairOf keyOf) (fun x => keyOf x.2) y := by
    intro y hy
    refine keyed_of_look hl ?_
    rw [List.mem_append, List.mem_cons] at hy ⊢
    exact hy.imp List.mem_of_mem_filter (Or.imp_right List.mem_of_mem_filter)
  have hfound := hashGetpair_present hkeyed fun y hy => h.key_ne.1 y (List.mem_of_mem_filter hy)
  exact hfound

theorem Indexed.get_absent (h : Indexed keyOf map xs)
    (hl : ∀ x ∈ xs, look x.1 = .ok (keyOf x.2)) {key : Bytes} (hne : ∀ x ∈ xs, keyOf x.2 ≠ key) :
    hashGet look map key = .ok none := by
  rw [hashGet, h.getpair_absent hl hne]
  rfl

theorem Indexed.get_present (h : Indexed keyOf map xs)
    (hl : ∀ x ∈ xs, look x.1 = .ok (keyOf x.2)) (hx : x ∈ xs) :
    hashGet look map (keyOf x.2) = .ok (some x.1) := by
  obtain ⟨ys, zs, rfl⟩ := List.append_of_mem hx
  rw [hashGet, h.getpair_present hl]
  rfl

/-- `hash_put` under a new key appends the pair to its bucket. -/
theorem Indexed.put (h : Indexed keyOf map xs) (hl : ∀ y ∈ xs, look y.1 = .ok (keyOf y.2))
    (hx : look x.1 = .ok (keyOf x.2)) (hne : ∀ y ∈ xs, keyOf y.2 ≠ keyOf x.2) :
    ∃ map', hashPut look map x.1 (keyOf x.2).length x.1 = .ok map' ∧ map'.count = map.count ∧
      Indexed keyOf map' (xs ++ [x]) := by
  let i := map.index (keyOf x.2)
  have hput : hashPut look map x.1 (keyOf x.2).length x.1 = .ok { map with
      buckets := Function.update map.buckets i (map.buckets i ++ [pairOf keyOf x]) } := by
    simp only [hashPut, hx, exec_ok_bind, List.take_length, h.getpair_absent hl hne]
    rfl
  refine ⟨_, hput, rfl, ?_, fun j => ?_⟩
  · rw [List.map_append, List.nodup_append]
    refine ⟨h.keys, List.nodup_singleton _, ?_⟩
    intro a ha b hb
    obtain ⟨y, hy, rfl⟩ := List.mem_map.mp ha
    rw [List.mem_singleton.mp hb]
    exact hne y hy
  · change Function.update map.buckets i _ j =
      ((xs ++ [x]).filter fun x => map.index (keyOf x.2) = j).map (pairOf keyOf)
    rw [List.filter_append, List.map_append]
    by_cases hj : j = i
    · subst hj
      rw [Function.update_self, h.buckets]
      simp [i]
    · rw [Function.update_of_ne hj, h.buckets]
      simp [i, Ne.symm hj]

/-- `hash_del` removes the pair of its key and no other. -/
theorem Indexed.del (h : Indexed keyOf map (ys ++ x :: zs))
    (hl : ∀ y ∈ ys ++ x :: zs, look y.1 = .ok (keyOf y.2)) :
    ∃ map', hashDel look map (keyOf x.2) = .ok map' ∧ map'.count = map.count ∧
      Indexed keyOf map' (ys ++ zs) := by
  let i := map.index (keyOf x.2)
  let before := ys.filter fun y => map.index (keyOf y.2) = i
  have hdel : hashDel look map (keyOf x.2) = .ok { map with
      buckets := Function.update map.buckets i ((map.buckets i).eraseIdx before.length) } := by
    simp only [hashDel, h.getpair_present hl, exec_ok_bind]
    rfl
  refine ⟨_, hdel, rfl, ?_, fun j => ?_⟩
  · have hn := h.keys
    rw [List.map_append, List.map_cons, List.nodup_middle, ← List.map_append] at hn
    exact (List.nodup_cons.mp hn).2
  · change Function.update map.buckets i _ j =
      ((ys ++ zs).filter fun x => map.index (keyOf x.2) = j).map (pairOf keyOf)
    by_cases hj : j = i
    · subst hj
      rw [Function.update_self, h.buckets, List.filter_append,
        List.filter_cons_of_pos (by simp [i]), List.map_append,
        List.eraseIdx_append_of_length_le (by simp [before])]
      simp [before]
    · rw [Function.update_of_ne hj, h.buckets]
      simp [i, Ne.symm hj]

/-- Assigning to fields other than the key leaves the index as it is. -/
theorem Indexed.replace {p : Ptr} {v w : ρ} (h : Indexed keyOf map (ys ++ (p, v) :: zs))
    (hw : keyOf w = keyOf v) : Indexed keyOf map (ys ++ (p, w) :: zs) := by
  refine ⟨?_, fun i => ?_⟩
  · simpa [hw] using h.keys
  · rw [h.buckets]
    by_cases hi : map.index (keyOf v) = i
    · simp [hw, hi, pairOf]
    · simp [hw, hi]

end Index

/-! ## List and index together -/

section Both
variable {r : Registry ρ} {xs ys zs : List (Ptr × ρ)}

theorem Registered.get_absent (h : Registered keyOf r xs) {key : Bytes}
    (hne : ∀ x ∈ xs, keyOf x.2 ≠ key) : hashGet (r.list.look keyOf) r.hash key = .ok none :=
  h.hash.get_absent h.list.look_eq hne

theorem Registered.get_present (h : Registered keyOf r xs) {x : Ptr × ρ} (hx : x ∈ xs) :
    hashGet (r.list.look keyOf) r.hash (keyOf x.2) = .ok (some x.1) :=
  h.hash.get_present h.list.look_eq hx

/-- A key belongs to one record, which is found, or to none. -/
theorem Registered.get_cases (h : Registered keyOf r xs) (key : Bytes) :
    (hashGet (r.list.look keyOf) r.hash key = .ok none ∧ ∀ x ∈ xs, keyOf x.2 ≠ key) ∨
    ∃ ys p v zs, xs = ys ++ (p, v) :: zs ∧ keyOf v = key ∧
      hashGet (r.list.look keyOf) r.hash key = .ok (some p) := by
  by_cases hx : ∃ x ∈ xs, keyOf x.2 = key
  · obtain ⟨⟨p, v⟩, hmem, rfl⟩ := hx
    obtain ⟨ys, zs, rfl⟩ := List.append_of_mem hmem
    exact .inr ⟨ys, p, v, zs, rfl, rfl, h.get_present hmem⟩
  · have hne : ∀ x ∈ xs, keyOf x.2 ≠ key := fun x hmem he => hx ⟨x, hmem, he⟩
    exact .inl ⟨h.get_absent hne, hne⟩

/-- `list_put` and `hash_put` of a record with a new key. -/
theorem Registered.put (h : Registered keyOf r xs) {v : ρ}
    (hne : ∀ x ∈ xs, keyOf x.2 ≠ keyOf v) :
    ∃ l' map', listPut r.list v = .ok (l', r.list.fresh) ∧
      hashPut (l'.look keyOf) r.hash r.list.fresh (keyOf v).length r.list.fresh = .ok map' ∧
      Registered keyOf ⟨l', map'⟩ (xs ++ [(r.list.fresh, v)]) := by
  obtain ⟨l', hl', hlist⟩ := h.list.put v
  have hlook : ∀ x ∈ xs ++ [(r.list.fresh, v)], l'.look keyOf x.1 = .ok (keyOf x.2) := hlist.look_eq
  obtain ⟨map', hmap', -, hhash⟩ := h.hash.put (x := (r.list.fresh, v))
    (fun y hy => hlook y (List.mem_append_left _ hy)) (hlook _ (by simp)) hne
  exact ⟨l', map', hl', hmap', hlist, hhash⟩

/-- `hash_del` and `list_del` of a record. -/
theorem Registered.del {p : Ptr} {v : ρ} (h : Registered keyOf r (ys ++ (p, v) :: zs)) :
    ∃ l' map', hashDel (r.list.look keyOf) r.hash (keyOf v) = .ok map' ∧
      listDel r.list (some p) = .ok (l', firstPtr zs none) ∧
      Registered keyOf ⟨l', map'⟩ (ys ++ zs) := by
  obtain ⟨map', hmap', -, hhash⟩ := h.hash.del h.list.look_eq
  obtain ⟨l', hl', hlist⟩ := h.list.del
  exact ⟨l', map', hmap', hl', hlist, hhash⟩

/-- Assigning a record with the same key to an item. -/
theorem Registered.setVal {p : Ptr} {v w : ρ} (h : Registered keyOf r (ys ++ (p, v) :: zs))
    (hw : keyOf w = keyOf v) : ∃ l', r.list.setVal (some p) w = .ok l' ∧
      Registered keyOf ⟨l', r.hash⟩ (ys ++ (p, w) :: zs) := by
  obtain ⟨l', hl', hlist⟩ := h.list.setVal w
  exact ⟨l', hl', hlist, h.hash.replace hw⟩

theorem Registered.items_eq (h : Registered keyOf r xs) : r.list.items = xs :=
  h.list.toLinked.items_eq

/-- A key selects its record. -/
theorem Registered.items_filter {p : Ptr} {v : ρ} (h : Registered keyOf r (ys ++ (p, v) :: zs)) :
    r.list.items.filter (fun x => keyOf x.2 = keyOf v) = [(p, v)] := by
  rw [h.items_eq]
  exact filter_key_eq h.hash.keys (List.mem_append_right ys List.mem_cons_self)

end Both
end Masala.Container
