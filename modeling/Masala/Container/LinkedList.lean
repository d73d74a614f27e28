import Masala.Library.Exec
import Mathlib.Logic.Function.Basic
import Mathlib.Data.List.Nodup

/-!
# The doubly linked list

The list of `list.c` with its heap of items. A pointer is an address or NULL,
following NULL or a freed address is a fault, and every operation writes the
same fields in the same cases as the source. The overflow test of the counter
is left out, since memory ends long before a `long` does.
-/
namespace Masala.Container
open Library

abbrev Ptr := ℕ

structure ObjItem (α : Type) where
  val : α
  next : Option Ptr
  prev : Option Ptr

/-- A list object with the heap of its items; `fresh` is the next address of the allocator. -/
structure ObjList (α : Type) where
  start : Option Ptr
  stop : Option Ptr
  counter : ℕ
  mem : Ptr → Option (ObjItem α)
  fresh : Ptr

variable {α : Type}

def listInit : ObjList α := ⟨none, none, 0, fun _ => none, 0⟩

/-- Follow a pointer to an item. -/
def ObjList.item (l : ObjList α) (p : Option Ptr) : Exec (ObjItem α) :=
  match p.bind l.mem with
  | some it => .ok it
  | none => .error .null

/-- Assign to fields of the item behind a pointer. -/
def ObjList.write (l : ObjList α) (p : Option Ptr) (f : ObjItem α → ObjItem α) :
    Exec (ObjList α) :=
  match p with
  | none => .error .null
  | some q =>
    match l.mem q with
    | some it => .ok { l with mem := Function.update l.mem q (some (f it)) }
    | none => .error .null

/-- Assign the payload of the item behind a pointer. -/
def ObjList.setVal (l : ObjList α) (p : Option Ptr) (v : α) : Exec (ObjList α) :=
  l.write p fun it => { it with val := v }

def ObjList.alloc (l : ObjList α) (it : ObjItem α) : ObjList α :=
  { l with mem := Function.update l.mem l.fresh (some it), fresh := l.fresh + 1 }

/-- `list_put` returns the list and the new item, whose address is the old `fresh`. -/
def listPut (l : ObjList α) (payload : α) : Exec (ObjList α × Ptr) :=
  if l.start = none then
    let l' := l.alloc ⟨payload, none, none⟩
    .ok ({ l' with start := some l.fresh, stop := some l.fresh, counter := l.counter + 1 }, l.fresh)
  else do
    let l' := l.alloc ⟨payload, none, l.stop⟩
    let l' ← l'.write l.stop fun it => { it with next := some l.fresh }
    return ({ l' with stop := some l.fresh, counter := l.counter + 1 }, l.fresh)

/-- `list_ins`. Only the short lists that are passed on to `list_put` get a new `stop`. -/
def listIns (l : ObjList α) (here : Option Ptr) (payload : α) : Exec (ObjList α × Ptr) :=
  if l.counter ≤ 1 then listPut l payload
  else do
    let it ← l.item here
    let l' := l.alloc ⟨payload, it.next, here⟩
    let l' ← l'.write here fun it => { it with next := some l.fresh }
    let l' ← match it.next with
      | none => pure l'
      | some q => l'.write (some q) fun it => { it with prev := some l.fresh }
    return ({ l' with counter := l.counter + 1 }, l.fresh)

/-- `list_del` unlinks an item, frees it and returns its successor. -/
def listDel (l : ObjList α) (item : Option Ptr) : Exec (ObjList α × Option Ptr) :=
  match item with
  | none => .ok (l, none)
  | some p =>
    if l.counter = 0 then .ok (l, none)
    else do
      let it ← l.item (some p)
      let l' ← match it.prev with
        | none => pure { l with start := it.next }
        | some q => l.write (some q) fun x => { x with next := it.next }
      let l' ← match it.next with
        | none => pure { l' with stop := it.prev }
        | some q => l'.write (some q) fun x => { x with prev := it.prev }
      return ({ l' with counter := l.counter - 1, mem := Function.update l'.mem p none }, it.next)

def listNext (l : ObjList α) (item : Option Ptr) : Exec (Option Ptr) := do
  let it ← l.item item
  return it.next

/-- `list_prev` gives NULL for every item. -/
def listPrev (_ : ObjList α) (_ : Option Ptr) : Option Ptr := none

/-- `list_swap` exchanges the pointers of two items, not those of their neighbours. -/
def listSwap (l : ObjList α) (item1 item2 : Option Ptr) : Exec (ObjList α) := do
  let it1 ← l.item item1
  let it2 ← l.item item2
  let l' ← l.write item1 fun it => { it with prev := it2.prev, next := it2.next }
  let l' ← l'.write item2 fun it => { it with prev := it1.prev, next := it1.next }
  let start := if l'.start = item1 then item2 else if l'.start = item2 then item1 else l'.start
  let stop := if l'.stop = item1 then item2 else if l'.stop = item2 then item1 else l'.stop
  return { l' with start := start, stop := stop }

/-! ## Chains of items -/

/-- The first address of a run of items, or what follows the run. -/
def firstPtr (xs : List (Ptr × α)) (nxt : Option Ptr) : Option Ptr :=
  match xs with
  | [] => nxt
  | x :: _ => some x.1

/-- The last address of a run of items, or what precedes the run. -/
def lastPtr (prev : Option Ptr) (xs : List (Ptr × α)) : Option Ptr :=
  match xs with
  | [] => prev
  | x :: xs => lastPtr (some x.1) xs

@[simp] theorem firstPtr_nil (nxt : Option Ptr) : firstPtr ([] : List (Ptr × α)) nxt = nxt := rfl

@[simp] theorem firstPtr_cons (x : Ptr × α) (xs : List (Ptr × α)) (nxt : Option Ptr) :
    firstPtr (x :: xs) nxt = some x.1 := rfl

@[simp] theorem lastPtr_nil (prev : Option Ptr) : lastPtr prev ([] : List (Ptr × α)) = prev := rfl

@[simp] theorem lastPtr_cons (prev : Option Ptr) (x : Ptr × α) (xs : List (Ptr × α)) :
    lastPtr prev (x :: xs) = lastPtr (some x.1) xs := rfl

theorem firstPtr_append (xs ys : List (Ptr × α)) (nxt : Option Ptr) :
    firstPtr (xs ++ ys) nxt = firstPtr xs (firstPtr ys nxt) := by cases xs <;> rfl

@[simp] theorem lastPtr_append (prev : Option Ptr) (xs ys : List (Ptr × α)) :
    lastPtr prev (xs ++ ys) = lastPtr (lastPtr prev xs) ys := by
  induction xs generalizing prev with
  | nil => rfl
  | cons x xs ih => exact ih _

theorem lastPtr_eq (xs : List (Ptr × α)) : lastPtr none xs = (xs.map Prod.fst).getLast? := by
  rcases List.eq_nil_or_concat' xs with rfl | ⟨ys, y, rfl⟩
  · rfl
  · simp

/-- The items `xs` stand in memory one behind the other, between `prev` and `nxt`. -/
def Seg (mem : Ptr → Option (ObjItem α)) (prev : Option Ptr) :
    List (Ptr × α) → Option Ptr → Prop
  | [], _ => True
  | x :: xs, nxt =>
    mem x.1 = some ⟨x.2, firstPtr xs nxt, prev⟩ ∧ Seg mem (some x.1) xs nxt

theorem Seg.append {mem : Ptr → Option (ObjItem α)} {prev nxt : Option Ptr}
    {xs ys : List (Ptr × α)} :
    Seg mem prev (xs ++ ys) nxt ↔
      Seg mem prev xs (firstPtr ys nxt) ∧ Seg mem (lastPtr prev xs) ys nxt := by
  induction xs generalizing prev with
  | nil => simp [Seg]
  | cons x xs ih => simp [Seg, ih, firstPtr_append, and_assoc]

/-- A segment only depends on the memory at its own addresses. -/
theorem Seg.frame {mem mem' : Ptr → Option (ObjItem α)} {prev nxt : Option Ptr}
    {xs : List (Ptr × α)} (h : Seg mem prev xs nxt) (hm : ∀ x ∈ xs, mem' x.1 = mem x.1) :
    Seg mem' prev xs nxt := by
  induction xs generalizing prev with
  | nil => trivial
  | cons x xs ih =>
    exact ⟨(hm x (by simp)).trans h.1, ih h.2 fun y hy => hm y (by simp [hy])⟩

/-- The items that following `next` visits, at most `n` of them. -/
def walk (mem : Ptr → Option (ObjItem α)) : ℕ → Option Ptr → List (Ptr × α)
  | 0, _ => []
  | _ + 1, none => []
  | n + 1, some p =>
    match mem p with
    | none => []
    | some it => (p, it.val) :: walk mem n it.next

/-- The items of a list in order. -/
def ObjList.items (l : ObjList α) : List (Ptr × α) := walk l.mem l.counter l.start

theorem Seg.walk_eq {mem : Ptr → Option (ObjItem α)} {prev : Option Ptr} {xs : List (Ptr × α)}
    (h : Seg mem prev xs none) : walk mem xs.length (firstPtr xs none) = xs := by
  induction xs generalizing prev with
  | nil => rfl
  | cons x xs ih =>
    rw [firstPtr_cons, List.length_cons, walk, h.1]
    dsimp only
    rw [ih h.2]

/-- Following `next` from `start` visits exactly the items `xs`, `prev` is the inverse of `next`
and the counter counts them. Nothing is said about `stop`. -/
structure Linked (l : ObjList α) (xs : List (Ptr × α)) : Prop where
  seg : Seg l.mem none xs none
  start : l.start = firstPtr xs none
  counter : l.counter = xs.length
  nodup : (xs.map Prod.fst).Nodup
  fresh : ∀ x ∈ xs, x.1 < l.fresh

theorem Linked.items_eq {l : ObjList α} {xs : List (Ptr × α)} (h : Linked l xs) : l.items = xs := by
  rw [ObjList.items, h.counter, h.start, h.seg.walk_eq]

theorem Linked.unique {l : ObjList α} {xs ws : List (Ptr × α)} (h : Linked l xs)
    (h' : Linked l ws) : xs = ws := h.items_eq.symm.trans h'.items_eq

/-- A well-formed list of the items `xs`: linked, with `stop` at the last item. -/
structure Holds (l : ObjList α) (xs : List (Ptr × α)) : Prop extends Linked l xs where
  stop : l.stop = lastPtr none xs

theorem holds_init : Holds (listInit : ObjList α) [] :=
  ⟨⟨trivial, rfl, rfl, List.nodup_nil, by simp⟩, rfl⟩

section Items
variable {l : ObjList α} {ys zs : List (Ptr × α)} {p : Ptr} {v : α}

theorem Linked.mem_eq (h : Linked l (ys ++ (p, v) :: zs)) :
    l.mem p = some ⟨v, firstPtr zs none, lastPtr none ys⟩ := (Seg.append.mp h.seg).2.1

/-- What a loop reads from the item at a known place of the chain. -/
theorem Linked.item_eq (h : Linked l (ys ++ (p, v) :: zs)) :
    l.item (some p) = .ok ⟨v, firstPtr zs none, lastPtr none ys⟩ := by
  simp [ObjList.item, h.mem_eq]

theorem Linked.next_eq (h : Linked l (ys ++ (p, v) :: zs)) :
    listNext l (some p) = .ok (firstPtr zs none) := by
  simp [listNext, h.item_eq]

theorem ne_of_nodup {x : Ptr × α} (hn : ((ys ++ x :: zs).map Prod.fst).Nodup) :
    (∀ y ∈ ys, y.1 ≠ x.1) ∧ ∀ z ∈ zs, z.1 ≠ x.1 := by
  rw [List.map_append, List.map_cons, List.nodup_append] at hn
  obtain ⟨-, hz, hd⟩ := hn
  refine ⟨fun y hy => hd y.1 (List.mem_map_of_mem hy) x.1 (by simp), fun z hz' he => ?_⟩
  exact (List.nodup_cons.mp hz).1 (List.mem_map.mpr ⟨z, hz', he⟩)

theorem Linked.not_mem (h : Linked l (ys ++ (p, v) :: zs)) :
    (∀ x ∈ ys, x.1 ≠ p) ∧ ∀ x ∈ zs, x.1 ≠ p := ne_of_nodup h.nodup

end Items

/-! ## The operations on linked items -/

theorem Linked.write_eq {l : ObjList α} {ys zs : List (Ptr × α)} {p : Ptr} {v : α}
    (h : Linked l (ys ++ (p, v) :: zs)) (f : ObjItem α → ObjItem α) :
    l.write (some p) f = .ok { l with
      mem := Function.update l.mem p (some (f ⟨v, firstPtr zs none, lastPtr none ys⟩)) } := by
  simp [ObjList.write, h.mem_eq]

/-- Assign to fields of the item behind a pointer; without an item the list is `l₀`. -/
def ObjList.relink (l : ObjList α) (p : Option Ptr) (f : ObjItem α → ObjItem α)
    (l₀ : ObjList α) : Exec (ObjList α) :=
  match p with
  | none => .ok l₀
  | some q => l.write (some q) f

theorem listIns_eq {l : ObjList α} {here : Option Ptr} {v : α} (hc : ¬ l.counter ≤ 1) :
    listIns l here v = (do
      let it ← l.item here
      let l₁ ← (l.alloc ⟨v, it.next, here⟩).write here fun x => { x with next := some l.fresh }
      let l₂ ← l₁.relink it.next (fun x => { x with prev := some l.fresh }) l₁
      return ({ l₂ with counter := l.counter + 1 }, l.fresh)) := by
  rw [listIns, if_neg hc]
  cases l.item here with
  | error e => rfl
  | ok it =>
    rw [exec_ok_bind, exec_ok_bind]
    cases it.next <;> rfl

theorem listDel_eq {l : ObjList α} {p : Ptr} (hc : l.counter ≠ 0) :
    listDel l (some p) = (do
      let it ← l.item (some p)
      let l₁ ← l.relink it.prev (fun x => { x with next := it.next }) { l with start := it.next }
      let l₂ ← l₁.relink it.next (fun x => { x with prev := it.prev }) { l₁ with stop := it.prev }
      return ({ l₂ with counter := l.counter - 1, mem := Function.update l₂.mem p none },
        it.next)) := by
  rw [listDel, if_neg hc]
  cases l.item (some p) with
  | error e => rfl
  | ok it =>
    rw [exec_ok_bind, exec_ok_bind]
    cases it.prev <;> cases it.next <;> rfl

section Relink
variable {l : ObjList α} {ys zs : List (Ptr × α)} {nxt prv : Option Ptr}

/-- Another `next` in the last of the items `ys`. -/
theorem Seg.setNext (hy : Seg l.mem none ys nxt) (hz : Seg l.mem prv zs none)
    (hn : ((ys ++ zs).map Prod.fst).Nodup) (hne : ys ≠ []) (nxt' : Option Ptr) :
    ∃ mem', l.write (lastPtr none ys) (fun it => { it with next := nxt' }) =
        .ok { l with mem := mem' } ∧
      Seg mem' none ys nxt' ∧ Seg mem' prv zs none ∧
      ∀ q, (∀ y ∈ ys, y.1 ≠ q) → mem' q = l.mem q := by
  obtain ⟨xs, x, rfl⟩ := (List.eq_nil_or_concat' ys).resolve_left hne
  rw [List.append_assoc, List.singleton_append] at hn
  obtain ⟨hxs, hzs⟩ := ne_of_nodup hn
  obtain ⟨hseg, hx, -⟩ := Seg.append.mp hy
  refine ⟨Function.update l.mem x.1 (some ⟨x.2, nxt', lastPtr none xs⟩), ?_,
    Seg.append.mpr ⟨hseg.frame fun y hy => ?_, ?_, trivial⟩, hz.frame fun z hz => ?_,
    fun q hq => ?_⟩
  · simp [ObjList.write, hx]
  · exact Function.update_of_ne (hxs y hy) _ _
  · exact Function.update_self _ _ _
  · exact Function.update_of_ne (hzs z hz) _ _
  · exact Function.update_of_ne (hq x (by simp)).symm _ _

/-- Another `prev` in the first of the items `zs`. -/
theorem Seg.setPrev (hy : Seg l.mem none ys nxt) (hz : Seg l.mem prv zs none)
    (hn : ((ys ++ zs).map Prod.fst).Nodup) (hne : zs ≠ []) (prv' : Option Ptr) :
    ∃ mem', l.write (firstPtr zs none) (fun it => { it with prev := prv' }) =
        .ok { l with mem := mem' } ∧
      Seg mem' none ys nxt ∧ Seg mem' prv' zs none ∧
      ∀ q, (∀ z ∈ zs, z.1 ≠ q) → mem' q = l.mem q := by
  obtain ⟨x, xs, rfl⟩ := List.exists_cons_of_ne_nil hne
  obtain ⟨hys, hxs⟩ := ne_of_nodup hn
  obtain ⟨hx, hseg⟩ := hz
  refine ⟨Function.update l.mem x.1 (some ⟨x.2, firstPtr xs none, prv'⟩), ?_,
    hy.frame fun y hy => ?_, ⟨?_, hseg.frame fun z hz => ?_⟩, fun q hq => ?_⟩
  · simp [ObjList.write, hx]
  · exact Function.update_of_ne (hys y hy) _ _
  · exact Function.update_self _ _ _
  · exact Function.update_of_ne (hxs z hz) _ _
  · exact Function.update_of_ne (hq x (by simp)).symm _ _

end Relink

/-- Assigning a payload keeps the chain and changes that payload only. -/
theorem Linked.setVal {l : ObjList α} {ys zs : List (Ptr × α)} {p : Ptr} {v : α}
    (h : Linked l (ys ++ (p, v) :: zs)) (w : α) :
    ∃ l', l.setVal (some p) w = .ok l' ∧ Linked l' (ys ++ (p, w) :: zs) ∧ l'.stop = l.stop := by
  obtain ⟨hy, hz⟩ := h.not_mem
  refine ⟨_, h.write_eq _, ⟨?_, ?_, ?_, ?_, ?_⟩, rfl⟩
  · obtain ⟨hsy, -, hsz⟩ := Seg.append.mp h.seg
    refine Seg.append.mpr ⟨hsy.frame fun x hx => ?_, by simp, hsz.frame fun x hx => ?_⟩
    · exact Function.update_of_ne (hy x hx) _ _
    · exact Function.update_of_ne (hz x hx) _ _
  · simpa [firstPtr_append] using h.start
  · simpa using h.counter
  · simpa using h.nodup
  · intro x hx
    have hf := h.fresh
    simp only [List.mem_append, List.mem_cons] at hx hf
    rcases hx with hx | rfl | hx
    · exact hf x (.inl hx)
    · exact hf (p, v) (.inr (.inl rfl))
    · exact hf x (.inr (.inr hx))

theorem Holds.setVal {l : ObjList α} {ys zs : List (Ptr × α)} {p : Ptr} {v : α}
    (h : Holds l (ys ++ (p, v) :: zs)) (w : α) :
    ∃ l', l.setVal (some p) w = .ok l' ∧ Holds l' (ys ++ (p, w) :: zs) := by
  obtain ⟨l', hl', hlink, hstop⟩ := h.toLinked.setVal w
  exact ⟨l', hl', hlink, by rw [hstop, h.stop]; simp⟩

theorem Linked.nil_iff {l : ObjList α} {xs : List (Ptr × α)} (h : Linked l xs) :
    l.start = none ↔ xs = [] := by
  rw [h.start]
  cases xs <;> simp

theorem nodup_fresh {xs : List (Ptr × α)} {n : Ptr} (hf : ∀ x ∈ xs, x.1 < n) :
    ∀ x ∈ xs, x.1 ≠ n := fun x hx => Nat.ne_of_lt (hf x hx)

theorem Linked.fresh_cons {l : ObjList α} {ys zs : List (Ptr × α)} {w : α}
    (h : Linked l (ys ++ zs)) :
    ((ys ++ (l.fresh, w) :: zs).map Prod.fst).Nodup ∧
      ∀ x ∈ ys ++ (l.fresh, w) :: zs, x.1 < l.fresh + 1 := by
  constructor
  · rw [List.map_append, List.map_cons, List.nodup_middle, ← List.map_append, List.nodup_cons]
    refine ⟨fun hmem => ?_, h.nodup⟩
    obtain ⟨x, hx, he⟩ := List.mem_map.mp hmem
    exact nodup_fresh h.fresh x hx he
  · intro x hx
    have hf := h.fresh
    simp only [List.mem_append, List.mem_cons] at hx hf
    rcases hx with hx | rfl | hx
    · exact Nat.lt_succ_of_lt (hf x (.inl hx))
    · exact Nat.lt_succ_self _
    · exact Nat.lt_succ_of_lt (hf x (.inr hx))

/-- A new item leaves the items of the list where they are. -/
theorem Linked.alloc {l : ObjList α} {xs : List (Ptr × α)} (h : Linked l xs) (it : ObjItem α) :
    Seg (l.alloc it).mem none xs none :=
  h.seg.frame fun x hx => Function.update_of_ne (nodup_fresh h.fresh x hx) _ _

/-- `list_put` appends its payload at a fresh address. -/
theorem Holds.put {l : ObjList α} {xs : List (Ptr × α)} (h : Holds l xs) (v : α) :
    ∃ l', listPut l v = .ok (l', l.fresh) ∧ Holds l' (xs ++ [(l.fresh, v)]) := by
  have hlink : Linked l (xs ++ []) := by
    rw [List.append_nil]
    exact h.toLinked
  obtain ⟨hnodup, hfresh⟩ := hlink.fresh_cons (w := v)
  by_cases hnil : xs = []
  · subst hnil
    rw [listPut, if_pos (h.nil_iff.mpr rfl)]
    refine ⟨_, rfl, ⟨⟨?_, rfl, ?_, hnodup, hfresh⟩, rfl⟩⟩
    · simp [ObjList.alloc, Seg]
    · simpa using h.counter
  · have hitem : Seg (l.alloc ⟨v, none, l.stop⟩).mem l.stop [(l.fresh, v)] none :=
      ⟨Function.update_self _ _ _, trivial⟩
    obtain ⟨mem', hwrite, hseg, hlast, -⟩ :=
      (h.toLinked.alloc _).setNext hitem hnodup hnil (some l.fresh)
    rw [← h.stop] at hwrite
    have hput : listPut l v = .ok (⟨l.start, some l.fresh, l.counter + 1, mem', l.fresh + 1⟩,
        l.fresh) := by
      rw [listPut, if_neg (mt h.nil_iff.mp hnil)]
      dsimp only
      rw [hwrite]
      rfl
    rw [h.stop] at hlast
    refine ⟨_, hput, ⟨⟨Seg.append.mpr ⟨hseg, hlast⟩, ?_, ?_, hnodup, hfresh⟩, ?_⟩⟩
    · rw [firstPtr_append, h.start]
      obtain ⟨x, xs, rfl⟩ := List.exists_cons_of_ne_nil hnil
      rfl
    · simpa using h.counter
    · simp

/-- `list_ins` on two or more items links the payload right behind the given item and never
touches `stop`, not even behind the last item. -/
theorem Linked.ins {l : ObjList α} {ys zs : List (Ptr × α)} {p : Ptr} {v : α}
    (h : Linked l (ys ++ (p, v) :: zs)) (hc : 2 ≤ l.counter) (w : α) :
    ∃ l', listIns l (some p) w = .ok (l', l.fresh) ∧
      Linked l' (ys ++ (p, v) :: (l.fresh, w) :: zs) ∧ l'.stop = l.stop := by
  have hsplit : ys ++ (p, v) :: zs = (ys ++ [(p, v)]) ++ zs := by simp
  have hlast : lastPtr none (ys ++ [(p, v)]) = some p := by simp
  have hlink : Linked l ((ys ++ [(p, v)]) ++ zs) := hsplit ▸ h
  have hnew := nodup_fresh hlink.fresh
  obtain ⟨hnodup, hfresh⟩ := hlink.fresh_cons (w := w)
  -- The new item already points to its neighbours when they are linked to it.
  let l₁ := l.alloc ⟨w, firstPtr zs none, some p⟩
  obtain ⟨hys, hzs⟩ := Seg.append.mp (hlink.alloc ⟨w, firstPtr zs none, some p⟩)
  rw [hlast] at hzs
  obtain ⟨mem₁, hnext, hys₁, hzs₁, hout₁⟩ :=
    hys.setNext (l := l₁) hzs hlink.nodup (by simp) (some l.fresh)
  rw [hlast] at hnext
  have hprev : ∃ mem₂, ObjList.relink { l₁ with mem := mem₁ } (firstPtr zs none)
        (fun it => { it with prev := some l.fresh }) { l₁ with mem := mem₁ } =
          .ok { l₁ with mem := mem₂ } ∧
      Seg mem₂ none (ys ++ [(p, v)]) (some l.fresh) ∧ Seg mem₂ (some l.fresh) zs none ∧
      mem₂ l.fresh = mem₁ l.fresh := by
    by_cases hnil : zs = []
    · subst hnil
      exact ⟨mem₁, rfl, hys₁, trivial, rfl⟩
    · obtain ⟨mem₂, hprev, hys₂, hzs₂, hout₂⟩ :=
        Seg.setPrev (l := { l₁ with mem := mem₁ }) hys₁ hzs₁ hlink.nodup hnil (some l.fresh)
      have hout := hout₂ l.fresh fun z hz => hnew z (List.mem_append_right _ hz)
      obtain ⟨z, zs, rfl⟩ := List.exists_cons_of_ne_nil hnil
      exact ⟨mem₂, hprev, hys₂, hzs₂, hout⟩
  obtain ⟨mem₂, hprev, hys₂, hzs₂, hout₂⟩ := hprev
  have hins : listIns l (some p) w = .ok (⟨l.start, l.stop, l.counter + 1, mem₂, l.fresh + 1⟩,
      l.fresh) := by
    rw [listIns_eq (by omega), h.item_eq, exec_ok_bind]
    dsimp only
    rw [hnext, exec_ok_bind, hprev]
    rfl
  have hitem : mem₂ l.fresh = some ⟨w, firstPtr zs none, some p⟩ := by
    rw [hout₂, hout₁ l.fresh fun y hy => hnew y (List.mem_append_left _ hy)]
    exact Function.update_self _ _ _
  have hall : ys ++ (p, v) :: (l.fresh, w) :: zs = (ys ++ [(p, v)]) ++ (l.fresh, w) :: zs := by
    simp
  rw [hall]
  refine ⟨_, hins, ⟨Seg.append.mpr ⟨hys₂, ?_, hzs₂⟩, ?_, ?_, hnodup, hfresh⟩, rfl⟩
  · rw [hlast]
    exact hitem
  · rw [← hall, firstPtr_append, h.start, firstPtr_append]
    rfl
  · have hcount := hlink.counter
    rw [List.length_append] at hcount ⊢
    dsimp only
    rw [List.length_cons]
    omega

/-- `list_ins` on at most one item is `list_put`, which keeps `stop` right. -/
theorem Holds.ins_short {l : ObjList α} {xs : List (Ptr × α)} (h : Holds l xs)
    (hc : l.counter ≤ 1) (here : Option Ptr) (w : α) :
    ∃ l', listIns l here w = .ok (l', l.fresh) ∧ Holds l' (xs ++ [(l.fresh, w)]) := by
  rw [listIns, if_pos hc]
  exact h.put w

theorem Linked.erase_items {l : ObjList α} {ys zs : List (Ptr × α)} {p : Ptr} {v : α}
    (h : Linked l (ys ++ (p, v) :: zs)) :
    ((ys ++ zs).map Prod.fst).Nodup ∧ (∀ x ∈ ys ++ zs, x.1 < l.fresh) ∧
      l.counter - 1 = (ys ++ zs).length := by
  refine ⟨?_, fun x hx => h.fresh x ?_, ?_⟩
  · have hn := h.nodup
    rw [List.map_append, List.map_cons, List.nodup_middle, ← List.map_append] at hn
    exact (List.nodup_cons.mp hn).2
  · rw [List.mem_append] at hx
    rw [List.mem_append, List.mem_cons]
    exact hx.imp id .inr
  · have := h.counter
    simp only [List.length_append, List.length_cons] at this ⊢
    omega

section Unlink
variable {l : ObjList α} {ys zs : List (Ptr × α)} {p : Ptr} {v : α}

/-- `list_del` first links the item in front to the one behind. -/
theorem Holds.del_next (h : Holds l (ys ++ (p, v) :: zs)) :
    ∃ l', l.relink (lastPtr none ys) (fun it => { it with next := firstPtr zs none })
        { l with start := firstPtr zs none } = .ok l' ∧
      Seg l'.mem none ys (firstPtr zs none) ∧ Seg l'.mem (some p) zs none ∧
      l'.start = firstPtr (ys ++ zs) none ∧ l'.stop = l.stop ∧ l'.fresh = l.fresh := by
  obtain ⟨hys, -, hzs⟩ := Seg.append.mp h.seg
  have hnodup := h.toLinked.erase_items.1
  have hstart := h.start
  by_cases hnil : ys = []
  · subst hnil
    exact ⟨_, rfl, trivial, hzs, rfl, rfl, rfl⟩
  · obtain ⟨mem', hwrite, hys', hzs', -⟩ := hys.setNext hzs hnodup hnil (firstPtr zs none)
    obtain ⟨xs, x, rfl⟩ := (List.eq_nil_or_concat' ys).resolve_left hnil
    rw [lastPtr_append] at hwrite ⊢
    refine ⟨_, hwrite, hys', hzs', ?_, rfl, rfl⟩
    rw [hstart, firstPtr_append, firstPtr_append]
    cases xs <;> rfl

/-- Then it links the item behind to the one in front. -/
theorem Seg.del_prev (hy : Seg l.mem none ys (firstPtr zs none)) (hz : Seg l.mem (some p) zs none)
    (hn : ((ys ++ zs).map Prod.fst).Nodup) (hstop : l.stop = lastPtr (some p) zs) :
    ∃ l', l.relink (firstPtr zs none) (fun it => { it with prev := lastPtr none ys })
        { l with stop := lastPtr none ys } = .ok l' ∧
      Seg l'.mem none (ys ++ zs) none ∧ l'.start = l.start ∧
      l'.stop = lastPtr none (ys ++ zs) ∧ l'.fresh = l.fresh := by
  by_cases hnil : zs = []
  · subst hnil
    rw [List.append_nil]
    exact ⟨_, rfl, hy, rfl, rfl, rfl⟩
  · obtain ⟨mem', hwrite, hys', hzs', -⟩ := hy.setPrev hz hn hnil (lastPtr none ys)
    obtain ⟨x, xs, rfl⟩ := List.exists_cons_of_ne_nil hnil
    refine ⟨_, hwrite, Seg.append.mpr ⟨hys', hzs'⟩, rfl, ?_, rfl⟩
    rw [lastPtr_append]
    exact hstop

/-- `list_del` removes just the given item, whatever its position, and returns its successor. -/
theorem Holds.del (h : Holds l (ys ++ (p, v) :: zs)) :
    ∃ l', listDel l (some p) = .ok (l', firstPtr zs none) ∧ Holds l' (ys ++ zs) := by
  obtain ⟨hnodup, hfresh, hcount⟩ := h.toLinked.erase_items
  have hc : l.counter ≠ 0 := by
    rw [h.counter]
    simp
  have hstop : l.stop = lastPtr (some p) zs := by
    rw [h.stop, lastPtr_append]
    rfl
  obtain ⟨l₁, hnext, hys, hzs, hstart₁, hstop₁, hfresh₁⟩ := h.del_next
  obtain ⟨l₂, hprev, hseg, hstart₂, hstop₂, hfresh₂⟩ :=
    Seg.del_prev hys hzs hnodup (hstop₁.trans hstop)
  have hdel : listDel l (some p) = .ok ({ l₂ with
      counter := l.counter - 1, mem := Function.update l₂.mem p none }, firstPtr zs none) := by
    rw [listDel_eq hc, h.toLinked.item_eq, exec_ok_bind]
    dsimp only
    rw [hnext, exec_ok_bind, hprev]
    rfl
  have hout : ∀ x ∈ ys ++ zs, x.1 ≠ p := by
    obtain ⟨hy, hz⟩ := h.toLinked.not_mem
    exact List.forall_mem_append.mpr ⟨hy, hz⟩
  refine ⟨_, hdel, ⟨⟨hseg.frame fun x hx => Function.update_of_ne (hout x hx) _ _, ?_, hcount,
    hnodup, fun x hx => ?_⟩, hstop₂⟩⟩
  · exact hstart₂.trans hstart₁
  · exact Nat.lt_of_lt_of_eq (hfresh x hx) (hfresh₂.trans hfresh₁).symm

end Unlink

/-! ## Addresses -/

section Fresh
variable {l l' : ObjList α} {p q : Option Ptr} {r : Ptr}

theorem write_fresh {f : ObjItem α → ObjItem α} (h : l.write p f = .ok l') :
    l'.fresh = l.fresh := by
  cases p with
  | none => cases h
  | some p =>
    rw [ObjList.write] at h
    cases hm : l.mem p with
    | none =>
      rw [hm] at h
      cases h
    | some it =>
      rw [hm] at h
      cases h
      rfl

theorem setVal_fresh {v : α} (h : l.setVal p v = .ok l') : l'.fresh = l.fresh := write_fresh h

theorem listPut_fresh {v : α} (h : listPut l v = .ok (l', r)) : l'.fresh = l.fresh + 1 := by
  rw [listPut] at h
  by_cases hs : l.start = none
  · rw [if_pos hs] at h
    cases h
    rfl
  · rw [if_neg hs] at h
    obtain ⟨l₁, hw, hl⟩ := exec_bind_eq_ok.mp h
    cases hl
    exact write_fresh hw

theorem relink_fresh {l₀ : ObjList α} {f : ObjItem α → ObjItem α} (h₀ : l₀.fresh = l.fresh)
    (h : l.relink p f l₀ = .ok l') : l'.fresh = l.fresh := by
  cases p with
  | none =>
    cases h
    exact h₀
  | some q =>
    rw [ObjList.relink] at h
    exact write_fresh h

/-- `list_del` never gives an address back to the allocator. -/
theorem listDel_fresh (h : listDel l p = .ok (l', q)) : l'.fresh = l.fresh := by
  cases p with
  | none =>
    cases h
    rfl
  | some p =>
    by_cases hc : l.counter = 0
    · rw [listDel, if_pos hc] at h
      cases h
      rfl
    · rw [listDel_eq hc] at h
      obtain ⟨it, -, h⟩ := exec_bind_eq_ok.mp h
      obtain ⟨l₁, h₁, h⟩ := exec_bind_eq_ok.mp h
      obtain ⟨l₂, h₂, h⟩ := exec_bind_eq_ok.mp h
      cases h
      exact (relink_fresh (by rfl) h₂).trans (relink_fresh (by rfl) h₁)

end Fresh
end Masala.Container
