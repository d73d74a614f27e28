import Masala.Routing.Cells

/-!
# Splitting a bucket

`bckt_split` in terms of cells: the new id is the middle of the block between
the id of the bucket and the id behind it, the new bucket stands right behind
the old one, and every node of the old bucket goes to the bucket that the
search finds for it now.
-/
namespace Masala.Routing
open Library Container

section Split
variable {t : Table} {cs₁ cs₂ : List Cell} {c : Cell}

/-! ## The new id -/

/-- The end of the block of a cell, as `bckt_compute_id` sees it: a bucket at `stop` has no next
one and ends with the id space. -/
def blockEnd (stop : Option Ptr) (c : Cell) (cs₂ : List Cell) : ℕ :=
  if stop = some c.ptr then 2 ^ 160 else nextStart Prod.snd (slots cs₂) (2 ^ 160)

theorem bitOfNext_eq (h : Sound t) (hc : cells t = cs₁ ++ c :: cs₂)
    (hlast : cs₂ = [] → t.stop = some c.ptr) :
    ∃ s, bitOfNext t (some c.ptr) = .ok s ∧
      SignificantBit 160 (blockEnd t.stop c cs₂) s := by
  by_cases hstop : t.stop = some c.ptr
  · refine ⟨-1, ?_, .inl ⟨?_, rfl⟩⟩
    · rw [bitOfNext, if_neg (by simp [hstop]), exec_pure]
    · rw [blockEnd, if_pos hstop]
  · cases cs₂ with
    | nil => exact absurd (hlast rfl) hstop
    | cons d cs₂ =>
      have hd : cells t = (cs₁ ++ [c]) ++ d :: cs₂ := by simp [hc]
      obtain ⟨b, prev, hitem, hid, -⟩ := h.item_eq hd
      have hnext : headPtr (d :: cs₂) = some d.ptr := rfl
      refine ⟨bcktSignificantBit d.id, ?_, ?_⟩
      · rw [bitOfNext, if_pos (Ne.symm hstop), h.next_eq hc, exec_ok_bind, hnext, hitem,
          exec_ok_bind, hid, exec_pure]
      · rw [blockEnd, if_neg hstop]
        exact bcktSignificantBit_spec d.id

/-- The new id where the larger significant bit is that of a block of size `2 ^ k`. -/
theorem bcktComputeId_of_bit (h : Sound t) (hc : cells t = cs₁ ++ c :: cs₂) {s : ℤ} {k : ℕ}
    (hs : bitOfNext t (some c.ptr) = .ok s) (hk : k ≤ 160) (hd : 2 ^ k ∣ c.id.val)
    (hmax : max (bcktSignificantBit c.id) s = 160 - 1 - k) :
    (k = 0 ∧ bcktComputeId t (some c.ptr) = .ok none) ∨
      ∃ j id, k = j + 1 ∧ bcktComputeId t (some c.ptr) = .ok (some id) ∧
        id.val = c.id.val + 2 ^ j := by
  obtain ⟨b, prev, hitem, hid, -⟩ := h.item_eq hc
  have hmax' : (if bcktSignificantBit c.id ≥ s then bcktSignificantBit c.id else s) =
      160 - 1 - k := by
    split <;> omega
  have hcomp : bcktComputeId t (some c.ptr) =
      if (160 - k : ℤ) ≥ 160 then .ok none else .ok (some (c.id.setBit (160 - k : ℤ).toNat)) := by
    have hbit : (160 - 1 - k + 1 : ℤ) = 160 - k := by omega
    rw [bcktComputeId, hitem, exec_ok_bind, hs]
    simp only [exec_ok_bind, hid, hmax', hbit, exec_pure, SHA_DIGEST_LENGTH]
    rfl
  cases k with
  | zero => exact .inl ⟨rfl, by rw [hcomp, if_pos (by simp)]⟩
  | succ j =>
    have hbit : (160 - (j + 1 : ℕ) : ℤ).toNat = 159 - j := by omega
    refine .inr ⟨j, c.id.setBit (159 - j), rfl, ?_, ?_⟩
    · rw [hcomp, if_neg (by omega), hbit]
    · have he : 160 - (159 - j) = j + 1 := by omega
      have hj : 159 - (159 - j) = j := by omega
      rw [c.id.setBit_val (by omega) (he ▸ hd), hj]

/-- The id of the new bucket halves the block; a block of size one cannot be halved. -/
theorem bcktComputeId_eq (h : Sound t) (hc : cells t = cs₁ ++ c :: cs₂)
    (hlast : cs₂ = [] → t.stop = some c.ptr) {k : ℕ}
    (hk : Block k c.id.val (blockEnd t.stop c cs₂)) (hend : blockEnd t.stop c cs₂ ≤ 2 ^ 160) :
    (k = 0 ∧ bcktComputeId t (some c.ptr) = .ok none) ∨
      ∃ j id, k = j + 1 ∧ bcktComputeId t (some c.ptr) = .ok (some id) ∧
        id.val = c.id.val + 2 ^ j := by
  obtain ⟨s, hs, hsig⟩ := bitOfNext_eq h hc hlast
  exact bcktComputeId_of_bit h hc hs ((Nat.pow_le_pow_iff_right (by omega)).mp (hk.le.trans hend))
    hk.2 (hk.significantBit hend (bcktSignificantBit_spec c.id) hsig)

/-! ## The new bucket -/

/-- `list_ins` puts the new bucket right behind the old one. `stop` follows only if the old bucket
was alone. -/
theorem Sound.ins (h : Sound t) (hc : cells t = cs₁ ++ c :: cs₂)
    (hstop : cs₁ = [] → cs₂ = [] → t.stop = some c.ptr) (id : Id) :
    ∃ t', listIns t (some c.ptr) ⟨id, listInit⟩ = .ok (t', t.fresh) ∧ Sound t' ∧
      cells t' = cs₁ ++ c :: ⟨t.fresh, id, []⟩ :: cs₂ ∧
      t'.stop = if cs₁ = [] ∧ cs₂ = [] then some t.fresh else t.stop := by
  obtain ⟨xs₁, b, xs₂, hitems, hxs₁, hxs₂, hid, hholds⟩ := h.bucket hc
  have hlinked := h.linked
  rw [hitems] at hlinked
  have hcell : cellOf (c.ptr, b) = c := by
    rw [cellOf, hholds.items_eq, hid]
  have hnew : cellOf (t.fresh, ⟨id, listInit⟩) = ⟨t.fresh, id, []⟩ := by
    rw [cellOf, holds_init.items_eq]
  have hsound : ∀ {t' : Table}, Linked t' (xs₁ ++ (c.ptr, b) :: (t.fresh, ⟨id, listInit⟩) :: xs₂) →
      Sound t' ∧ cells t' = cs₁ ++ c :: ⟨t.fresh, id, []⟩ :: cs₂ := by
    intro t' hl
    refine ⟨Sound.of_linked hl fun x hx => ?_, ?_⟩
    · simp only [List.mem_append, List.mem_cons] at hx
      rcases hx with hx | rfl | rfl | hx
      · exact ⟨_, h.nodes x (by simp [hitems, hx])⟩
      · exact ⟨_, hholds⟩
      · exact ⟨[], holds_init⟩
      · exact ⟨_, h.nodes x (by simp [hitems, hx])⟩
    · rw [cells, hl.items_eq, List.map_append, List.map_cons, List.map_cons, hxs₁, hxs₂, hcell,
        hnew]
  by_cases hone : t.counter ≤ 1
  · have hlen : xs₁ = [] ∧ xs₂ = [] := by
      have hcount := hlinked.counter
      rw [List.length_append, List.length_cons] at hcount
      constructor
      · exact List.length_eq_zero_iff.mp (by omega)
      · exact List.length_eq_zero_iff.mp (by omega)
    obtain ⟨rfl, rfl⟩ := hlen
    obtain rfl : [] = cs₁ := hxs₁
    obtain rfl : [] = cs₂ := hxs₂
    have hholdsT : Holds t [(c.ptr, b)] := ⟨hlinked, hstop rfl rfl⟩
    obtain ⟨t', hput, hholds'⟩ := hholdsT.put ⟨id, listInit⟩
    obtain ⟨hs, hcs⟩ := hsound hholds'.toLinked
    refine ⟨t', by rw [listIns, if_pos hone, hput], hs, hcs, ?_⟩
    rw [hholds'.stop]
    simp
  · obtain ⟨t', hins, hlinked', hst⟩ := hlinked.ins (by omega) ⟨id, listInit⟩
    obtain ⟨hs, hcs⟩ := hsound hlinked'
    refine ⟨t', hins, hs, hcs, ?_⟩
    rw [hst, if_neg]
    rintro ⟨rfl, rfl⟩
    rw [List.map_eq_nil_iff] at hxs₁ hxs₂
    have hcount := hlinked.counter
    rw [hxs₁, hxs₂] at hcount
    exact hone hcount.le

/-! ## The nodes -/

/-- `c'` is `c` with those of the nodes `ns` behind its own that `sel` gives to it. -/
structure Receives (sel : Node → Option Ptr) (ns : List Node) (c c' : Cell) : Prop where
  ptr : c'.ptr = c.ptr
  id : c'.id = c.id
  nodes : ∃ ms, c'.nodes = c.nodes ++ ms ∧
    ms.map Prod.snd = ns.filter fun n => sel n = some c.ptr

theorem Receives.trans {sel : Node → Option Ptr} {ns ms : List Node} {c c' c'' : Cell}
    (h : Receives sel ns c c') (h' : Receives sel ms c' c'') : Receives sel (ns ++ ms) c c'' := by
  obtain ⟨ps, hps, hfil⟩ := h.nodes
  obtain ⟨qs, hqs, hfil'⟩ := h'.nodes
  refine ⟨h'.ptr.trans h.ptr, h'.id.trans h.id, ps ++ qs, ?_, ?_⟩
  · rw [hqs, hps, List.append_assoc]
  · rw [List.map_append, hfil, hfil', h.ptr, List.filter_append]

theorem Receives.of_none {sel : Node → Option Ptr} {ns : List Node} {c : Cell}
    (h : ∀ n ∈ ns, sel n ≠ some c.ptr) : Receives sel ns c c := by
  refine ⟨rfl, rfl, [], (List.append_nil _).symm, ?_⟩
  rw [List.map_nil, eq_comm, List.filter_eq_nil_iff]
  simpa using h

theorem Receives.eq_of_none {sel : Node → Option Ptr} {ns : List Node} {c c' : Cell}
    (h : Receives sel ns c c') (hn : ∀ n ∈ ns, sel n ≠ some c.ptr) : c' = c := by
  obtain ⟨hptr, hid, ms, hms, hfil⟩ := h
  have hnil : (ns.filter fun n => sel n = some c.ptr) = [] := by
    rw [List.filter_eq_nil_iff]
    simpa using hn
  rw [hnil, List.map_eq_nil_iff] at hfil
  rw [hfil, List.append_nil] at hms
  cases c
  cases c'
  simp_all

/-- An empty cell receives the nodes that select it. -/
theorem Receives.nodes_eq {sel : Node → Option Ptr} {ns : List Node} {c c' : Cell}
    (h : Receives sel ns c c') (hempty : c.nodes = []) :
    c'.nodes.map Prod.snd = ns.filter fun n => sel n = some c.ptr := by
  obtain ⟨ms, hms, hfil⟩ := h.nodes
  rw [hms, hempty, List.nil_append, hfil]

theorem Receives.selected {sel : Node → Option Ptr} {ns : List Node} {c c' : Cell}
    (h : Receives sel ns c c') (hempty : c.nodes = []) {x : Ptr × Node} (hx : x ∈ c'.nodes) :
    sel x.2 = some c'.ptr := by
  have hmem : x.2 ∈ c'.nodes.map Prod.snd := List.mem_map_of_mem hx
  rw [h.nodes_eq hempty] at hmem
  rw [h.ptr]
  exact of_decide_eq_true (List.mem_filter.mp hmem).2

theorem Receives.slot_eq {sel : Node → Option Ptr} {ns : List Node} {c c' : Cell}
    (h : Receives sel ns c c') : c'.slot = c.slot := by
  rw [Cell.slot, h.ptr, h.id]
  rfl

theorem receives_slots {sel : Node → Option Ptr} {ns : List Node} {cs cs' : List Cell}
    (h : List.Forall₂ (Receives sel ns) cs cs') : slots cs' = slots cs := by
  induction h with
  | nil => rfl
  | cons hc _ ih =>
    rw [slots_cons, slots_cons, hc.slot_eq, ih]

theorem receives_trans {sel : Node → Option Ptr} {ns ms : List Node} {cs cs' cs'' : List Cell}
    (h : List.Forall₂ (Receives sel ns) cs cs') (h' : List.Forall₂ (Receives sel ms) cs' cs'') :
    List.Forall₂ (Receives sel (ns ++ ms)) cs cs'' := by
  induction h generalizing cs'' with
  | nil =>
    cases h'
    exact .nil
  | cons hc _ ih =>
    cases h' with
    | cons hc' hcs' => exact .cons (hc.trans hc') (ih hcs')

/-- Cells in front that receive nothing stay as they are. -/
theorem receives_keep {sel : Node → Option Ptr} {ns : List Node} {as bs cs' : List Cell}
    (h : List.Forall₂ (Receives sel ns) (as ++ bs) cs')
    (hn : ∀ a ∈ as, ∀ n ∈ ns, sel n ≠ some a.ptr) :
    ∃ bs', cs' = as ++ bs' ∧ List.Forall₂ (Receives sel ns) bs bs' := by
  induction as generalizing cs' with
  | nil => exact ⟨cs', rfl, h⟩
  | cons a as ih =>
    cases h with
    | cons ha has =>
      obtain ⟨bs', rfl, hbs⟩ := ih has fun b hb => hn b (by simp [hb])
      rw [ha.eq_of_none (hn a (by simp))]
      exact ⟨bs', rfl, hbs⟩

/-- Only two neighbours receive anything. -/
theorem receives_pair {sel : Node → Option Ptr} {ns : List Node} {as bs cs' : List Cell}
    {c d : Cell} (h : List.Forall₂ (Receives sel ns) (as ++ c :: d :: bs) cs')
    (hn : ∀ e ∈ as ++ bs, ∀ n ∈ ns, sel n ≠ some e.ptr) :
    ∃ c' d', cs' = as ++ c' :: d' :: bs ∧ Receives sel ns c c' ∧ Receives sel ns d d' := by
  obtain ⟨xs, rfl, hxs⟩ := receives_keep h fun e he => hn e (List.mem_append_left _ he)
  obtain ⟨c', ys, hc, hys, rfl⟩ := List.forall₂_cons_left_iff.mp hxs
  obtain ⟨d', zs, hd, hzs, rfl⟩ := List.forall₂_cons_left_iff.mp hys
  rw [← List.append_nil bs] at hzs
  obtain ⟨es, rfl, hes⟩ := receives_keep hzs fun e he => hn e (List.mem_append_right _ he)
  obtain rfl := List.forall₂_nil_left_iff.mp hes
  exact ⟨c', d', by rw [List.append_nil], hc, hd⟩

theorem Sound.ptr_lt (h : Sound t) (hc : c ∈ cells t) : c.ptr < t.fresh := by
  obtain ⟨x, hx, rfl⟩ := List.mem_map.mp hc
  exact h.linked.fresh x hx

theorem Sound.nodup (h : Sound t) : ((cells t).map Cell.ptr).Nodup := by
  have hn := h.linked.nodup
  rw [cells, List.map_map]
  exact hn

theorem Sound.append_receives (h : Sound t) {n : Node} {sel : Node → Option Ptr} (hc : c ∈ cells t)
    (hsel : sel n = some c.ptr) :
    ∃ t', t.append (some c.ptr) n = .ok t' ∧ Sound t' ∧ t'.stop = t.stop ∧
      List.Forall₂ (Receives sel [n]) (cells t) (cells t') := by
  obtain ⟨cs₁, cs₂, hcs⟩ := List.append_of_mem hc
  obtain ⟨t', p, happ, hs, hstop, hcs'⟩ := h.append hcs n
  refine ⟨t', happ, hs, hstop, ?_⟩
  have hn := h.nodup
  rw [hcs, List.map_append, List.map_cons, List.nodup_append] at hn
  have hkeep : ∀ d ∈ cs₁ ++ cs₂, Receives sel [n] d d := by
    intro d hd
    refine Receives.of_none fun m hm => ?_
    rw [List.mem_singleton.mp hm, hsel]
    intro he
    have hptr := Option.some.inj he
    rcases List.mem_append.mp hd with hd | hd
    · exact hn.2.2 _ (List.mem_map_of_mem hd) c.ptr (by simp) hptr.symm
    · exact (List.nodup_cons.mp hn.2.1).1 (List.mem_map.mpr ⟨d, hd, hptr.symm⟩)
  rw [hcs, hcs']
  refine List.rel_append ?_ (.cons ?_ ?_)
  · exact List.forall₂_same.mpr fun d hd => hkeep d (List.mem_append_left _ hd)
  · exact ⟨rfl, rfl, [(p, n)], rfl, by simp [hsel]⟩
  · exact List.forall₂_same.mpr fun d hd => hkeep d (List.mem_append_right _ hd)

/-- The walk deals every node to the cell that the search finds for it. -/
theorem splitLoop_cells {list_n : ObjList Node} {ys zs : List (Ptr × Node)}
    {sel : Node → Option Ptr} (h : Sound t) (hl : Linked list_n (ys ++ zs))
    (hsel : ∀ n, sel n = select t n.id)
    (hfound : ∀ z ∈ zs, ∃ c ∈ slots (cells t), sel z.2 = some c.1) :
    ∃ t', splitLoop list_n zs.length (firstPtr zs none) t = .ok t' ∧ Sound t' ∧
      t'.stop = t.stop ∧ List.Forall₂ (Receives sel (zs.map Prod.snd)) (cells t) (cells t') := by
  induction zs generalizing t ys with
  | nil =>
    refine ⟨t, rfl, h, rfl, List.forall₂_same.mpr fun c _ => Receives.of_none ?_⟩
    simp
  | cons z zs ih =>
    obtain ⟨p, n⟩ := z
    obtain ⟨q, hq, hqn⟩ := hfound (p, n) (by simp)
    obtain ⟨c, hc, rfl⟩ := List.mem_map.mp hq
    have hcn : sel n = some c.ptr := hqn
    obtain ⟨t₁, happ, h₁, hstop₁, hrec₁⟩ := h.append_receives hc hcn
    have hsel₁ : ∀ m, sel m = select t₁ m.id := by
      intro m
      rw [hsel, select_congr hstop₁ (receives_slots hrec₁)]
    have hfound₁ : ∀ z ∈ zs, ∃ c ∈ slots (cells t₁), sel z.2 = some c.1 := by
      intro z hz
      rw [receives_slots hrec₁]
      exact hfound z (by simp [hz])
    have hl' : Linked list_n ((ys ++ [(p, n)]) ++ zs) := by simpa using hl
    obtain ⟨t₂, hloop, h₂, hstop₂, hrec₂⟩ := ih h₁ hl' hsel₁ hfound₁
    refine ⟨t₂, ?_, h₂, hstop₂.trans hstop₁, receives_trans hrec₁ hrec₂⟩
    rw [List.length_cons, firstPtr_cons, splitLoop, hl.item_eq, exec_ok_bind,
      bcktFindBestMatch_eq h, exec_ok_bind, ← hsel, hcn, happ, exec_ok_bind, hl.next_eq,
      exec_ok_bind, hloop]

/-! ## All of `bckt_split` -/

theorem bcktSplit_small (h : Sound t) (hc : cells t = cs₁ ++ c :: cs₂) {id : Id}
    (hs : select t id = some c.ptr) (hlen : c.nodes.length ≤ 8) :
    bcktSplit t id = .ok (t, false) := by
  obtain ⟨b, prev, hitem, -, hholds⟩ := h.item_eq hc
  have hcount : b.nodes.counter ≤ 8 := hholds.counter.trans_le hlen
  simp [bcktSplit, bcktFindBestMatch_eq h, hs, hitem, hcount]

/-- A split in terms of cells: a new one behind the selected one, whose nodes are dealt anew. -/
theorem bcktSplit_cells (h : Sound t) (hc : cells t = cs₁ ++ c :: cs₂) {id id_new : Id}
    (hs : select t id = some c.ptr) (hlen : 8 < c.nodes.length)
    (hcomp : bcktComputeId t (some c.ptr) = .ok (some id_new)) {stop : Option Ptr}
    (hstop : stop = if cs₁ = [] ∧ cs₂ = [] then some t.fresh else t.stop) {cs : List Cell}
    (hcs : cs = cs₁ ++ { c with nodes := [] } :: ⟨t.fresh, id_new, []⟩ :: cs₂)
    {sel : Node → Option Ptr} (hsel : ∀ n, sel n = search stop n.id.val (slots cs))
    (hfound : ∀ x ∈ c.nodes, ∃ d ∈ slots cs, sel x.2 = some d.1) :
    ∃ t', bcktSplit t id = .ok (t', true) ∧ Sound t' ∧ t'.stop = stop ∧
      List.Forall₂ (Receives sel (c.nodes.map Prod.snd)) cs (cells t') := by
  have hsingle : cs₁ = [] → cs₂ = [] → t.stop = some c.ptr := by
    rintro rfl rfl
    rwa [select, hc] at hs
  obtain ⟨b, prev, hitem, hid, hholds⟩ := h.item_eq hc
  obtain ⟨t₁, hins, h₁, hcs₁, hstop₁⟩ := h.ins hc hsingle id_new
  obtain ⟨t₂, hset, h₂, hstop₂, hcs₂⟩ := h₁.setVal hcs₁ (b := { b with nodes := listInit }) hid
    holds_init
  rw [← hcs] at hcs₂
  have hst : t₂.stop = stop := hstop₂.trans (hstop₁.trans hstop.symm)
  have hlinked : Linked b.nodes ([] ++ c.nodes) := hholds.toLinked
  have hsel₂ : ∀ n, sel n = select t₂ n.id := by
    intro n
    rw [hsel, select, hst, hcs₂]
  obtain ⟨t₃, hloop, h₃, hstop₃, hrec⟩ := splitLoop_cells h₂ hlinked hsel₂ (by rwa [hcs₂])
  rw [← hholds.counter, ← hholds.start] at hloop
  have hcount : ¬ b.nodes.counter ≤ 8 := by
    rw [hholds.counter]
    exact Nat.not_le.mpr hlen
  refine ⟨t₃, ?_, h₃, hstop₃.trans hst, hcs₂ ▸ hrec⟩
  simp [bcktSplit, bcktFindBestMatch_eq h, hs, hitem, hcount, hcomp, hins, hset, hloop]

end Split
end Masala.Routing
