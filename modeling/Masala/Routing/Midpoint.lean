import Masala.Routing.Partition

/-!
# The middle of a bucket

What `bckt_compute_id` returns on any table whose ids tile the id space. It
takes the bucket at `stop` for the last one, so its result is the middle where
that is so, or where the id of the bucket alone tells the size of the block.
-/
namespace Masala.Routing
open Library Container

/-- A table whose ids are those of aligned blocks from zero up to the end of the id space. -/
structure Aligned (t : Table) : Prop where
  sound : Sound t
  first : nextStart Prod.snd (slots (cells t)) (2 ^ 160) = 0
  tiled : Tiled Prod.snd (slots (cells t)) (2 ^ 160)

/-- What `bckt_compute_id` should return for a bucket that ends at `e`: the middle, which leaves
two aligned blocks, or nothing if there is only one id. -/
structure Halves (t : Table) (c : Cell) (e : ℕ) : Prop where
  single : bcktComputeId t (some c.ptr) = .ok none ↔ e = c.id.val + 1
  middle : c.id.val + 1 < e → ∃ id, bcktComputeId t (some c.ptr) = .ok (some id) ∧
    2 * id.val = c.id.val + e ∧ c.id.val < id.val ∧ id.val < e ∧
    ∃ j, Block j c.id.val id.val ∧ Block j id.val e

section Middle
variable {t : Table} {cs₁ cs₂ : List Cell} {c : Cell} {e j k : ℕ}

/-- The new id is right if it halves a block of the size of the bucket. -/
theorem halves_iff (hk : Block k c.id.val e)
    (hid : (j = 0 ∧ bcktComputeId t (some c.ptr) = .ok none) ∨
      ∃ i id, j = i + 1 ∧ bcktComputeId t (some c.ptr) = .ok (some id) ∧
        id.val = c.id.val + 2 ^ i) :
    Halves t c e ↔ j = k := by
  have hend := hk.1
  rcases hid with ⟨rfl, hnone⟩ | ⟨i, id, rfl, hsome, hval⟩
  · constructor
    · intro h
      have hone := h.single.mp hnone
      have hpow : 2 ^ k = 2 ^ 0 := by omega
      exact (Nat.pow_right_injective (Nat.le_refl 2) hpow).symm
    · rintro rfl
      exact ⟨iff_of_true hnone hend, fun hlt => absurd hend (Nat.ne_of_gt hlt)⟩
  · constructor
    · intro h
      have hne : e ≠ c.id.val + 1 := by
        intro he
        rw [h.single.mpr he] at hsome
        cases hsome
      have hlt := hk.lt
      obtain ⟨id', hsome', hmid, -⟩ := h.middle (by omega)
      obtain rfl : id = id' := Option.some.inj (Except.ok.inj (hsome.symm.trans hsome'))
      have hpow : 2 ^ (i + 1) = 2 ^ k := by
        rw [pow_succ]
        omega
      exact Nat.pow_right_injective (Nat.le_refl 2) hpow
    · rintro rfl
      have hpos := Nat.two_pow_pos i
      have hdouble : 2 ^ (i + 1) = 2 ^ i * 2 := pow_succ 2 i
      refine ⟨iff_of_false (by simp [hsome]) (by omega), fun _ => ⟨id, hsome, by omega, by omega,
        by omega, i, ?_, ?_⟩⟩
      · rw [hval]
        exact hk.lower
      · rw [hval]
        exact hk.upper

theorem Aligned.block (h : Aligned t) (hc : cells t = cs₁ ++ c :: cs₂) :
    ∃ k, Block k c.id.val (endOf cs₂) := by
  have ht := h.tiled
  rw [hc, slots_append, slots_cons] at ht
  exact ht.block

theorem Aligned.lt (h : Aligned t) {d : Cell} (hd : d ∈ cells t) : d.id.val < 2 ^ 160 :=
  h.tiled.sorted.2 d.slot (List.mem_map_of_mem hd)

theorem Aligned.endOf_lt (h : Aligned t) (hc : cells t = cs₁ ++ c :: cs₂) (hnil : cs₂ ≠ []) :
    endOf cs₂ < 2 ^ 160 := by
  obtain ⟨d, ds, rfl⟩ := List.exists_cons_of_ne_nil hnil
  exact h.lt (d := d) (by simp [hc])

/-- A bucket at `stop` is taken for the last one, whatever stands behind it. -/
theorem computeId_at_stop (h : Sound t) (hc : cells t = cs₁ ++ c :: cs₂)
    (hstop : t.stop = some c.ptr) : ∃ j, 2 ^ j ∣ c.id.val ∧
      (j < 160 → ¬ 2 ^ (j + 1) ∣ c.id.val) ∧
      ((j = 0 ∧ bcktComputeId t (some c.ptr) = .ok none) ∨
        ∃ i id, j = i + 1 ∧ bcktComputeId t (some c.ptr) = .ok (some id) ∧
          id.val = c.id.val + 2 ^ i) := by
  obtain ⟨j, hj, hbit, hdvd, hno⟩ := (bcktSignificantBit_spec c.id).exists_dvd
  have hs : bitOfNext t (some c.ptr) = .ok (-1) := by
    rw [bitOfNext, if_neg (by simp [hstop]), exec_pure]
  exact ⟨j, hdvd, hno, bcktComputeId_of_bit h hc hs hj hdvd (by omega)⟩

/-- The last bucket has none behind it that could be looked at. -/
theorem computeId_behind_stop (h : Sound t) (hc : cells t = cs₁ ++ [c])
    (hstop : t.stop ≠ some c.ptr) : bcktComputeId t (some c.ptr) = .error .null := by
  obtain ⟨b, prev, hitem, -, -⟩ := h.item_eq hc
  have hs : bitOfNext t (some c.ptr) = .error .null := by
    rw [bitOfNext, if_pos (Ne.symm hstop), h.next_eq hc]
    rfl
  rw [bcktComputeId, hitem, exec_ok_bind, hs]
  rfl

/-- The significant bit of a start is the size of its block where the block is a lower half. -/
theorem bit_eq_iff {v : ℕ} (hk : k < 160) (hdvd : 2 ^ k ∣ v) (hj : 2 ^ j ∣ v)
    (hno : j < 160 → ¬ 2 ^ (j + 1) ∣ v) : j = k ↔ ¬ 2 ^ (k + 1) ∣ v := by
  constructor
  · rintro rfl
    exact hno hk
  · intro hnot
    have hle : j ≤ k := by
      by_contra hlt
      exact hnot ((pow_dvd_pow 2 (by omega)).trans hj)
    by_contra hne
    exact hno (by omega) ((pow_dvd_pow 2 (by omega)).trans hdvd)

/-- Where `stop` tells the last bucket, the new id is the middle. -/
theorem Aligned.halves (h : Aligned t) (hc : cells t = cs₁ ++ c :: cs₂)
    (hstop : t.stop = some c.ptr ↔ cs₂ = []) : Halves t c (endOf cs₂) := by
  obtain ⟨k, hk⟩ := h.block hc
  have hend : blockEnd t.stop c cs₂ = endOf cs₂ := by
    by_cases hnil : cs₂ = []
    · rw [blockEnd, if_pos (hstop.mpr hnil), hnil]
      rfl
    · rw [blockEnd, if_neg (mt hstop.mp hnil)]
      rfl
  have hle : endOf cs₂ ≤ 2 ^ 160 := by
    by_cases hnil : cs₂ = []
    · rw [hnil]
      exact Nat.le_refl _
    · exact (h.endOf_lt hc hnil).le
  exact (halves_iff hk (bcktComputeId_eq h.sound hc hstop.mpr (hend ▸ hk) (hend ▸ hle))).mpr rfl

/-- A last bucket that is not at `stop` has no result. -/
theorem Aligned.not_halves (h : Aligned t) (hc : cells t = cs₁ ++ [c])
    (hstop : t.stop ≠ some c.ptr) : ¬ Halves t c (endOf []) := by
  intro hhalves
  have hfault := computeId_behind_stop h.sound hc hstop
  obtain ⟨k, hk⟩ := h.block hc
  have hlt := hk.lt
  by_cases hone : endOf [] = c.id.val + 1
  · rw [hhalves.single.mpr hone] at hfault
    cases hfault
  · obtain ⟨id, hid, -⟩ := hhalves.middle (by omega)
    rw [hid] at hfault
    cases hfault

/-- A bucket that is at `stop` though others stand behind it. -/
theorem Aligned.halves_at_stop (h : Aligned t) (hc : cells t = cs₁ ++ c :: cs₂) (hnil : cs₂ ≠ [])
    (hstop : t.stop = some c.ptr) :
    Halves t c (endOf cs₂) ↔ ¬ 2 * (endOf cs₂ - c.id.val) ∣ c.id.val := by
  obtain ⟨k, hk⟩ := h.block hc
  obtain ⟨j, hdvd, hno, hid⟩ := computeId_at_stop h.sound hc hstop
  have hk160 : k < 160 :=
    (Nat.pow_lt_pow_iff_right (by omega)).mp (hk.le.trans_lt (h.endOf_lt hc hnil))
  have hsize : 2 * (endOf cs₂ - c.id.val) = 2 ^ (k + 1) := by
    rw [hk.1, Nat.add_sub_cancel_left, pow_succ, Nat.mul_comm]
  rw [halves_iff hk hid, hsize]
  exact bit_eq_iff hk160 hk.2 hdvd hno

end Middle

/-- The new id is the middle of a bucket exactly if `stop` tells whether the bucket is the last
one, or the bucket is the upper half of a block. -/
theorem bcktComputeId_halves_iff (t : Table) (h : Aligned t) (cs₁ cs₂ : List Cell) (c : Cell)
    (hc : cells t = cs₁ ++ c :: cs₂) :
    Halves t c (endOf cs₂) ↔ (t.stop = some c.ptr ↔ cs₂ = []) ∨
      (t.stop = some c.ptr ∧ ¬ 2 * (endOf cs₂ - c.id.val) ∣ c.id.val) := by
  by_cases hlast : t.stop = some c.ptr ↔ cs₂ = []
  · exact iff_of_true (h.halves hc hlast) (.inl hlast)
  · by_cases hstop : t.stop = some c.ptr
    · have hnil : cs₂ ≠ [] := fun hnil => hlast (iff_of_true hstop hnil)
      rw [h.halves_at_stop hc hnil hstop]
      simp [hstop, hnil]
    · have hnil : cs₂ = [] := by
        by_contra hnil
        exact hlast (iff_of_false hstop hnil)
      subst hnil
      exact iff_of_false (h.not_halves hc hstop) (by simp [hstop])

/-- Three aligned buckets, of which `stop` names the second one. -/
theorem stallingOps_aligned : ∃ t c₀ c₁ c₂, tableRun (headId 0xff) stallingOps = .ok t ∧
    Aligned t ∧ cells t = [c₀, c₁, c₂] ∧ t.stop = some 1 ∧
    [c₀, c₁, c₂].map (fun c => (c.ptr, c.id.val)) =
      [(0, 0), (1, 2 ^ 159), (2, 2 ^ 159 + 2 ^ 158)] := by
  obtain ⟨t, cs, ds, hrun, h⟩ := tableRun_routed (headId 0xff) stallingOps
  have hshape : (tableRun (headId 0xff) stallingOps).map (fun t => (t.stop, slots (cells t))) =
      .ok (some 1, [(0, 0), (1, 2 ^ 159), (2, 2 ^ 159 + 2 ^ 158)]) := by rfl
  rw [hrun] at hshape
  obtain ⟨hstop, hslots⟩ := Prod.mk.inj (Except.ok.inj hshape)
  have haligned : Aligned t := by
    refine ⟨h.sound, by rw [hslots]; rfl, ?_⟩
    rw [hslots]
    exact ⟨⟨159, rfl, ⟨0, rfl⟩⟩, ⟨158, rfl, ⟨2, rfl⟩⟩, ⟨158, rfl, ⟨3, rfl⟩⟩, trivial⟩
  have hthree := congrArg List.length hslots
  rw [slots, List.length_map] at hthree
  obtain ⟨c₀, c₁, c₂, hcells⟩ := List.length_eq_three.mp hthree
  exact ⟨t, c₀, c₁, c₂, hrun, haligned, hcells, hstop, hcells ▸ hslots⟩

/-- In this table the first bucket is halved and the second one is not. -/
theorem bcktComputeId_halves_iff_stalled : ∃ t c₀ c₁ c₂,
    tableRun (headId 0xff) stallingOps = .ok t ∧ cells t = [c₀, c₁, c₂] ∧
    Halves t c₀ (endOf [c₁, c₂]) ∧ ¬ Halves t c₁ (endOf [c₂]) := by
  obtain ⟨t, c₀, c₁, c₂, hrun, haligned, hcells, hstop, hslots⟩ := stallingOps_aligned
  simp only [List.map_cons, List.map_nil, List.cons.injEq, Prod.mk.injEq, and_true] at hslots
  obtain ⟨⟨hptr₀, -⟩, ⟨hptr₁, hval₁⟩, -, hval₂⟩ := hslots
  refine ⟨t, c₀, c₁, c₂, hrun, hcells, ?_, ?_⟩
  · refine (bcktComputeId_halves_iff t haligned [] [c₁, c₂] c₀ hcells).mpr (.inl ?_)
    rw [hstop, hptr₀]
    simp
  · rw [bcktComputeId_halves_iff t haligned [c₀] [c₂] c₁ hcells, hstop, hptr₁]
    have hdvd : 2 * (endOf [c₂] - c₁.id.val) ∣ c₁.id.val := by
      rw [show endOf [c₂] = c₂.id.val from rfl, hval₁, hval₂]
      exact ⟨1, rfl⟩
    simp [hdvd]

/-- The bucket at `stop` of a table whose last bucket has been split is not the last one. -/
theorem bcktComputeId_outside : ¬ ∀ (t : Table) (cs₁ cs₂ : List Cell) (c : Cell), Aligned t →
    cells t = cs₁ ++ c :: cs₂ → Halves t c (endOf cs₂) := by
  intro hall
  obtain ⟨t, c₀, c₁, c₂, hrun, haligned, hcells, -, hslots⟩ := stallingOps_aligned
  simp only [List.map_cons, List.map_nil, List.cons.injEq, Prod.mk.injEq, and_true] at hslots
  obtain ⟨-, ⟨hptr, hval⟩, -, hval₂⟩ := hslots
  have hid : (tableRun (headId 0xff) stallingOps >>= fun t =>
      (bcktComputeId t (some 1)).map (Option.map Octets.val)) =
      .ok (some (2 ^ 159 + 2 ^ 158)) := by rfl
  have hend : endOf [c₂] = 2 ^ 159 + 2 ^ 158 := hval₂
  obtain ⟨id, hcomp, -, -, hlt, -⟩ := (hall t [c₀] [c₂] c₁ haligned hcells).middle (by
    rw [hval, hend]
    decide)
  rw [hptr] at hcomp
  rw [hrun, exec_ok_bind, hcomp] at hid
  have hid' : id.val = 2 ^ 159 + 2 ^ 158 := Option.some.inj (Except.ok.inj hid)
  rw [hid', hend] at hlt
  exact lt_irrefl _ hlt

end Masala.Routing
