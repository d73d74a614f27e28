import Masala.Routing.Routed

/-!
# The rounds of `nbhd_split`

Each round halves the block of the own id. In the lower half of the id space
this goes on until the own bucket has at most eight nodes. In the upper half it
only works once: afterwards the own bucket is the last of several, and with
more than eight nodes the loop never ends.
-/
namespace Masala.Routing
open Library Container

/-- Once there are several buckets, the last one is the upper half of the id space. -/
def Halved (cs : List Cell) : Prop :=
  ∀ cs₁ c, cs = cs₁ ++ [c] → cs₁ ≠ [] → c.id.val = 2 ^ 159

/-- A table without dead buckets. -/
def Clean (t : Table) (cs : List Cell) : Prop := Routed t cs [] ∧ Halved cs

/-- The nodes of the upper half of the id space. -/
def upperNodes (t : Table) : List Node := (allNodes t).filter fun n => 2 ^ 159 ≤ n.id.val

section Rounds
variable {t : Table} {cs ds cs₁ cs₂ : List Cell} {c : Cell} {own : Id}

theorem nbhdSplit_done {fuel : ℕ} (h : bcktSplit t own = .ok (t, false)) :
    nbhdSplit own (fuel + 1) t = .ok t := by
  rw [nbhdSplit, h, exec_ok_bind]
  rfl

theorem nbhdSplit_round {fuel : ℕ} {t' : Table} (h : bcktSplit t own = .ok (t', true)) :
    nbhdSplit own (fuel + 1) t = nbhdSplit own fuel t' := by
  rw [nbhdSplit, h, exec_ok_bind]
  rfl

theorem Dealt.length {c' d' : Cell} (h : Dealt c c' d') :
    c'.nodes.length + d'.nodes.length = c.nodes.length := by
  have hlen := h.nodes.length_eq
  simpa using hlen

/-- The loop never ends when the own bucket is the last of several and too full. -/
theorem nbhdSplit_stalled (fuel : ℕ) (h : Routed t (cs₁ ++ [c]) ds)
    (hs : select t own = some c.ptr) (hst : Stalls cs₁ [] ds) (hlen : 8 < c.nodes.length) :
    nbhdSplit own fuel t = .error .fuel := by
  induction fuel generalizing t c ds with
  | zero => rfl
  | succ fuel ih =>
    rcases h.split hs with ⟨hle, -⟩ | ⟨-, t', c', d', k, hsplit, hdealt, -, -, -, hstall, -⟩
    · exact absurd hlen (Nat.not_lt.mpr hle)
    obtain ⟨hempty, h'⟩ := hstall hst
    have ho := h.owns_at hs
    have ho' : Owns (cs₁ ++ [c']) cs₁ c' [] own :=
      ⟨rfl, by rw [hdealt.id]; exact ho.le, by simp⟩
    have hlen' := hdealt.length
    rw [hempty, List.length_nil, Nat.add_zero] at hlen'
    rw [nbhdSplit_round hsplit]
    exact ih h' (h'.select_eq ho') ⟨rfl, by simp⟩ (hlen' ▸ hlen)

/-- The first split makes the upper half a bucket, later ones leave it alone. -/
theorem Halved.split (hhalf : Halved (cs₁ ++ c :: cs₂)) (h : Shaped t (cs₁ ++ c :: cs₂) []) {k : ℕ}
    {c' d' : Cell} (hk : Block (k + 1) c.id.val (endOf cs₂)) (hd : d'.id.val = c.id.val + 2 ^ k)
    (hns : ¬ Stalls cs₁ cs₂ []) : Halved (cs₁ ++ c' :: d' :: cs₂) := by
  intro as l hsplit _
  rcases List.eq_nil_or_concat' cs₂ with rfl | ⟨es, e, rfl⟩
  · obtain rfl : cs₁ = [] := by
      by_contra hne
      exact hns ⟨rfl, fun hall => hne hall.1⟩
    have hzero : c.id.val = 0 := h.grid.first
    have hpow : 2 ^ 160 = c.id.val + 2 ^ (k + 1) := hk.1
    rw [hzero, Nat.zero_add] at hpow
    obtain rfl : 159 = k := Nat.succ.inj (Nat.pow_right_injective (le_refl 2) hpow)
    have hlast : [c', d'] = as ++ [l] := hsplit
    rw [show [c', d'] = [c'] ++ [d'] from rfl, List.append_singleton_inj] at hlast
    rw [← hlast.2, hd, hzero, Nat.zero_add]
  · have hold : cs₁ ++ c :: (es ++ [e]) = (cs₁ ++ c :: es) ++ [e] := by simp
    have hnew : cs₁ ++ c' :: d' :: (es ++ [e]) = (cs₁ ++ c' :: d' :: es) ++ [e] := by simp
    rw [hnew, List.append_singleton_inj] at hsplit
    rw [← hsplit.2]
    exact hhalf _ e hold (by simp)

/-- A completed `nbhd_split` leaves no dead buckets. -/
theorem Clean.nbhdSplit {fuel : ℕ} (h : Clean t cs) {t' : Table}
    (hrun : nbhdSplit own fuel t = .ok t') : ∃ cs', Clean t' cs' := by
  induction fuel generalizing t cs with
  | zero => cases hrun
  | succ fuel ih =>
    obtain ⟨hr, hhalf⟩ := h
    obtain ⟨cs₁, c, cs₂, ho⟩ := hr.owner own
    have hsel := hr.select_eq ho
    obtain rfl := ho.split
    rcases hr.split hsel with ⟨-, hsplit⟩ |
      ⟨hlen, t₁, c', d', k, hsplit, hdealt, hk, hd, -, hstall, hlive⟩
    · rw [nbhdSplit_done hsplit] at hrun
      obtain rfl := Except.ok.inj hrun
      exact ⟨_, hr, hhalf⟩
    · by_cases hst : Stalls cs₁ cs₂ []
      · obtain ⟨rfl, -⟩ := id hst
        rw [nbhdSplit_stalled _ hr hsel hst hlen] at hrun
        cases hrun
      · rw [nbhdSplit_round hsplit] at hrun
        exact ih ⟨hlive hst, hhalf.split hr.toShaped hk hd hst⟩ hrun

/-! ## Termination -/

theorem allNodes_split (h : Routed t (cs₁ ++ c :: cs₂) ds) {t' : Table} {c' d' : Cell}
    (hcells : cells t' = cs₁ ++ c' :: d' :: (cs₂ ++ ds)) (hdealt : Dealt c c' d') :
    (allNodes t').Perm (allNodes t) := by
  have hold : cells t = cs₁ ++ c :: (cs₂ ++ ds) := by simp [h.parts]
  rw [allNodes, allNodes, hcells, hold]
  simp only [List.flatMap_append, List.flatMap_cons]
  refine List.Perm.append_left _ ?_
  rw [← List.append_assoc]
  exact List.Perm.append_right _ hdealt.nodes

theorem mem_allNodes {n : Node} : n ∈ allNodes t ↔ ∃ c ∈ cells t, n ∈ c.nodes.map Prod.snd := by
  rw [allNodes, List.mem_flatMap]

/-- The last of several buckets holds the upper nodes. -/
theorem Clean.upper_length (h : Clean t (cs₁ ++ [c])) (hne : cs₁ ≠ []) :
    (upperNodes t).length = c.nodes.length := by
  obtain ⟨hr, hhalf⟩ := h
  have hmid := hhalf cs₁ c rfl hne
  have hcells : cells t = cs₁ ++ [c] := by simp [hr.parts]
  have hlow : ((cs₁.flatMap fun c => c.nodes.map Prod.snd).filter
      fun n => 2 ^ 159 ≤ n.id.val) = [] := by
    rw [List.filter_eq_nil_iff]
    intro n hn
    obtain ⟨d, hd, hnd⟩ := List.mem_flatMap.mp hn
    obtain ⟨x, hx, rfl⟩ := List.mem_map.mp hnd
    obtain ⟨as, bs, rfl⟩ := List.append_of_mem hd
    have hsel := hr.placed d (by simp [hcells]) x hx
    have hsplit : (as ++ d :: bs) ++ [c] = as ++ d :: (bs ++ [c]) := by simp
    have ho := (hsplit ▸ hr.toShaped).owns_at hsel
    have hlt := ho.lt c (by simp)
    rw [hmid] at hlt
    simpa using hlt
  have hhigh : ((c.nodes.map Prod.snd).filter fun n => 2 ^ 159 ≤ n.id.val) =
      c.nodes.map Prod.snd := by
    rw [List.filter_eq_self]
    intro n hn
    obtain ⟨x, hx, rfl⟩ := List.mem_map.mp hn
    have ho := hr.owns_at (hr.placed c (by simp [hcells]) x hx)
    have hle := ho.le
    rw [hmid] at hle
    simpa using hle
  rw [upperNodes, allNodes, hcells, List.flatMap_append, List.filter_append, hlow,
    List.flatMap_singleton, hhigh]
  simp

/-- The own bucket may be split: it is not the last of several, or has at most eight nodes. -/
theorem Clean.not_stalls (h : Clean t (cs₁ ++ c :: cs₂)) (hsel : select t own = some c.ptr)
    (hok : own.val < 2 ^ 159 ∨ (upperNodes t).length ≤ 8) (hlen : 8 < c.nodes.length) :
    ¬ Stalls cs₁ cs₂ [] := by
  rintro ⟨rfl, hne⟩
  have hne' : cs₁ ≠ [] := fun he => hne ⟨he, rfl⟩
  rcases hok with hlow | hfew
  · have hle := (h.1.owns_at hsel).le
    rw [h.2 cs₁ c rfl hne'] at hle
    exact absurd hlow (Nat.not_lt.mpr hle)
  · rw [h.upper_length hne'] at hfew
    exact absurd hlen (Nat.not_lt.mpr hfew)

/-- The half that owns the id, as the next round finds it. -/
theorem Shaped.half {t' : Table} {c' d' : Cell} {k : ℕ}
    (h' : Shaped t' (cs₁ ++ c' :: d' :: cs₂) ds) (hid : c'.id = c.id)
    (ho : Owns (cs₁ ++ c :: cs₂) cs₁ c cs₂ own) (hk : Block (k + 1) c.id.val (endOf cs₂))
    (hd : d'.id.val = c.id.val + 2 ^ k) :
    ∃ as e bs, cs₁ ++ c' :: d' :: cs₂ = as ++ e :: bs ∧ select t' own = some e.ptr ∧
      Block k e.id.val (endOf bs) := by
  by_cases hlt : own.val < d'.id.val
  · have ho' : Owns (cs₁ ++ c' :: d' :: cs₂) cs₁ c' (d' :: cs₂) own := by
      refine ⟨rfl, by rw [hid]; exact ho.le, fun e he => ?_⟩
      rcases List.mem_cons.mp he with rfl | he
      · exact hlt
      · exact ho.lt e he
    refine ⟨cs₁, c', d' :: cs₂, rfl, h'.select_eq ho', ?_⟩
    rw [hid, endOf, slots_cons, nextStart, Cell.slot, hd]
    exact hk.lower
  · have ho' : Owns (cs₁ ++ c' :: d' :: cs₂) (cs₁ ++ [c']) d' cs₂ own :=
      ⟨by simp, Nat.le_of_not_lt hlt, ho.lt⟩
    refine ⟨cs₁ ++ [c'], d', cs₂, by simp, h'.select_eq ho', ?_⟩
    rw [hd]
    exact hk.upper

/-- The loop ends within as many splits as the own block has bits. -/
theorem Clean.terminates (h : Clean t (cs₁ ++ c :: cs₂)) (hsel : select t own = some c.ptr)
    (hok : own.val < 2 ^ 159 ∨ (upperNodes t).length ≤ 8) {k fuel : ℕ}
    (hk : Block k c.id.val (endOf cs₂)) (hf : k < fuel) :
    ∃ t' cs₁' c' cs₂', Routing.nbhdSplit own fuel t = .ok t' ∧ Clean t' (cs₁' ++ c' :: cs₂') ∧
      select t' own = some c'.ptr ∧ c'.nodes.length ≤ 8 := by
  induction k generalizing t cs₁ c cs₂ fuel with
  | zero =>
    obtain ⟨f, rfl⟩ : ∃ f, fuel = f + 1 := ⟨fuel - 1, by omega⟩
    rcases h.1.split hsel with ⟨hle, hsplit⟩ | ⟨hlen, -, -, -, k, -, -, hk', -⟩
    · exact ⟨t, cs₁, c, cs₂, nbhdSplit_done hsplit, h, hsel, hle⟩
    · exact absurd (Block.unique hk hk') (Nat.succ_ne_zero k).symm
  | succ k ih =>
    obtain ⟨f, rfl⟩ : ∃ f, fuel = f + 1 := ⟨fuel - 1, by omega⟩
    rcases h.1.split hsel with ⟨hle, hsplit⟩ |
      ⟨hlen, t₁, c', d', k', hsplit, hdealt, hk', hd, hcells, -, hlive⟩
    · exact ⟨t, cs₁, c, cs₂, nbhdSplit_done hsplit, h, hsel, hle⟩
    · obtain rfl := Nat.succ.inj (Block.unique hk hk')
      have hns := h.not_stalls hsel hok hlen
      have h₁ : Clean t₁ (cs₁ ++ c' :: d' :: cs₂) :=
        ⟨hlive hns, h.2.split h.1.toShaped hk hd hns⟩
      obtain ⟨as, e, bs, hsplit₁, hsel₁, hk₁⟩ :=
        h₁.1.toShaped.half hdealt.id (h.1.owns_at hsel) hk hd
      have hupper : (upperNodes t₁).length = (upperNodes t).length :=
        ((allNodes_split h.1 hcells hdealt).filter _).length_eq
      rw [hsplit₁] at h₁
      have hf' : k < f := Nat.lt_of_succ_lt_succ hf
      obtain ⟨t', cs₁', c₂, cs₂', hrun, h'⟩ := ih h₁ hsel₁ (hupper ▸ hok) hk₁ hf'
      exact ⟨t', cs₁', c₂, cs₂', by rw [nbhdSplit_round hsplit, hrun], h'⟩

/-- With more than eight upper nodes the loop never ends for an own id of the upper half. -/
theorem Clean.diverges (h : Clean t (cs₁ ++ c :: cs₂)) (hsel : select t own = some c.ptr)
    (hown : 2 ^ 159 ≤ own.val) (hmany : 8 < (upperNodes t).length) (fuel : ℕ) :
    Routing.nbhdSplit own fuel t = .error .fuel := by
  have ho := h.1.owns_at hsel
  obtain rfl : cs₂ = [] := by
    rcases List.eq_nil_or_concat' cs₂ with rfl | ⟨es, e, rfl⟩
    · rfl
    · have hmid := h.2 (cs₁ ++ c :: es) e (by simp) (by simp)
      have hlt := ho.lt e (by simp)
      rw [hmid] at hlt
      exact absurd hown (Nat.not_le.mpr hlt)
  by_cases hone : cs₁ = []
  · subst hone
    have hle : (upperNodes t).length ≤ c.nodes.length := by
      have hall : allNodes t = c.nodes.map Prod.snd := by
        rw [allNodes, h.1.parts]
        simp
      calc (upperNodes t).length ≤ (allNodes t).length := List.length_filter_le _ _
        _ = c.nodes.length := by rw [hall, List.length_map]
    cases fuel with
    | zero => rfl
    | succ fuel =>
      rcases h.1.split hsel with ⟨hle', -⟩ |
        ⟨-, t', c', d', k, hsplit, hdealt, hk, hd, hcells, -, hlive⟩
      · omega
      have hns : ¬ Stalls [] [] [] := fun hst => hst.2 ⟨rfl, rfl⟩
      have h' : Clean t' ([c'] ++ [d']) := ⟨hlive hns, h.2.split h.1.toShaped hk hd hns⟩
      have hmid := h'.2 [c'] d' rfl (by simp)
      have ho' : Owns ([c'] ++ [d']) [c'] d' [] own := ⟨rfl, hmid.trans_le hown, by simp⟩
      have hupper : (upperNodes t').length = (upperNodes t).length :=
        ((allNodes_split h.1 hcells hdealt).filter _).length_eq
      have hlen := h'.upper_length (by simp)
      rw [nbhdSplit_round hsplit]
      exact nbhdSplit_stalled fuel h'.1 (h'.1.select_eq ho') ⟨rfl, by simp⟩ (by omega)
  · have hlen := h.upper_length hone
    exact nbhdSplit_stalled fuel h.1 hsel ⟨rfl, fun hall => hone hall.1⟩ (by omega)

/-- `nbhd_split` ends within 160 splits or not at all. -/
theorem Clean.nbhdSplit_cases (h : Clean t cs) (own : Id) :
    ((own.val < 2 ^ 159 ∨ (upperNodes t).length ≤ 8) ∧
      ∃ t' cs₁ c cs₂, Routing.nbhdSplit own 161 t = .ok t' ∧ Clean t' (cs₁ ++ c :: cs₂) ∧
        select t' own = some c.ptr ∧ c.nodes.length ≤ 8) ∨
    (¬ (own.val < 2 ^ 159 ∨ (upperNodes t).length ≤ 8) ∧
      ∀ fuel, Routing.nbhdSplit own fuel t = .error .fuel) := by
  obtain ⟨cs₁, c, cs₂, ho⟩ := h.1.owner own
  have hsel := h.1.select_eq ho
  obtain rfl := ho.split
  by_cases hok : own.val < 2 ^ 159 ∨ (upperNodes t).length ≤ 8
  · obtain ⟨k, hk⟩ := h.1.block
    have hk160 : k ≤ 160 :=
      (Nat.pow_le_pow_iff_right (by omega)).mp (hk.le.trans h.1.endOf_le)
    exact .inl ⟨hok, h.terminates hsel hok hk (Nat.lt_succ_of_le hk160)⟩
  · refine .inr ⟨hok, h.diverges hsel ?_ ?_⟩
    · exact Nat.le_of_not_lt fun hlt => hok (.inl hlt)
    · exact Nat.lt_of_not_le fun hle => hok (.inr hle)

/-! ## Reachable tables -/

theorem bcktInit_clean : ∃ t cs, bcktInit = .ok t ∧ Clean t cs := by
  obtain ⟨t, hinit, h⟩ := bcktInit_routed
  refine ⟨t, _, hinit, h, fun cs₁ c hsplit hne => ?_⟩
  rw [← List.nil_append [_], List.append_singleton_inj] at hsplit
  exact absurd hsplit.1.symm hne

theorem Halved.replace {ms : List (Ptr × Node)} (h : Halved (cs₁ ++ c :: cs₂)) :
    Halved (cs₁ ++ { c with nodes := ms } :: cs₂) := by
  intro as l hsplit hne
  rcases List.eq_nil_or_concat' cs₂ with rfl | ⟨es, e, rfl⟩
  · rw [List.append_singleton_inj] at hsplit
    rw [← hsplit.2]
    exact h cs₁ c rfl (hsplit.1 ▸ hne)
  · have hnew : cs₁ ++ { c with nodes := ms } :: (es ++ [e]) =
      (cs₁ ++ { c with nodes := ms } :: es) ++ [e] := by simp
    rw [hnew, List.append_singleton_inj] at hsplit
    rw [← hsplit.2]
    exact h (cs₁ ++ c :: es) e (by simp) (by simp)

theorem Clean.put (h : Clean t cs) (n : Node) : ∃ t' cs', bcktPut t n = .ok t' ∧ Clean t' cs' := by
  obtain ⟨cs₁, c, cs₂, ho, ⟨-, hput⟩ | ⟨-, t', p, hput, h'⟩⟩ := h.1.put n
  · exact ⟨t, cs, hput, h⟩
  · exact ⟨t', _, hput, h', (ho.split ▸ h.2).replace⟩

theorem Clean.del (h : Clean t cs) (n : Node) : ∃ t' cs', bcktDel t n = .ok t' ∧ Clean t' cs' := by
  obtain ⟨cs₁, c, cs₂, ho, ⟨-, hdel⟩ | ⟨ms₁, x, ms₂, t', -, -, hdel, h'⟩⟩ := h.1.del n
  · exact ⟨t, cs, hdel, h⟩
  · exact ⟨t', _, hdel, h', (ho.split ▸ h.2).replace⟩

end Rounds
end Masala.Routing
