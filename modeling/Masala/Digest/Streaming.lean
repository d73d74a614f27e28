import Masala.Digest.Compression

/-!
# Messages in pieces

A context stands for the bytes it was given: its state is that after their
whole blocks, its buffer starts with the rest, and its totals count them. The
count takes a piece of `2 ^ 32` bytes or more for a shorter one.
-/
namespace Masala.Digest
open Library

/-- A context that was given the message `m`, with `count` bytes counted. -/
structure Tracks (ctx : Sha1Context) (pads : Octets 64 × Octets 64) (m : Bytes) (count : ℕ) :
    Prop where
  state : ctx.state = (absorb compress initialValue m).state
  kept : ctx.buffer.bytes.take (m.length % 64) = (absorb compress initialValue m).pending
  left : ctx.total0.toNat % 64 = m.length % 64
  total : (ctx.total1.toNat * 2 ^ 32 + ctx.total0.toNat) % 2 ^ 64 = count % 2 ^ 64
  pads : (ctx.ipad, ctx.opad) = pads

section Update
variable {ctx : Sha1Context} {pads : Octets 64 × Octets 64} {m : Bytes} {count : ℕ}

theorem sha1Starts_tracks (ctx : Sha1Context) :
    Tracks (sha1Starts ctx) (ctx.ipad, ctx.opad) [] 0 := by
  have hnil : absorb compress initialValue [] = ⟨initialValue, []⟩ := absorb_of_lt (by decide)
  constructor
  · rw [hnil]
    rfl
  · rw [hnil]
    rfl
  · rfl
  · simp [sha1Starts]
  · rfl

/-- The totals as one number. -/
theorem countBytes_total (ctx : Sha1Context) (n : ℕ) :
    (countBytes ctx n).total0.toNat = (ctx.total0.toNat + n % 2 ^ 32) % 2 ^ 32 ∧
    ((countBytes ctx n).total1.toNat * 2 ^ 32 + (countBytes ctx n).total0.toNat) % 2 ^ 64 =
      (ctx.total1.toNat * 2 ^ 32 + ctx.total0.toNat + n % 2 ^ 32) % 2 ^ 64 := by
  have h₀ := ctx.total0.toNat_lt
  have h₁ := ctx.total1.toNat_lt
  have hmask : (ctx.total0 + UInt32.ofNat n) &&& 0xFFFFFFFF = ctx.total0 + UInt32.ofNat n :=
    UInt32.and_neg_one
  have hsum : (ctx.total0 + UInt32.ofNat n).toNat = (ctx.total0.toNat + n % 2 ^ 32) % 2 ^ 32 := by
    rw [UInt32.toNat_add, UInt32.toNat_ofNat']
  rw [countBytes, hmask]
  by_cases hlt : ctx.total0 + UInt32.ofNat n < UInt32.ofNat n
  · have hone : (ctx.total1 + 1).toNat = (ctx.total1.toNat + 1) % 2 ^ 32 := by
      rw [UInt32.toNat_add]
      rfl
    rw [if_pos hlt]
    rw [UInt32.lt_iff_toNat_lt, hsum, UInt32.toNat_ofNat'] at hlt
    refine ⟨hsum, ?_⟩
    dsimp only
    rw [hone, hsum]
    omega
  · rw [if_neg hlt]
    rw [UInt32.lt_iff_toNat_lt, hsum, UInt32.toNat_ofNat'] at hlt
    refine ⟨hsum, ?_⟩
    dsimp only
    rw [hsum]
    omega

theorem countBytes_frame (ctx : Sha1Context) (n : ℕ) :
    countBytes ctx n = { ctx with
      total0 := (countBytes ctx n).total0
      total1 := (countBytes ctx n).total1 } := by
  rw [countBytes]
  split
  · rfl
  · rfl

theorem processBlocks_eq (ctx : Sha1Context) (input : Bytes) : processBlocks ctx input =
    ({ ctx with state := (absorb compress ctx.state input).state },
      (absorb compress ctx.state input).pending) := by
  induction input using block_induction (n := 64) generalizing ctx with
  | short m h => rw [processBlocks, dif_neg (Nat.not_le.mpr h), absorb_of_lt h]
  | block b m ih =>
    have h : 64 ≤ (b.bytes ++ m).length := by
      rw [List.length_append, b.size_eq]
      exact Nat.le_add_right _ _
    rw [processBlocks, dif_pos h, Octets.ofPrefix_append, List.drop_left' b.size_eq, ih,
      sha1Process_eq, absorb_block]

/-- Behind the begun block the context stands at the start of one, or the input is too short. -/
theorem fillBlock_eq (ctx : Sha1Context) (input : Bytes) {left : ℕ} (hleft : left < 64) :
    ∃ ctx' input' left', fillBlock ctx input left = .ok (ctx', input', left') ∧
      ctx' = { ctx with state := ctx'.state, buffer := ctx'.buffer } ∧
      absorb compress ctx.state (ctx.buffer.bytes.take left ++ input) =
        absorb compress ctx'.state (ctx'.buffer.bytes.take left' ++ input') ∧
      (left' = 0 ∨ left' + input'.length < 64) := by
  by_cases h : left ≠ 0 ∧ input.length ≥ 64 - left
  · have htake : (input.take (64 - left)).length = 64 - left := List.length_take_of_le h.2
    obtain ⟨b, hcopy, hb⟩ := copyTo_of_le (a := ctx.buffer) (p := left)
      (show left + (input.take (64 - left)).length ≤ 64 by omega)
    refine ⟨{ ctx with state := compress ctx.state b, buffer := b }, input.drop (64 - left), 0, ?_,
      rfl, ?_, .inl rfl⟩
    · rw [fillBlock, if_pos h, hcopy, exec_ok_bind, sha1Process_eq]
      rfl
    · rw [htake, Nat.add_sub_cancel' (Nat.le_of_lt hleft),
        List.take_of_length_le b.size_eq.le] at hb
      rw [List.take_zero, List.nil_append, ← absorb_block, hb, List.append_assoc,
        List.take_append_drop]
  · exact ⟨ctx, input, left, by rw [fillBlock, if_neg h]; rfl, rfl, rfl, by omega⟩

theorem keepRest_eq (ctx : Sha1Context) (input : Bytes) {left : ℕ} (h : left + input.length ≤ 64) :
    ∃ b : Octets 64, keepRest ctx input left = .ok { ctx with buffer := b } ∧
      b.bytes.take (left + input.length) = ctx.buffer.bytes.take left ++ input := by
  by_cases hpos : input.length > 0
  · obtain ⟨b, hcopy, hb⟩ := copyTo_of_le (a := ctx.buffer) h
    exact ⟨b, by rw [keepRest, if_pos hpos, hcopy]; rfl, hb⟩
  · have hnil : input = [] := List.length_eq_zero_iff.mp (by omega)
    refine ⟨ctx.buffer, by rw [keepRest, if_neg hpos]; rfl, ?_⟩
    rw [hnil, List.length_nil, List.append_nil, Nat.add_zero]

/-- The part of an update behind the totals absorbs the input. -/
theorem updateBlocks_eq (ctx : Sha1Context) (input : Bytes) {left : ℕ} (hleft : left < 64) :
    ∃ s b, updateBlocks ctx input left = .ok { ctx with state := s, buffer := b } ∧
      absorb compress ctx.state (ctx.buffer.bytes.take left ++ input) =
        ⟨s, b.bytes.take ((left + input.length) % 64)⟩ := by
  obtain ⟨ctx₁, input₁, left₁, hfill, hframe, habsorb, hshort⟩ := fillBlock_eq ctx input hleft
  have hblocks := processBlocks_eq ctx₁ input₁
  have hpending := pending_length_lt compress ctx₁.state input₁
  have htotal := pending_length compress ctx.state (ctx.buffer.bytes.take left ++ input)
  have hlen (c : Sha1Context) (l : ℕ) (hl : l < 64) : (c.buffer.bytes.take l).length = l := by
    rw [List.length_take, c.buffer.size_eq]
    exact Nat.min_eq_left (Nat.le_of_lt hl)
  have hroom : left₁ + (absorb compress ctx₁.state input₁).pending.length < 64 := by
    obtain rfl | hlt := hshort
    · rwa [Nat.zero_add]
    · rwa [absorb_of_lt (by omega)]
  have hleft₁ : left₁ < 64 := by omega
  have hfront : ctx₁.buffer.bytes.take left₁ = [] ∨
      (ctx₁.buffer.bytes.take left₁).length + input₁.length < 64 := by
    obtain rfl | hlt := hshort
    · exact .inl rfl
    · exact .inr (by rwa [hlen ctx₁ left₁ hleft₁])
  rw [habsorb, absorb_prefix hfront, List.length_append, List.length_append, hlen ctx left hleft,
    hlen ctx₁ left₁ hleft₁] at htotal
  obtain ⟨b, hkeep, hb⟩ :=
    keepRest_eq { ctx₁ with state := (absorb compress ctx₁.state input₁).state }
      (absorb compress ctx₁.state input₁).pending (Nat.le_of_lt hroom)
  refine ⟨(absorb compress ctx₁.state input₁).state, b, ?_, ?_⟩
  · rw [updateBlocks, hfill, exec_ok_bind]
    dsimp only
    rw [hblocks]
    dsimp only
    rw [hkeep, hframe]
  · rw [habsorb, absorb_prefix hfront, ← htotal, hb]

/-- An update appends its input to the message. -/
theorem sha1Update_tracks (h : Tracks ctx pads m count) (input : Bytes) :
    ∃ ctx', sha1Update ctx input = .ok ctx' ∧
      Tracks ctx' pads (m ++ input) (count + input.length % 2 ^ 32) := by
  by_cases hnil : input.length ≤ 0
  · obtain rfl : input = [] := List.length_eq_zero_iff.mp (by omega)
    refine ⟨ctx, by rw [sha1Update, if_pos hnil]; rfl, ?_⟩
    rw [List.append_nil]
    exact h
  · have hleft : (ctx.total0 &&& 0x3F).toNat = m.length % 64 := by
      rw [UInt32.toNat_and, ← h.left]
      exact Nat.and_two_pow_sub_one_eq_mod _ 6
    have hlt : m.length % 64 < 64 := Nat.mod_lt _ (by decide)
    have hcount := countBytes_total ctx input.length
    have hframe := countBytes_frame ctx input.length
    obtain ⟨s, b, hupdate, habsorb⟩ := updateBlocks_eq (countBytes ctx input.length) input hlt
    have hstream : absorb compress initialValue (m ++ input) =
        ⟨s, b.bytes.take ((m ++ input).length % 64)⟩ := by
      rw [hframe] at habsorb
      rw [absorb_append, feed, ← h.state, ← h.kept, habsorb, Nat.mod_add_mod, List.length_append]
    refine ⟨_, by rw [sha1Update, if_neg hnil, hleft, hupdate], ?_⟩
    constructor
    · rw [hstream]
    · rw [hstream]
    · have hold := h.left
      dsimp only
      rw [hcount.1, List.length_append]
      omega
    · dsimp only
      rw [hcount.2, Nat.add_mod, h.total, ← Nat.add_mod]
    · rw [hframe]
      exact h.pads

/-- Pieces one after the other make up the message. -/
theorem foldlM_tracks (h : Tracks ctx pads m count) (pieces : List Bytes) :
    ∃ ctx', pieces.foldlM sha1Update ctx = .ok ctx' ∧
      Tracks ctx' pads (m ++ pieces.flatten)
        (count + (pieces.map fun p => p.length % 2 ^ 32).sum) := by
  induction pieces generalizing ctx m count with
  | nil => exact ⟨ctx, rfl, by simpa using h⟩
  | cons p pieces ih =>
    obtain ⟨ctx₁, hupdate, h₁⟩ := sha1Update_tracks h p
    obtain ⟨ctx₂, hfold, h₂⟩ := ih h₁
    refine ⟨ctx₂, by rw [List.foldlM_cons, hupdate, exec_ok_bind, hfold], ?_⟩
    rwa [List.append_assoc, Nat.add_assoc] at h₂

/-! ## The end of a message -/

theorem PUT_UINT32_BE_length (n : UInt32) : (PUT_UINT32_BE n).length = 4 := rfl

/-- The number of bits in two words. -/
theorem bits_total {low high : ℕ} (hlow : low < 2 ^ 32)
    (h : (high * 2 ^ 32 + low) % 2 ^ 64 = count % 2 ^ 64) :
    (high % 2 ^ 29 * 2 ^ 3 + low / 2 ^ 29) * 2 ^ 32 + low * 2 ^ 3 % 2 ^ 32 =
      8 * count % 2 ^ 64 := by
  omega

/-- `msglen` holds the number of bits. -/
theorem msglen_eq {total0 total1 : UInt32}
    (h : (total1.toNat * 2 ^ 32 + total0.toNat) % 2 ^ 64 = count % 2 ^ 64) :
    PUT_UINT32_BE ((total0 >>> 29) ||| (total1 <<< 3)) ++ PUT_UINT32_BE (total0 <<< 3) =
      beBytes 8 (8 * count) := by
  have h₀ := total0.toNat_lt
  have hcarry : total0.toNat / 2 ^ 29 < 2 ^ 3 := by omega
  have hhigh : ((total0 >>> 29) ||| (total1 <<< 3)).toNat =
      total1.toNat % 2 ^ 29 * 2 ^ 3 + total0.toNat / 2 ^ 29 := by
    have hshift : total1.toNat <<< 3 % 2 ^ 32 = (total1.toNat % 2 ^ 29) <<< 3 := by
      rw [Nat.shiftLeft_eq, Nat.shiftLeft_eq]
      omega
    calc ((total0 >>> 29) ||| (total1 <<< 3)).toNat
        = total0.toNat >>> 29 ||| total1.toNat <<< 3 % 2 ^ 32 := by simp
      _ = (total1.toNat % 2 ^ 29) <<< 3 ||| total0.toNat / 2 ^ 29 := by
          rw [hshift, Nat.shiftRight_eq_div_pow, Nat.or_comm]
      _ = _ := shiftLeft_or hcarry
  have hlow : (total0 <<< 3).toNat = total0.toNat * 2 ^ 3 % 2 ^ 32 := by
    rw [UInt32.toNat_shiftLeft, Nat.shiftLeft_eq]
    rfl
  have hlt : total1.toNat % 2 ^ 29 * 2 ^ 3 + total0.toNat / 2 ^ 29 < 2 ^ 32 := by omega
  rw [eq_beBytes_iff (by rfl), beNat_append, PUT_UINT32_BE_eq, PUT_UINT32_BE_eq, beNat_beBytes,
    beNat_beBytes, beBytes_length, hhigh, hlow]
  have hbits := bits_total h₀ h
  norm_num at hbits hlt ⊢
  rw [Nat.mod_eq_of_lt hlt, hbits]

/-- The table holds the padding of every message. -/
theorem sha1_padding_take (total0 : UInt32) (h : total0.toNat % 64 = m.length % 64) :
    copyFrom sha1_padding 0 (if total0 &&& 0x3F < 56 then 56 - (total0 &&& 0x3F)
      else 120 - (total0 &&& 0x3F)).toNat = .ok (padding m.length) := by
  have hlast : (total0 &&& 0x3F).toNat = m.length % 64 := by
    rw [UInt32.toNat_and, ← h]
    exact Nat.and_two_pow_sub_one_eq_mod _ 6
  have hlt : m.length % 64 < 64 := Nat.mod_lt _ (by decide)
  have hpadn : (if total0 &&& 0x3F < 56 then 56 - (total0 &&& 0x3F)
      else 120 - (total0 &&& 0x3F)).toNat = (119 - m.length % 64) % 64 + 1 := by
    have h56 : (56 : UInt32).toNat = 56 := rfl
    have h120 : (120 : UInt32).toNat = 120 := rfl
    by_cases hsmall : total0 &&& 0x3F < 56
    · rw [if_pos hsmall, UInt32.toNat_sub_of_le _ _ (UInt32.le_of_lt hsmall), hlast, h56]
      rw [UInt32.lt_iff_toNat_lt, hlast, h56] at hsmall
      omega
    · have hle : total0 &&& 0x3F ≤ 120 := by
        rw [UInt32.le_iff_toNat_le, hlast, h120]
        omega
      rw [if_neg hsmall, UInt32.toNat_sub_of_le _ _ hle, hlast, h120]
      rw [UInt32.lt_iff_toNat_lt, hlast, h56] at hsmall
      omega
  have hroom : 0 + ((119 - m.length % 64) % 64 + 1) ≤ sha1_padding.length := by
    rw [sha1_padding, List.length_cons, List.length_replicate]
    omega
  rw [hpadn, copyFrom, if_pos hroom, List.drop_zero, sha1_padding, List.take_succ_cons,
    List.take_replicate, Nat.min_eq_left (by omega), padding]

theorem sha1Finish_eq (h : Tracks ctx pads m count) (output : Octets 20) :
    ∃ ctx' o, sha1Finish ctx output = .ok (ctx', o) ∧ o.bytes = hashCounted m count ∧
      (ctx'.ipad, ctx'.opad) = pads := by
  obtain ⟨ctx₁, hpad, h₁⟩ := sha1Update_tracks h (padding m.length)
  obtain ⟨ctx₂, hlen, h₂⟩ := sha1Update_tracks h₁ (beBytes 8 (8 * count))
  have hdigest : (PUT_UINT32_BE ctx₂.state.A ++ PUT_UINT32_BE ctx₂.state.B ++
      PUT_UINT32_BE ctx₂.state.C ++ PUT_UINT32_BE ctx₂.state.D ++
      PUT_UINT32_BE ctx₂.state.E) = hashCounted m count := by
    simp only [PUT_UINT32_BE_eq]
    rw [h₂.state, hashCounted]
  have hfits : 0 + (hashCounted m count).length ≤ 20 := by rw [hashCounted_length]
  obtain ⟨o, hcopy, ho⟩ := copyTo_of_le (a := output) hfits
  refine ⟨ctx₂, o, ?_, ?_, h₂.pads⟩
  · rw [sha1Finish, sha1_padding_take ctx.total0 h.left, exec_ok_bind, hpad, exec_ok_bind,
      msglen_eq h.total, hlen, exec_ok_bind]
    rw [← hdigest] at hcopy
    simp only [copyTo_append, bind_assoc, List.length_append, PUT_UINT32_BE_length, Nat.zero_add,
      Nat.reduceAdd] at hcopy
    have hout := congrArg (fun e => e >>= fun o => pure (ctx₂, o)) hcopy
    simpa only [bind_assoc, exec_ok_bind, exec_pure] using hout
  · rw [hashCounted_length, List.take_of_length_le o.size_eq.le, List.take_zero,
      List.nil_append] at ho
    exact ho

/-- A hash of pieces counts each piece by the low 32 bits of its length. -/
theorem sha1_counted (ctx : Sha1Context) (pieces : List Bytes) (output : Octets 20) :
    ∃ ctx' o, (pieces.foldlM sha1Update (sha1Starts ctx) >>= fun c => sha1Finish c output) =
        .ok (ctx', o) ∧
      o.bytes = hashCounted pieces.flatten (pieces.map fun p => p.length % 2 ^ 32).sum := by
  obtain ⟨ctx₁, hfold, h₁⟩ := foldlM_tracks (sha1Starts_tracks ctx) pieces
  obtain ⟨ctx₂, o, hfinish, ho, -⟩ := sha1Finish_eq h₁ output
  refine ⟨ctx₂, o, by rw [hfold, exec_ok_bind, hfinish], ?_⟩
  rw [ho, List.nil_append, Nat.zero_add]

theorem sha1_eq (stack : Sha1Context) (input : Bytes) (output : Octets 20) :
    ∃ o, sha1 stack input output = .ok o ∧ o.bytes = hashCounted input (input.length % 2 ^ 32) := by
  obtain ⟨ctx₁, hupdate, h₁⟩ := sha1Update_tracks (sha1Starts_tracks stack) input
  obtain ⟨ctx₂, o, hfinish, ho, -⟩ := sha1Finish_eq h₁ output
  refine ⟨o, by rw [sha1, hupdate, exec_ok_bind, hfinish]; rfl, ?_⟩
  rw [ho, List.nil_append, Nat.zero_add]

end Update

theorem sum_length {pieces : List Bytes} (h : ∀ p ∈ pieces, p.length < 2 ^ 32) :
    (pieces.map fun p => p.length % 2 ^ 32).sum = pieces.flatten.length := by
  rw [List.length_flatten]
  congr 1
  apply List.map_congr_left
  intro p hp
  exact Nat.mod_eq_of_lt (h p hp)

/-- However a message is cut into pieces below `2 ^ 32` bytes, and whatever the context held, the
digest is the secure hash of the message. -/
theorem sha1_pieces (ctx : Sha1Context) (pieces : List Bytes) (output : Octets 20)
    (h : ∀ p ∈ pieces, p.length < 2 ^ 32) :
    ∃ ctx' o, (pieces.foldlM sha1Update (sha1Starts ctx) >>= fun c => sha1Finish c output) =
        .ok (ctx', o) ∧ o.bytes = secureHash pieces.flatten := by
  obtain ⟨ctx', o, hrun, ho⟩ := sha1_counted ctx pieces output
  refine ⟨ctx', o, hrun, ?_⟩
  rw [ho, sum_length h, secureHash]

/-- Seventy bytes as sixty and ten, a block that is filled up. -/
theorem sha1_pieces_two : ∃ ctx' o,
    ([List.replicate 60 0x61, List.replicate 10 0x62].foldlM sha1Update (sha1Starts
        ⟨1, 2, initialValue, .replicate 64 7, .replicate 64 7, .replicate 64 7⟩) >>=
      fun c => sha1Finish c (.replicate 20 0)) = .ok (ctx', o) ∧
      o.bytes = secureHash (List.replicate 60 0x61 ++ List.replicate 10 0x62) :=
  sha1_pieces _ [List.replicate 60 0x61, List.replicate 10 0x62] _ (by decide)

end Masala.Digest
