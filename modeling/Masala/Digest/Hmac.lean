import Masala.Digest.Streaming

/-!
# Message authentication

The pads hold the key in both forms from `sha1_hmac_starts` on, so that a reset
begins the next message under the same key.
-/
namespace Masala.Digest
open Library

/-! ## The pads -/

/-- A pad of the byte `c` whose front has been combined with the bytes of a key. -/
def keyPad (c : UInt8) (key : Bytes) : Bytes :=
  key.map (· ^^^ c) ++ List.replicate (64 - key.length) c

theorem keyPad_blockKey (H : Bytes → Bytes) (c : UInt8) (key : Bytes) :
    (blockKey H 64 key).map (· ^^^ c) = keyPad c (if 64 < key.length then H key else key) := by
  rw [blockKey, keyPad, List.map_append, List.map_replicate, UInt8.zero_xor]

/-- The next byte of a key goes into its pad. -/
theorem keyPad_store {pad : Octets 64} {c k : UInt8} {key : Bytes} (h : pad.bytes = keyPad c key)
    (hlen : key.length < 64) : deref pad.bytes key.length = .ok c ∧
      ∃ pad', pad.store key.length (c ^^^ k) = .ok pad' ∧ pad'.bytes = keyPad c (key ++ [k]) := by
  have hrest : 64 - key.length = (64 - (key.length + 1)) + 1 := by omega
  have hsplit : pad.bytes =
      key.map (· ^^^ c) ++ c :: List.replicate (64 - (key.length + 1)) c := by
    rw [h, keyPad, hrest, List.replicate_succ]
  obtain ⟨pad', hstore, hpad⟩ := store_at (c ^^^ k) hsplit
  rw [List.length_map] at hstore
  constructor
  · rw [deref_eq_ok, hsplit, List.getElem?_append_right (by simp), List.length_map, Nat.sub_self]
    rfl
  · refine ⟨pad', hstore, ?_⟩
    rw [hpad, keyPad, List.length_append, List.length_singleton, List.map_append,
      List.map_singleton, List.append_assoc, List.singleton_append, UInt8.xor_comm c k]

/-- The loop over the key, with the bytes before `done`. -/
theorem xorKey_eq (key : Bytes) {ctx : Sha1Context} {done : Bytes}
    (hi : ctx.ipad.bytes = keyPad 0x36 done) (ho : ctx.opad.bytes = keyPad 0x5C done)
    (hlen : done.length + key.length ≤ 64) : ∃ ipad opad : Octets 64,
      xorKey ctx done.length key = .ok { ctx with ipad := ipad, opad := opad } ∧
      ipad.bytes = keyPad 0x36 (done ++ key) ∧ opad.bytes = keyPad 0x5C (done ++ key) := by
  induction key generalizing ctx done with
  | nil =>
    rw [List.append_nil]
    exact ⟨ctx.ipad, ctx.opad, rfl, hi, ho⟩
  | cons k key ih =>
    rw [List.length_cons] at hlen
    have hroom : done.length < 64 := by omega
    obtain ⟨hiread, ipad, histore, hipad⟩ := keyPad_store (k := k) hi hroom
    obtain ⟨horead, opad, hostore, hopad⟩ := keyPad_store (k := k) ho hroom
    have hnext : (done ++ [k]).length + key.length ≤ 64 := by
      rw [List.length_append, List.length_singleton]
      omega
    have hi₁ : ({ ctx with ipad := ipad, opad := opad } : Sha1Context).ipad.bytes =
        keyPad 0x36 (done ++ [k]) := hipad
    obtain ⟨ipad', opad', hrun, hi', ho'⟩ := ih hi₁ hopad hnext
    rw [List.length_append, List.length_singleton] at hrun
    rw [List.append_assoc, List.singleton_append] at hi' ho'
    refine ⟨ipad', opad', ?_, hi', ho'⟩
    rw [xorKey, hiread, exec_ok_bind, histore, exec_ok_bind, horead, exec_ok_bind, hostore,
      exec_ok_bind, hrun]

/-! ## The runs -/

/-- Messages one after the other under one key, each in pieces. -/
def hmacMessages (tmpbuf output : Octets 20) (ctx : Sha1Context) :
    List (List Bytes) → Exec (List (Octets 20))
  | [] => return []
  | pieces :: messages => do
    let ctx ← pieces.foldlM sha1HmacUpdate ctx
    let (ctx, digest) ← sha1HmacFinish tmpbuf ctx output
    let ctx ← sha1HmacReset ctx
    let digests ← hmacMessages tmpbuf output ctx messages
    return digest :: digests

/-- The pads belong to the key. -/
def PadsOf (pads : Octets 64 × Octets 64) (key : Bytes) : Prop :=
  pads.1.bytes = (blockKey secureHash 64 key).map (· ^^^ 0x36) ∧
  pads.2.bytes = (blockKey secureHash 64 key).map (· ^^^ 0x5c)

/-- A context at the start of a message under the key. -/
def Keyed (ctx : Sha1Context) (key : Bytes) : Prop :=
  ∃ pads, PadsOf pads key ∧ Tracks ctx pads pads.1.bytes 64

section Runs
variable {ctx : Sha1Context} {pads : Octets 64 × Octets 64} {key m : Bytes}

theorem sha1HmacReset_keyed (h : PadsOf (ctx.ipad, ctx.opad) key) :
    ∃ ctx', sha1HmacReset ctx = .ok ctx' ∧ Keyed ctx' key := by
  obtain ⟨ctx', hupdate, h'⟩ := sha1Update_tracks (sha1Starts_tracks ctx) ctx.ipad.bytes
  rw [ctx.ipad.size_eq, List.nil_append] at h'
  exact ⟨ctx', hupdate, (ctx.ipad, ctx.opad), h, h'⟩

/-- The key as `sha1_hmac_starts` uses it. -/
theorem shortKey_eq (stack : Sha1Context) (sum : Octets 20) (hkey : key.length < 2 ^ 32) :
    ∃ k, shortKey stack sum key = .ok k ∧
      k = (if 64 < key.length then secureHash key else key) ∧ k.length ≤ 64 := by
  by_cases hlong : key.length > 64
  · obtain ⟨o, hsha, ho⟩ := sha1_eq stack key sum
    refine ⟨o.bytes, by rw [shortKey, if_pos hlong, hsha]; rfl, ?_, by rw [o.size_eq]; decide⟩
    rw [if_pos hlong, ho, Nat.mod_eq_of_lt hkey, secureHash]
  · exact ⟨key, by rw [shortKey, if_neg hlong]; rfl, by rw [if_neg hlong], Nat.not_lt.mp hlong⟩

theorem sha1HmacStarts_keyed (stack : Sha1Context) (sum : Octets 20) (ctx : Sha1Context)
    (hkey : key.length < 2 ^ 32) :
    ∃ ctx', sha1HmacStarts stack sum ctx key = .ok ctx' ∧ Keyed ctx' key := by
  obtain ⟨k, hshort, hk, hlen⟩ := shortKey_eq stack sum hkey
  have hi : ({ ctx with ipad := Octets.replicate 64 0x36, opad := Octets.replicate 64 0x5C } :
      Sha1Context).ipad.bytes = keyPad 0x36 [] := rfl
  have hroom : ([] : Bytes).length + k.length ≤ 64 := by rwa [List.length_nil, Nat.zero_add]
  obtain ⟨ipad, opad, hxor, hipad, hopad⟩ := xorKey_eq k hi rfl hroom
  have hpads : PadsOf (ipad, opad) key := by
    constructor
    · rw [keyPad_blockKey, ← hk]
      exact hipad
    · rw [keyPad_blockKey, ← hk]
      exact hopad
  have hkeyed : PadsOf (({ ctx with ipad := ipad, opad := opad } : Sha1Context).ipad, opad) key :=
    hpads
  obtain ⟨ctx', hreset, h'⟩ := sha1HmacReset_keyed hkeyed
  refine ⟨ctx', ?_, h'⟩
  rw [List.length_nil] at hxor
  rw [sha1HmacStarts, hshort, exec_ok_bind, hxor, exec_ok_bind]
  exact hreset

/-- The digest of a message, after which the context still holds the key. -/
theorem sha1HmacFinish_eq (hpads : PadsOf pads key) (h : Tracks ctx pads (pads.1.bytes ++ m)
    (64 + m.length)) (tmpbuf output : Octets 20) :
    ∃ ctx' o, sha1HmacFinish tmpbuf ctx output = .ok (ctx', o) ∧
      o.bytes = hmac secureHash 64 key m ∧ PadsOf (ctx'.ipad, ctx'.opad) key := by
  obtain ⟨ctx₁, tmp, hinner, htmp, hpads₁⟩ := sha1Finish_eq h tmpbuf
  obtain ⟨ctx₂, hopad, h₂⟩ := sha1Update_tracks (sha1Starts_tracks ctx₁) ctx₁.opad.bytes
  obtain ⟨ctx₃, hdigest, h₃⟩ := sha1Update_tracks h₂ tmp.bytes
  obtain ⟨ctx₄, o, houter, ho, hpads₄⟩ := sha1Finish_eq h₃ output
  refine ⟨ctx₄, o, ?_, ?_, by rw [hpads₄, hpads₁]; exact hpads⟩
  · rw [sha1HmacFinish, hinner, exec_ok_bind]
    dsimp only
    rw [hopad, exec_ok_bind, hdigest, exec_ok_bind, houter]
  · have hop : ctx₁.opad = pads.2 := congrArg Prod.snd hpads₁
    have hmessage : (pads.1.bytes ++ m).length = 64 + m.length := by
      rw [List.length_append, pads.1.size_eq]
    have hdigest : tmp.bytes = secureHash (pads.1.bytes ++ m) := by
      rw [htmp, ← hmessage]
      rfl
    have hcount : 0 + ctx₁.opad.bytes.length % 2 ^ 32 + tmp.bytes.length % 2 ^ 32 =
        (ctx₁.opad.bytes ++ tmp.bytes).length := by
      rw [List.length_append, ctx₁.opad.size_eq, tmp.size_eq]
      rfl
    rw [hcount, List.nil_append] at ho
    rw [ho, hmac, ← hpads.1, ← hpads.2, ← hop, ← hdigest]
    rfl

theorem sha1Hmac_eq (stack frame : Sha1Context) (sum tmpbuf output : Octets 20) {input : Bytes}
    (hkey : key.length < 2 ^ 32) (hinput : input.length < 2 ^ 32) :
    ∃ o, sha1Hmac stack frame sum tmpbuf key input output = .ok o ∧
      o.bytes = hmac secureHash 64 key input := by
  obtain ⟨ctx₁, hstarts, pads, hpads, h₁⟩ := sha1HmacStarts_keyed frame sum stack hkey
  obtain ⟨ctx₂, hupdate, h₂⟩ := sha1Update_tracks h₁ input
  rw [Nat.mod_eq_of_lt hinput] at h₂
  obtain ⟨ctx₃, o, hfinish, ho, -⟩ := sha1HmacFinish_eq hpads h₂ tmpbuf output
  refine ⟨o, ?_, ho⟩
  rw [sha1Hmac, hstarts, exec_ok_bind, sha1HmacUpdate, hupdate, exec_ok_bind, hfinish]
  rfl

/-- Every message of a run gets the digest it has by itself. -/
theorem hmacMessages_eq (tmpbuf output : Octets 20) {messages : List (List Bytes)}
    (hctx : Keyed ctx key) (h : ∀ pieces ∈ messages, ∀ p ∈ pieces, p.length < 2 ^ 32) :
    ∃ digests, hmacMessages tmpbuf output ctx messages = .ok digests ∧
      digests.map Octets.bytes =
        messages.map fun pieces => hmac secureHash 64 key pieces.flatten := by
  induction messages generalizing ctx with
  | nil => exact ⟨[], rfl, rfl⟩
  | cons pieces messages ih =>
    rw [List.forall_mem_cons] at h
    obtain ⟨pads, hpads, htracks⟩ := hctx
    obtain ⟨ctx₁, hfold, h₁⟩ := foldlM_tracks htracks pieces
    rw [sum_length h.1] at h₁
    obtain ⟨ctx₂, digest, hfinish, hdigest, hpads₂⟩ := sha1HmacFinish_eq hpads h₁ tmpbuf output
    obtain ⟨ctx₃, hreset, hkeyed⟩ := sha1HmacReset_keyed hpads₂
    obtain ⟨digests, hrest, hdigests⟩ := ih hkeyed h.2
    refine ⟨digest :: digests, ?_, by rw [List.map_cons, List.map_cons, hdigest, hdigests]⟩
    have hupdate : sha1HmacUpdate = sha1Update := rfl
    rw [hmacMessages, hupdate, hfold, exec_ok_bind, hfinish, exec_ok_bind]
    dsimp only
    rw [hreset, exec_ok_bind, hrest]
    rfl

/-- One call of `sha1_hmac_starts` serves any number of messages with a reset in between; each
digest is that of the message and the key, whatever the contexts and buffers held before. -/
theorem sha1Hmac_messages (stack ctx : Sha1Context) (sum tmpbuf output : Octets 20)
    (messages : List (List Bytes)) (hkey : key.length < 2 ^ 32)
    (h : ∀ pieces ∈ messages, ∀ p ∈ pieces, p.length < 2 ^ 32) :
    ∃ digests, (sha1HmacStarts stack sum ctx key >>= fun ctx =>
        hmacMessages tmpbuf output ctx messages) = .ok digests ∧
      digests.map Octets.bytes =
        messages.map fun pieces => hmac secureHash 64 key pieces.flatten := by
  obtain ⟨ctx₁, hstarts, hkeyed⟩ := sha1HmacStarts_keyed stack sum ctx hkey
  obtain ⟨digests, hrun, hdigests⟩ := hmacMessages_eq tmpbuf output hkeyed h
  exact ⟨digests, by rw [hstarts, exec_ok_bind, hrun], hdigests⟩

end Runs

/-- A long key, a message in two pieces and an empty one. -/
theorem sha1Hmac_messages_two : ∃ digests,
    (sha1HmacStarts ⟨1, 2, initialValue, .replicate 64 7, .replicate 64 7, .replicate 64 7⟩
        (.replicate 20 1) ⟨1, 2, initialValue, .replicate 64 7, .replicate 64 7, .replicate 64 7⟩
        (List.replicate 70 0x6b) >>= fun ctx =>
      hmacMessages (.replicate 20 2) (.replicate 20 3) ctx [[[0x61], [0x62]], []]) = .ok digests ∧
      digests.map Octets.bytes =
        [hmac secureHash 64 (List.replicate 70 0x6b) [0x61, 0x62],
          hmac secureHash 64 (List.replicate 70 0x6b) []] :=
  sha1Hmac_messages _ _ _ _ _ [[[0x61], [0x62]], []] (by decide) (by decide)

end Masala.Digest
