import Masala.Library.Octets
import Mathlib.Algebra.GroupWithZero.Nat

/-!
# Hashing a stream block by block

A hash that compresses blocks of `n` bytes keeps the bytes of an unfinished
block until more come. What it has compressed and kept does not show how the
message was cut into pieces.
-/
namespace Masala.Library

/-- The value after the whole blocks of a message, and the bytes behind them. -/
@[ext] structure BlockStream (σ : Type) where
  state : σ
  pending : Bytes

/-- The first `n` bytes of a message that has them. -/
def Octets.ofPrefix {n : ℕ} (m : Bytes) (h : n ≤ m.length) : Octets n :=
  ⟨m.take n, List.length_take_of_le h⟩

theorem Octets.ofPrefix_append {n : ℕ} (b : Octets n) (m : Bytes)
    (h : n ≤ (b.bytes ++ m).length) : Octets.ofPrefix (b.bytes ++ m) h = b := by
  apply Octets.ext
  exact List.take_left' b.size_eq

/-- A message is a block and the rest, or has less than a block. -/
theorem block_cases {n : ℕ} (m : Bytes) :
    m.length < n ∨ ∃ (b : Octets n) (t : Bytes), m = b.bytes ++ t := by
  by_cases h : n ≤ m.length
  · exact .inr ⟨Octets.ofPrefix m h, m.drop n, (List.take_append_drop n m).symm⟩
  · exact .inl (Nat.not_le.mp h)

section Absorb
variable {σ : Type} {n : ℕ} [NeZero n] (f : σ → Octets n → σ)

/-- Compress whole blocks from the front. -/
def absorb (s : σ) (m : Bytes) : BlockStream σ :=
  have _hn := Nat.pos_of_neZero n
  if h : n ≤ m.length then absorb (f s (Octets.ofPrefix m h)) (m.drop n) else ⟨s, m⟩
termination_by m.length
decreasing_by
  rw [List.length_drop]
  omega

/-- Give a stream more bytes. -/
def feed (x : BlockStream σ) (m : Bytes) : BlockStream σ := absorb f x.state (x.pending ++ m)

variable {f} {s : σ} {m : Bytes}

theorem absorb_of_lt (h : m.length < n) : absorb f s m = ⟨s, m⟩ := by
  rw [absorb, dif_neg (Nat.not_le.mpr h)]

theorem absorb_block (b : Octets n) (m : Bytes) :
    absorb f s (b.bytes ++ m) = absorb f (f s b) m := by
  have h : n ≤ (b.bytes ++ m).length := by
    rw [List.length_append, b.size_eq]
    exact Nat.le_add_right _ _
  rw [absorb, dif_pos h, Octets.ofPrefix_append, List.drop_left' b.size_eq]

/-- Messages by their blocks. -/
theorem block_induction {P : Bytes → Prop} (short : ∀ m, m.length < n → P m)
    (block : ∀ (b : Octets n) (m : Bytes), P m → P (b.bytes ++ m)) (m : Bytes) : P m := by
  induction hk : m.length using Nat.strongRecOn generalizing m with
  | ind k ih =>
    obtain hlt | ⟨b, t, rfl⟩ := block_cases (n := n) m
    · exact short m hlt
    · apply block
      have hn := Nat.pos_of_neZero n
      rw [List.length_append, b.size_eq] at hk
      exact ih t.length (by omega) t rfl

theorem pending_length (f : σ → Octets n → σ) (s : σ) (m : Bytes) :
    (absorb f s m).pending.length = m.length % n := by
  induction m using block_induction (n := n) generalizing s with
  | short m h => rw [absorb_of_lt h, Nat.mod_eq_of_lt h]
  | block b m ih => rw [absorb_block, ih, List.length_append, b.size_eq, Nat.add_mod_left]

theorem pending_length_lt (f : σ → Octets n → σ) (s : σ) (m : Bytes) :
    (absorb f s m).pending.length < n := by
  rw [pending_length]
  exact Nat.mod_lt _ (Nat.pos_of_neZero n)

/-- More bytes go behind those that are kept. -/
theorem absorb_append (f : σ → Octets n → σ) (s : σ) (m t : Bytes) :
    absorb f s (m ++ t) = feed f (absorb f s m) t := by
  induction m using block_induction (n := n) generalizing s with
  | short m h => rw [feed, absorb_of_lt h]
  | block b m ih => rw [List.append_assoc, absorb_block, absorb_block, ih]

/-- Bytes in front of too few for a block are kept with them. -/
theorem absorb_prefix {pre : Bytes} (h : pre = [] ∨ pre.length + m.length < n) :
    absorb f s (pre ++ m) = ⟨(absorb f s m).state, pre ++ (absorb f s m).pending⟩ := by
  obtain rfl | hlt := h
  · rfl
  · have hm : m.length < n := by omega
    rw [absorb_of_lt hm, absorb_of_lt (by rwa [List.length_append])]

end Absorb

/-! ## Message authentication -/

section Hmac
variable (H : Bytes → Bytes) (n : ℕ)

/-- A key of one block: a longer key is hashed, a shorter one filled with zeros. -/
def blockKey (key : Bytes) : Bytes :=
  let key := if n < key.length then H key else key
  key ++ List.replicate (n - key.length) 0

/-- The message is hashed behind the inner key, and the digest behind the outer one. -/
def hmac (key m : Bytes) : Bytes :=
  let k := blockKey H n key
  H (k.map (· ^^^ 0x5c) ++ H (k.map (· ^^^ 0x36) ++ m))

end Hmac
end Masala.Library
