import Masala.Library.BigEndian
import Masala.Library.BlockHash
import Mathlib.Data.UInt

/-!
# The secure hash of 160 bits

The compression of a block takes eighty rounds over five words, one with each
word of a schedule that the sixteen words of the block start.
-/
namespace Masala.Library

/-- Five words: a chaining value, or the variables of the rounds. -/
@[ext] structure Registers where
  A : UInt32
  B : UInt32
  C : UInt32
  D : UInt32
  E : UInt32
deriving DecidableEq

instance : Add Registers := ⟨fun r s => ⟨r.A + s.A, r.B + s.B, r.C + s.C, r.D + s.D, r.E + s.E⟩⟩

def rotl (x n : UInt32) : UInt32 := (x <<< n) ||| (x >>> (32 - n))

def choose (x y z : UInt32) : UInt32 := (x &&& y) ^^^ (~~~x &&& z)

def parity (x y z : UInt32) : UInt32 := x ^^^ y ^^^ z

def majority (x y z : UInt32) : UInt32 := (x &&& y) ^^^ (x &&& z) ^^^ (y &&& z)

/-- The function of a round. -/
def roundFunction (t : ℕ) : UInt32 → UInt32 → UInt32 → UInt32 :=
  if t < 20 then choose else if t < 40 then parity else if t < 60 then majority else parity

/-- The constant of a round. -/
def roundConstant (t : ℕ) : UInt32 :=
  if t < 20 then 0x5A827999 else if t < 40 then 0x6ED9EBA1
  else if t < 60 then 0x8F1BBCDC else 0xCA62C1D6

/-- The big-endian word `i` of a block. -/
def blockWord (b : Octets 64) (i : ℕ) : UInt32 :=
  UInt32.ofNat (beNat ((b.bytes.drop (4 * i)).take 4))

/-- The word of round `t`. -/
def schedule (b : Octets 64) (t : ℕ) : UInt32 :=
  if t < 16 then blockWord b t
  else rotl (schedule b (t - 3) ^^^ schedule b (t - 8) ^^^ schedule b (t - 14) ^^^
    schedule b (t - 16)) 1
termination_by t

/-- Round `t`. -/
def hashRound (b : Octets 64) (r : Registers) (t : ℕ) : Registers where
  A := rotl r.A 5 + roundFunction t r.B r.C r.D + r.E + roundConstant t + schedule b t
  B := r.A
  C := rotl r.B 30
  D := r.C
  E := r.D

def compress (s : Registers) (b : Octets 64) : Registers :=
  s + (List.range 80).foldl (hashRound b) s

def initialValue : Registers := ⟨0x67452301, 0xEFCDAB89, 0x98BADCFE, 0x10325476, 0xC3D2E1F0⟩

/-- A one bit, and zeros up to the place of the length. -/
def padding (len : ℕ) : Bytes := 0x80 :: List.replicate ((119 - len % 64) % 64) 0

/-- The hash of a message as if it had `count` bytes. -/
def hashCounted (m : Bytes) (count : ℕ) : Bytes :=
  let r := (absorb compress initialValue (m ++ padding m.length ++ beBytes 8 (8 * count))).state
  beBytes 4 r.A.toNat ++ beBytes 4 r.B.toNat ++ beBytes 4 r.C.toNat ++ beBytes 4 r.D.toNat ++
    beBytes 4 r.E.toNat

/-- The secure hash of a message. -/
def secureHash (m : Bytes) : Bytes := hashCounted m m.length

@[simp] theorem hashCounted_length (m : Bytes) (count : ℕ) : (hashCounted m count).length = 20 := by
  simp [hashCounted]

theorem schedule_of_lt {b : Octets 64} {t : ℕ} (h : t < 16) : schedule b t = blockWord b t := by
  rw [schedule, if_pos h]

theorem schedule_add (b : Octets 64) (t : ℕ) : schedule b (t + 16) = rotl
    (schedule b (t + 13) ^^^ schedule b (t + 8) ^^^ schedule b (t + 2) ^^^ schedule b t) 1 := by
  have h : ¬ t + 16 < 16 := by omega
  rw [schedule, if_neg h]
  rfl

end Masala.Library
