import Masala.Library.Buffer
import Masala.Library.SecureHash

/-!
# The hash of the host names

The context counts the bytes in two words and keeps the tail of an unfinished
block in its buffer. The rounds run over sixteen words in place of eighty and
rename the five variables in place of moving them.
-/
namespace Masala.Digest
open Library

/-- `sha1_context`; the five words of `state` in order. -/
structure Sha1Context where
  total0 : UInt32
  total1 : UInt32
  state : Registers
  buffer : Octets 64
  ipad : Octets 64
  opad : Octets 64

def GET_UINT32_BE (b : Octets 64) (i : ℕ) (h : i + 3 < 64) : UInt32 :=
  have hb := b.size_eq
  (b.bytes[i].toUInt32 <<< 24) ||| (b.bytes[i + 1].toUInt32 <<< 16) |||
    (b.bytes[i + 2].toUInt32 <<< 8) ||| b.bytes[i + 3].toUInt32

def PUT_UINT32_BE (n : UInt32) : Bytes :=
  [(n >>> 24).toUInt8, (n >>> 16).toUInt8, (n >>> 8).toUInt8, n.toUInt8]

def sha1Starts (ctx : Sha1Context) : Sha1Context :=
  { ctx with
    total0 := 0
    total1 := 0
    state := ⟨0x67452301, 0xEFCDAB89, 0x98BADCFE, 0x10325476, 0xC3D2E1F0⟩ }

/-! ## One block -/

/-- `uint32_t W[16]`. -/
abbrev Words := Vector UInt32 16

/-- An index `t & 0x0F`. -/
def slot (t : ℕ) : Fin 16 := ⟨t &&& 0x0F, Nat.lt_of_le_of_lt Nat.and_le_right (by decide)⟩

def S (x n : UInt32) : UInt32 := (x <<< n) ||| ((x &&& 0xFFFFFFFF) >>> (32 - n))

/-- `R(t)`: the word, and the words with it stored. -/
def R (W : Words) (t : ℕ) : UInt32 × Words :=
  let temp := W[slot (t - 3)] ^^^ W[slot (t - 8)] ^^^ W[slot (t - 14)] ^^^ W[slot t]
  let w := S temp 1
  (w, W.set (slot t) w)

/-- The last argument of line `t`: `W[t]`, from 16 on `R(t)`. -/
def lineWord (W : Words) (t : ℕ) : UInt32 × Words := if t < 16 then (W[slot t], W) else R W t

/-- Five lines `P(..)` from line `t` on, after which each variable has its own place again. -/
def P (F : UInt32 → UInt32 → UInt32 → UInt32) (K : UInt32) (t : ℕ) :
    Words × Registers → Words × Registers
  | (W, ⟨A, B, C, D, E⟩) =>
    let (x, W) := lineWord W t
    let E := E + (S A 5 + F B C D + K + x)
    let B := S B 30
    let (x, W) := lineWord W (t + 1)
    let D := D + (S E 5 + F A B C + K + x)
    let A := S A 30
    let (x, W) := lineWord W (t + 2)
    let C := C + (S D 5 + F E A B + K + x)
    let E := S E 30
    let (x, W) := lineWord W (t + 3)
    let B := B + (S C 5 + F D E A + K + x)
    let D := S D 30
    let (x, W) := lineWord W (t + 4)
    let A := A + (S B 5 + F C D E + K + x)
    let C := S C 30
    (W, ⟨A, B, C, D, E⟩)

/-- The twenty lines under one `F` and `K`. -/
def lines (F : UInt32 → UInt32 → UInt32 → UInt32) (K : UInt32) (t : ℕ)
    (s : Words × Registers) : Words × Registers :=
  P F K (t + 15) (P F K (t + 10) (P F K (t + 5) (P F K t s)))

/-- The bytes of word `i` lie in the block. -/
theorem word_bound (i : Fin 16) : 4 * i.val + 3 < 64 := by omega

def sha1Process (ctx : Sha1Context) (data : Octets 64) : Sha1Context :=
  let W : Words := Vector.ofFn fun i => GET_UINT32_BE data (4 * i) (word_bound i)
  let s := (W, ctx.state)
  let s := lines (fun x y z => z ^^^ (x &&& (y ^^^ z))) 0x5A827999 0 s
  let s := lines (fun x y z => x ^^^ y ^^^ z) 0x6ED9EBA1 20 s
  let s := lines (fun x y z => (x &&& y) ||| (z &&& (x ||| y))) 0x8F1BBCDC 40 s
  let s := lines (fun x y z => x ^^^ y ^^^ z) 0xCA62C1D6 60 s
  { ctx with
    state := ⟨ctx.state.A + s.2.A, ctx.state.B + s.2.B, ctx.state.C + s.2.C, ctx.state.D + s.2.D,
      ctx.state.E + s.2.E⟩ }

/-! ## A message -/

/-- The new totals. -/
def countBytes (ctx : Sha1Context) (ilen : ℕ) : Sha1Context :=
  let total0 := (ctx.total0 + UInt32.ofNat ilen) &&& 0xFFFFFFFF
  if total0 < UInt32.ofNat ilen then
    { ctx with total0 := total0, total1 := ctx.total1 + 1 }
  else { ctx with total0 := total0 }

/-- Complete the block in the buffer, if one is begun and the input has enough. -/
def fillBlock (ctx : Sha1Context) (input : Bytes) (left : ℕ) :
    Exec (Sha1Context × Bytes × ℕ) := do
  let fill := 64 - left
  if left ≠ 0 ∧ input.length ≥ fill then
    let buffer ← ctx.buffer.copyTo left (input.take fill)
    return (sha1Process { ctx with buffer := buffer } buffer, input.drop fill, 0)
  else return (ctx, input, left)

/-- The loop over the whole blocks of the input, with what it leaves of it. -/
def processBlocks (ctx : Sha1Context) (input : Bytes) : Sha1Context × Bytes :=
  if h : 64 ≤ input.length then
    processBlocks (sha1Process ctx (Octets.ofPrefix input h)) (input.drop 64)
  else (ctx, input)
termination_by input.length

/-- Keep the rest of the input in the buffer. -/
def keepRest (ctx : Sha1Context) (input : Bytes) (left : ℕ) : Exec Sha1Context := do
  if input.length > 0 then
    let buffer ← ctx.buffer.copyTo left input
    return { ctx with buffer := buffer }
  else return ctx

/-- `sha1_update` behind the totals. -/
def updateBlocks (ctx : Sha1Context) (input : Bytes) (left : ℕ) : Exec Sha1Context := do
  let (ctx, input, left) ← fillBlock ctx input left
  let (ctx, input) := processBlocks ctx input
  keepRest ctx input left

/-- `sha1_update`; `ilen` is the length of the input. -/
def sha1Update (ctx : Sha1Context) (input : Bytes) : Exec Sha1Context :=
  if input.length ≤ 0 then return ctx
  else updateBlocks (countBytes ctx input.length) input (ctx.total0 &&& 0x3F).toNat

def sha1_padding : Bytes := 0x80 :: List.replicate 63 0

/-- `sha1_finish`, with the context it leaves. -/
def sha1Finish (ctx : Sha1Context) (output : Octets 20) : Exec (Sha1Context × Octets 20) := do
  let high := (ctx.total0 >>> 29) ||| (ctx.total1 <<< 3)
  let low := ctx.total0 <<< 3
  let msglen := PUT_UINT32_BE high ++ PUT_UINT32_BE low
  let last := ctx.total0 &&& 0x3F
  let padn := if last < 56 then 56 - last else 120 - last
  let pad ← copyFrom sha1_padding 0 padn.toNat
  let ctx ← sha1Update ctx pad
  let ctx ← sha1Update ctx msglen
  let output ← output.copyTo 0 (PUT_UINT32_BE ctx.state.A)
  let output ← output.copyTo 4 (PUT_UINT32_BE ctx.state.B)
  let output ← output.copyTo 8 (PUT_UINT32_BE ctx.state.C)
  let output ← output.copyTo 12 (PUT_UINT32_BE ctx.state.D)
  let output ← output.copyTo 16 (PUT_UINT32_BE ctx.state.E)
  return (ctx, output)

/-- `sha1`; `stack` is what its context starts from. -/
def sha1 (stack : Sha1Context) (input : Bytes) (output : Octets 20) : Exec (Octets 20) := do
  let ctx ← sha1Update (sha1Starts stack) input
  let (_, output) ← sha1Finish ctx output
  return output

/-- `sha1_hash` on `bytes` characters of the memory. -/
def sha1Hash (stack : Sha1Context) (hash : Octets 20) (mem : Bytes) (buffer bytes : ℕ) :
    Exec (Octets 20) := do
  let hash ← hash.copyTo 0 (List.replicate 20 0)
  let input ← if bytes = 0 then pure [] else copyFrom mem buffer bytes
  sha1 stack input hash

/-! ## Message authentication -/

/-- The loop over the key. -/
def xorKey (ctx : Sha1Context) (i : ℕ) : Bytes → Exec Sha1Context
  | [] => return ctx
  | k :: key => do
    let p ← deref ctx.ipad.bytes i
    let ipad ← ctx.ipad.store i (p ^^^ k)
    let p ← deref ctx.opad.bytes i
    let opad ← ctx.opad.store i (p ^^^ k)
    xorKey { ctx with ipad := ipad, opad := opad } (i + 1) key

/-- A key of more than 64 bytes gives way to its hash. -/
def shortKey (stack : Sha1Context) (sum : Octets 20) (key : Bytes) : Exec Bytes :=
  if key.length > 64 then do
    let sum ← sha1 stack key sum
    return sum.bytes
  else return key

/-- `sha1_hmac_starts`; `stack` and `sum` are the local variables of the hash of a long key. -/
def sha1HmacStarts (stack : Sha1Context) (sum : Octets 20) (ctx : Sha1Context) (key : Bytes) :
    Exec Sha1Context := do
  let key ← shortKey stack sum key
  let ctx ← xorKey
    { ctx with ipad := Octets.replicate 64 0x36, opad := Octets.replicate 64 0x5C } 0 key
  sha1Update (sha1Starts ctx) ctx.ipad.bytes

def sha1HmacUpdate (ctx : Sha1Context) (input : Bytes) : Exec Sha1Context := sha1Update ctx input

def sha1HmacFinish (tmpbuf : Octets 20) (ctx : Sha1Context) (output : Octets 20) :
    Exec (Sha1Context × Octets 20) := do
  let (ctx, tmpbuf) ← sha1Finish ctx tmpbuf
  let ctx ← sha1Update (sha1Starts ctx) ctx.opad.bytes
  let ctx ← sha1Update ctx tmpbuf.bytes
  sha1Finish ctx output

def sha1HmacReset (ctx : Sha1Context) : Exec Sha1Context :=
  sha1Update (sha1Starts ctx) ctx.ipad.bytes

/-- `sha1_hmac`; `stack` is what its context starts from, `frame`, `sum` and `tmpbuf` are the local
variables of the functions it calls. -/
def sha1Hmac (stack frame : Sha1Context) (sum tmpbuf : Octets 20) (key input : Bytes)
    (output : Octets 20) : Exec (Octets 20) := do
  let ctx ← sha1HmacStarts frame sum stack key
  let ctx ← sha1HmacUpdate ctx input
  let (_, output) ← sha1HmacFinish tmpbuf ctx output
  return output

end Masala.Digest
