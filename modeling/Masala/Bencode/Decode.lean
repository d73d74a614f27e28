import Masala.Bencode.Tree

/-!
# The decoder

`ben_dec` trusts its input: it has no bounds checks, a byte that fits no case
of a token loop leaves the cursor where it is, and a dictionary without a
value ends the process. The memory is every byte that may be inspected,
so an inspected offset outside of it is a fault.
-/
namespace Masala.Bencode
open Library

/-- The loop of `ben_dec_s`: `i` digits have been read since `start`. -/
def benDecSLoop (code : Bytes) (start : ℕ) : ℕ → ℕ → ℕ → Exec (ObjBen × ℕ)
  | 0, _, _ => .error .fuel
  | fuel + 1, i, p => do
    let c ← deref code p
    if isDigit c then benDecSLoop code start fuel (i + 1) (p + 1)
    else if c = ch ':' then do
      let buf ← copyFrom code start i
      let l := atol buf
      let node ← benStr code (p + 1) l
      return (node, p + 1 + l.toNat)
    else
      -- the switch has no default branch: `run` stays set and `p` does not move
      benDecSLoop code start fuel i p

def benDecS (fuel : ℕ) (code : Bytes) (p : ℕ) : Exec (ObjBen × ℕ) :=
  benDecSLoop code p fuel 0 p

/-- The loop of `ben_dec_i`; `sign` is the variable `prefix`. -/
def benDecILoop (code : Bytes) (start : ℕ) (sign : ℤ) : ℕ → ℕ → ℕ → Exec (ObjBen × ℕ)
  | 0, _, _ => .error .fuel
  | fuel + 1, i, p => do
    let c ← deref code p
    if isDigit c then benDecILoop code start sign fuel (i + 1) (p + 1)
    else if c = ch 'e' then do
      let buf ← copyFrom code start i
      return (.int (sign * atol buf), p + 1)
    else benDecILoop code start sign fuel i p

def benDecI (fuel : ℕ) (code : Bytes) (p : ℕ) : Exec (ObjBen × ℕ) := do
  let c ← deref code (p + 1)
  if c = ch '-' then benDecILoop code (p + 2) (-1) fuel 0 (p + 2)
  else benDecILoop code (p + 1) 1 fuel 0 (p + 1)

mutual
/-- `ben_dec_r`; a byte that opens no value gives the NULL node and keeps the cursor. -/
def benDecR : ℕ → Bytes → ℕ → Exec (Option ObjBen × ℕ)
  | 0, _, _ => .error .fuel
  | fuel + 1, code, p => do
    let c ← deref code p
    if c = ch 'd' then do
      let (node, p) ← benDecDLoop fuel code (.dict []) (p + 1)
      return (some node, p)
    else if c = ch 'l' then do
      let (node, p) ← benDecLLoop fuel code (.list []) (p + 1)
      return (some node, p)
    else if c = ch 'i' then do
      let (node, p) ← benDecI fuel code p
      return (some node, p)
    else if isDigit c then do
      let (node, p) ← benDecS fuel code p
      return (some node, p)
    else return (none, p)

/-- The loop of `ben_dec_d`, with the dictionary built so far. -/
def benDecDLoop : ℕ → Bytes → ObjBen → ℕ → Exec (ObjBen × ℕ)
  | 0, _, _, _ => .error .fuel
  | fuel + 1, code, dict, p => do
    let c ← deref code p
    if c = ch 'e' then return (dict, p + 1)
    else do
      let (key, p) ← benDecS fuel code p
      let (val, p) ← benDecR fuel code p
      let dict ← benDict dict (some key) val
      benDecDLoop fuel code dict p

/-- The loop of `ben_dec_l`, with the list built so far. -/
def benDecLLoop : ℕ → Bytes → ObjBen → ℕ → Exec (ObjBen × ℕ)
  | 0, _, _, _ => .error .fuel
  | fuel + 1, code, list, p => do
    let c ← deref code p
    if c = ch 'e' then return (list, p + 1)
    else do
      let (val, p) ← benDecR fuel code p
      let list ← benList list val
      benDecLLoop fuel code list p
end

/-- `ben_dec` with the final position of the cursor; `bensize` is never looked at. -/
def benDec (fuel : ℕ) (bencode : Bytes) : Exec (Option ObjBen × ℕ) := benDecR fuel bencode 0

end Masala.Bencode
