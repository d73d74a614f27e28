import Masala.Bencode.Tree

/-!
# The validator

`ben_validate` walks the packet with a cursor that it compares with the size
before it looks at a byte. A result `some p` is the return value 1 with the
cursor at `p`, a result `none` is the return value 0.
-/
namespace Masala.Bencode
open Library

/-- The test that ends each helper: the cursor may stand behind the last byte, not further. -/
def checkEnd (size p : ℕ) : Option ℕ := if p > size then none else some p

/-- The loop of `ben_validate_s`: `i` digits have been read since `start`. -/
def benValidateSLoop (code : Bytes) (size start : ℕ) : ℕ → ℕ → ℕ → Exec (Option ℕ)
  | 0, _, _ => .error .fuel
  | fuel + 1, i, p =>
    if p < size then do
      let c ← deref code p
      if isDigit c then benValidateSLoop code size start fuel (i + 1) (p + 1)
      else if c = ch ':' then
        if i = 0 ∨ i > BEN_STR_MAXLEN then return none
        else do
          let buf ← copyFrom code start i
          let l := atol buf
          if l ≤ 0 ∨ l > BEN_STR_MAXSIZE then return none
          else return checkEnd size (p + (l.toNat + 1))
      else return none
    else
      -- the packet ended inside of the digits and `run` is still set
      return checkEnd size p

def benValidateS (fuel : ℕ) (code : Bytes) (size p : ℕ) : Exec (Option ℕ) :=
  if p ≥ size then return none else benValidateSLoop code size p fuel 0 p

/-- The loop of `ben_validate_i`. -/
def benValidateILoop (code : Bytes) (size start : ℕ) : ℕ → ℕ → ℕ → Exec (Option ℕ)
  | 0, _, _ => .error .fuel
  | fuel + 1, i, p =>
    if p < size then do
      let c ← deref code p
      if isDigit c then benValidateILoop code size start fuel (i + 1) (p + 1)
      else if c = ch 'e' then
        if i = 0 ∨ i > BEN_INT_MAXLEN then return none
        else do
          let buf ← copyFrom code start i
          let result := atol buf
          if result < 0 ∨ result > BEN_INT_MAXSIZE then return none
          else return checkEnd size (p + 1)
      else return none
    else return checkEnd size p

def benValidateI (fuel : ℕ) (code : Bytes) (size p : ℕ) : Exec (Option ℕ) :=
  if p + 1 ≥ size then return none
  else do
    let c ← deref code (p + 1)
    if c = ch '-' then
      if p + 2 ≥ size then return none
      else benValidateILoop code size (p + 2) fuel 0 (p + 2)
    else benValidateILoop code size (p + 1) fuel 0 (p + 1)

mutual
def benValidateR : ℕ → Bytes → ℕ → ℕ → Exec (Option ℕ)
  | 0, _, _, _ => .error .fuel
  | fuel + 1, code, size, p =>
    if p ≥ size then return none
    else do
      let c ← deref code p
      if c = ch 'd' then
        if p + 1 ≥ size then return none else benValidateDLoop fuel code size (p + 1)
      else if c = ch 'l' then
        if p + 1 ≥ size then return none else benValidateLLoop fuel code size (p + 1)
      else if c = ch 'i' then benValidateI fuel code size p
      else if isDigit c then benValidateS fuel code size p
      else return none

/-- The loop of `ben_validate_d`. -/
def benValidateDLoop : ℕ → Bytes → ℕ → ℕ → Exec (Option ℕ)
  | 0, _, _, _ => .error .fuel
  | fuel + 1, code, size, p => do
    let c ← deref code p
    if c = ch 'e' then return checkEnd size (p + 1)
    else do
      let some p ← benValidateS fuel code size p | return none
      let some p ← benValidateR fuel code size p | return none
      if p ≥ size then return none else benValidateDLoop fuel code size p

/-- The loop of `ben_validate_l`. -/
def benValidateLLoop : ℕ → Bytes → ℕ → ℕ → Exec (Option ℕ)
  | 0, _, _, _ => .error .fuel
  | fuel + 1, code, size, p => do
    let c ← deref code p
    if c = ch 'e' then return checkEnd size (p + 1)
    else do
      let some p ← benValidateR fuel code size p | return none
      if p ≥ size then return none else benValidateLLoop fuel code size p
end

/-- `ben_validate`. The fuel is enough for every packet of `bensize` bytes (`benValidate_total`),
so it only serves the recursion. -/
def benValidate (bencode : Bytes) (bensize : ℕ) : Exec (Option ℕ) :=
  benValidateR (2 * bensize + 2) bencode bensize 0

end Masala.Bencode
