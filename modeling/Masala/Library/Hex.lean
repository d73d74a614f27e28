import Masala.Library.Octets

/-!
# Hexadecimal text

Bytes as two digits each, and texts of digits as bytes. Text and bytes stand
for each other up to the case of the letters.
-/
namespace Masala.Library

/-- A value below 16 as `%x` prints it. -/
def hexDigit (v : ℕ) : UInt8 := UInt8.ofNat (if v < 10 then 0x30 + v else 0x57 + v)

/-- A byte as `%02x` prints it. -/
def hexPair (c : UInt8) : Bytes := [hexDigit (c.toNat / 16), hexDigit (c.toNat % 16)]

def hexText : Bytes → Bytes
  | [] => []
  | c :: cs => hexPair c ++ hexText cs

/-- The digits, with letters of either case. -/
def isHex (c : UInt8) : Bool :=
  (0x30 ≤ c && c ≤ 0x39) || (0x41 ≤ c && c ≤ 0x46) || (0x61 ≤ c && c ≤ 0x66)

def hexValue (c : UInt8) : ℕ :=
  if 0x61 ≤ c then c.toNat - 0x57 else if 0x41 ≤ c then c.toNat - 0x37 else c.toNat - 0x30

/-- The byte that two digits stand for. -/
def hexByte (hi lo : UInt8) : UInt8 := UInt8.ofNat (16 * hexValue hi + hexValue lo)

def hexBytes : Bytes → Bytes
  | hi :: lo :: cs => hexByte hi lo :: hexBytes cs
  | _ => []

def toLower (c : UInt8) : UInt8 := if 0x41 ≤ c && c ≤ 0x5a then c + 0x20 else c

/-! ## One digit -/

theorem hexValue_hexDigit : ∀ v < 16, hexValue (hexDigit v) = v := by decide

theorem isHex_hexDigit : ∀ v < 16, isHex (hexDigit v) = true := by decide

theorem hexValue_lt : ∀ c : UInt8, isHex c = true → hexValue c < 16 := by
  apply forall_byte
  decide +kernel

theorem hexDigit_hexValue : ∀ c : UInt8, isHex c = true → hexDigit (hexValue c) = toLower c := by
  apply forall_byte
  decide +kernel

theorem isHex_ne_zero {c : UInt8} (h : isHex c = true) : c ≠ 0 := by
  rintro rfl
  cases h

/-! ## Texts -/

section Texts
variable {cs : Bytes}

theorem hexText_length (bs : Bytes) : (hexText bs).length = 2 * bs.length := by
  induction bs with
  | nil => rfl
  | cons c bs ih =>
    rw [hexText, List.length_append, ih, List.length_cons, hexPair, List.length_cons,
      List.length_singleton]
    omega

theorem isHex_of_mem_hexText {bs : Bytes} {c : UInt8} (hc : c ∈ hexText bs) : isHex c = true := by
  induction bs with
  | nil => exact absurd hc List.not_mem_nil
  | cons b bs ih =>
    have hb := b.toNat_lt
    rw [hexText, hexPair, List.cons_append, List.singleton_append, List.mem_cons,
      List.mem_cons] at hc
    rcases hc with rfl | rfl | hc
    · exact isHex_hexDigit _ (by omega)
    · exact isHex_hexDigit _ (by omega)
    · exact ih hc

/-- Bytes are what their text stands for. -/
theorem hexBytes_hexText (bs : Bytes) : hexBytes (hexText bs) = bs := by
  induction bs with
  | nil => rfl
  | cons c bs ih =>
    have hc := c.toNat_lt
    have hsum : 16 * (c.toNat / 16) + c.toNat % 16 = c.toNat := Nat.div_add_mod _ _
    rw [hexText, hexPair, List.cons_append, List.singleton_append, hexBytes, ih, hexByte,
      hexValue_hexDigit _ (by omega), hexValue_hexDigit _ (by omega), hsum, UInt8.ofNat_toNat]

theorem hexPair_hexByte {hi lo : UInt8} (hhi : isHex hi = true) (hlo : isHex lo = true) :
    hexPair (hexByte hi lo) = [toLower hi, toLower lo] := by
  have h₁ := hexValue_lt hi hhi
  have h₂ := hexValue_lt lo hlo
  have hbyte : (hexByte hi lo).toNat = 16 * hexValue hi + hexValue lo := by
    rw [hexByte, UInt8.toNat_ofNat']
    omega
  have hdiv : (16 * hexValue hi + hexValue lo) / 16 = hexValue hi := by omega
  have hmod : (16 * hexValue hi + hexValue lo) % 16 = hexValue lo := by omega
  rw [hexPair, hbyte, hdiv, hmod, hexDigit_hexValue hi hhi, hexDigit_hexValue lo hlo]

/-- A text of whole bytes is, in lower case, the text of its bytes. -/
theorem hexText_hexBytes (k : ℕ) (hlen : cs.length = 2 * k) (hcs : ∀ c ∈ cs, isHex c = true) :
    hexText (hexBytes cs) = cs.map toLower := by
  induction k generalizing cs with
  | zero =>
    rw [List.length_eq_zero_iff.mp hlen]
    rfl
  | succ k ih =>
    obtain ⟨hi, cs, rfl⟩ := List.exists_cons_of_length_eq_add_one hlen
    obtain ⟨lo, cs, rfl⟩ := List.exists_cons_of_length_eq_add_one (Nat.succ.inj hlen)
    have hrest : cs.length = 2 * k := by
      rw [List.length_cons, List.length_cons] at hlen
      omega
    rw [List.forall_mem_cons, List.forall_mem_cons] at hcs
    rw [hexBytes, hexText, hexPair_hexByte hcs.1 hcs.2.1, ih hrest hcs.2.2]
    rfl

end Texts
end Masala.Library
