import Masala.Library.Exec

/-!
# Byte arrays of a fixed size
-/
namespace Masala.Library

/-- A byte array whose type fixes its size, such as a `UCHAR id[20]`. -/
@[ext] structure Octets (n : ℕ) where
  bytes : Bytes
  size_eq : bytes.length = n
deriving DecidableEq

/-- A property of bytes that can be tried on all of them. -/
theorem forall_byte {P : UInt8 → Prop} (h : ∀ n : Fin 256, P (UInt8.ofNat n)) (c : UInt8) :
    P c := by
  have hc := h ⟨c.toNat, c.toNat_lt⟩
  simpa using hc

namespace Octets
variable {n : ℕ}

/-- `n` copies of one byte, as `memset` leaves them. -/
def replicate (n : ℕ) (c : UInt8) : Octets n := ⟨List.replicate n c, List.length_replicate⟩

theorem bytes_injective {a b : Octets n} : a.bytes = b.bytes ↔ a = b := Octets.ext_iff.symm

end Octets
end Masala.Library
