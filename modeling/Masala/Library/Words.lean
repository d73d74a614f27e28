import Masala.Library.BigEndian
import Masala.Library.CString

/-!
# Numbers and pointers in memory

A piece of memory with its address, and what a program reads through a pointer
into it. The byte order and the size of a pointer are those of any machine.
-/
namespace Masala.Library

/-- How a machine lays numbers out in memory. -/
structure ByteOrder where
  write : ℕ → ℕ → Bytes
  read : Bytes → ℕ
  length_write (k v : ℕ) : (write k v).length = k
  read_write (k v : ℕ) : read (write k v) = v % 256 ^ k

namespace ByteOrder

def bigEndian : ByteOrder := ⟨beBytes, beNat, beBytes_length, beNat_beBytes⟩

def littleEndian : ByteOrder where
  write k v := (beBytes k v).reverse
  read bs := beNat bs.reverse
  length_write k v := by rw [List.length_reverse, beBytes_length]
  read_write k v := by rw [List.reverse_reverse, beNat_beBytes]

end ByteOrder

/-- The byte order of a machine and the size of its pointers. -/
structure Machine where
  order : ByteOrder
  pointer : ℕ
  pointer_pos : 0 < pointer

/-- The bytes of a pointer. -/
def Machine.ptr (c : Machine) (v : ℕ) : Bytes := c.order.write c.pointer v

@[simp] theorem Machine.ptr_length (c : Machine) (v : ℕ) : (c.ptr v).length = c.pointer :=
  c.order.length_write _ _

/-- A piece of memory and its address. -/
structure Segment where
  base : ℕ
  bytes : Bytes

namespace Segment

def load (s : Segment) (addr n : ℕ) : Exec Bytes :=
  if s.base ≤ addr then copyFrom s.bytes (addr - s.base) n else .error (.read addr)

/-- The string at an address. -/
def string (s : Segment) (addr : ℕ) : Exec Bytes :=
  if s.base ≤ addr then do
    let len ← strlen s.bytes (addr - s.base)
    return (s.bytes.drop (addr - s.base)).take len
  else .error (.read addr)

def number (c : Machine) (s : Segment) (addr k : ℕ) : Exec ℕ := do
  let bs ← s.load addr k
  return c.order.read bs

/-- The pointers from an address on, up to a NULL. -/
def pointers (c : Machine) (s : Segment) : ℕ → ℕ → Exec (List ℕ)
  | 0, _ => .error .fuel
  | k + 1, addr => do
    let v ← s.number c addr c.pointer
    if v = 0 then return []
    else
      let vs ← s.pointers c k (addr + c.pointer)
      return v :: vs

section Reads
variable {c : Machine} {s : Segment} {off : ℕ} {bs : Bytes}

theorem load_at (h : At s.bytes off bs) (hne : bs ≠ []) :
    s.load (s.base + off) bs.length = .ok bs := by
  rw [load, if_pos (Nat.le_add_right _ _), Nat.add_sub_cancel_left]
  exact h.copyFrom hne

theorem string_at (h : At s.bytes off (bs ++ [0])) (h0 : 0 ∉ bs) :
    s.string (s.base + off) = .ok bs := by
  rw [string, if_pos (Nat.le_add_right _ _), Nat.add_sub_cancel_left, strlen_at h h0, exec_ok_bind]
  exact congrArg Except.ok (List.prefix_iff_eq_take.mp h.left).symm

theorem number_at {k v : ℕ} (h : At s.bytes off (c.order.write k v)) (hk : 0 < k)
    (hv : v < 256 ^ k) : s.number c (s.base + off) k = .ok v := by
  have hlen := c.order.length_write k v
  have hne : c.order.write k v ≠ [] := by
    apply List.ne_nil_of_length_pos
    rwa [hlen]
  have hload := load_at h hne
  rw [hlen] at hload
  rw [number, hload, exec_ok_bind, c.order.read_write, Nat.mod_eq_of_lt hv]
  rfl

/-- An array of pointers with a NULL at its end. -/
theorem pointers_at {vs : List ℕ} {k : ℕ} (h : At s.bytes off ((vs ++ [0]).flatMap c.ptr))
    (hvs : ∀ v ∈ vs, v ≠ 0 ∧ v < 256 ^ c.pointer) (hk : vs.length < k) :
    s.pointers c k (s.base + off) = .ok vs := by
  induction vs generalizing off k with
  | nil =>
    obtain ⟨k, rfl⟩ := Nat.exists_eq_add_one_of_ne_zero (Nat.ne_of_gt hk)
    have hnull : At s.bytes off (c.order.write c.pointer 0) := by
      simpa [Machine.ptr] using h
    rw [pointers, number_at hnull c.pointer_pos (Nat.pow_pos (by decide)), exec_ok_bind]
    rfl
  | cons v vs ih =>
    obtain ⟨k, rfl⟩ := Nat.exists_eq_add_one_of_ne_zero (Nat.ne_of_gt (Nat.zero_lt_of_lt hk))
    rw [List.forall_mem_cons] at hvs
    rw [List.cons_append, List.flatMap_cons] at h
    have hrest := h.right
    rw [Machine.ptr_length] at hrest
    rw [pointers, number_at h.left c.pointer_pos hvs.1.2, exec_ok_bind, if_neg hvs.1.1,
      Nat.add_assoc, ih hrest hvs.2 (Nat.lt_of_succ_lt_succ hk)]
    rfl

end Reads
end Segment
end Masala.Library
