import Masala.Library.Octets

/-!
# Writing into a fixed buffer

An array of the stack takes the bytes of a write one after the other, and the
first one behind its end is a fault.
-/
namespace Masala.Library

variable {n : ℕ}

/-- `a[p] = c`. -/
def Octets.store (a : Octets n) (p : ℕ) (c : UInt8) : Exec (Octets n) :=
  if p < n then .ok ⟨a.bytes.set p c, by rw [List.length_set, a.size_eq]⟩ else .error (.write p)

/-- Copy bytes to the addresses from `a + p` on. -/
def Octets.copyTo (a : Octets n) (p : ℕ) : Bytes → Exec (Octets n)
  | [] => .ok a
  | c :: cs => do
    let a ← a.store p c
    a.copyTo (p + 1) cs

section Copy
variable {a : Octets n} {p : ℕ}

theorem store_of_lt {c : UInt8} (h : p < n) :
    ∃ b, a.store p c = .ok b ∧ b.bytes.take (p + 1) = a.bytes.take p ++ [c] := by
  rw [Octets.store, if_pos h]
  refine ⟨_, rfl, ?_⟩
  have hp : p < a.bytes.length := a.size_eq.symm ▸ h
  have hlen : (a.bytes.take p ++ [c]).length = p + 1 := by
    rw [List.length_append, List.length_take, Nat.min_eq_left (Nat.le_of_lt hp),
      List.length_singleton]
  have hset := List.set_eq_take_append_cons_drop (l := a.bytes) (i := p) (a := c)
  rw [if_pos hp, List.append_cons] at hset
  dsimp only
  rw [hset, List.take_left' hlen]

/-- A store replaces one byte. -/
theorem store_at {pre post : Bytes} {c : UInt8} (d : UInt8) (h : a.bytes = pre ++ c :: post) :
    ∃ b, a.store pre.length d = .ok b ∧ b.bytes = pre ++ d :: post := by
  have hlt : pre.length < n := by
    rw [← a.size_eq, h]
    simp
  refine ⟨_, by rw [Octets.store, if_pos hlt], ?_⟩
  dsimp only
  rw [h, List.set_append_right _ _ (Nat.le_refl _), Nat.sub_self, List.set_cons_zero]

/-- One write after the other is one write of all the bytes. -/
theorem copyTo_append (xs ys : Bytes) :
    a.copyTo p (xs ++ ys) = a.copyTo p xs >>= fun b => b.copyTo (p + xs.length) ys := by
  induction xs generalizing a p with
  | nil => rfl
  | cons c xs ih =>
    rw [List.cons_append, Octets.copyTo, Octets.copyTo, bind_assoc]
    congr 1
    funext b
    rw [ih, List.length_cons, Nat.add_right_comm, Nat.add_assoc]

/-- A write inside the buffer puts its bytes behind what stands in front of them. -/
theorem copyTo_of_le {bs : Bytes} (h : p + bs.length ≤ n) : ∃ b, a.copyTo p bs = .ok b ∧
    b.bytes.take (p + bs.length) = a.bytes.take p ++ bs := by
  induction bs generalizing a p with
  | nil => exact ⟨a, rfl, by simp⟩
  | cons c bs ih =>
    rw [List.length_cons] at h
    obtain ⟨b, hb, htake⟩ := store_of_lt (a := a) (c := c) (show p < n by omega)
    obtain ⟨b', hb', htake'⟩ := ih (a := b) (p := p + 1) (by omega)
    refine ⟨b', by rw [Octets.copyTo, hb, exec_ok_bind, hb'], ?_⟩
    rw [htake, List.append_assoc, List.singleton_append, Nat.add_right_comm] at htake'
    exact htake'

/-- A write replaces as many bytes as it has. -/
theorem copyTo_at {pre mid post bs : Bytes} (h : a.bytes = pre ++ mid ++ post)
    (hlen : mid.length = bs.length) :
    ∃ b, a.copyTo pre.length bs = .ok b ∧ b.bytes = pre ++ bs ++ post := by
  induction bs generalizing a pre mid with
  | nil =>
    rw [List.length_eq_zero_iff.mp hlen] at h
    exact ⟨a, rfl, h⟩
  | cons c bs ih =>
    obtain ⟨d, mid, rfl⟩ := List.exists_cons_of_length_eq_add_one hlen
    rw [List.append_assoc, List.cons_append] at h
    obtain ⟨a₁, hstore, hbytes⟩ := store_at c h
    have hsplit : a₁.bytes = (pre ++ [c]) ++ mid ++ post := by simp [hbytes]
    obtain ⟨b, hcopy, hb⟩ := ih hsplit (Nat.succ.inj hlen)
    rw [List.length_append, List.length_singleton] at hcopy
    refine ⟨b, by rw [Octets.copyTo, hstore, exec_ok_bind, hcopy], ?_⟩
    rw [hb]
    simp

/-- A write that leaves the buffer faults. -/
theorem copyTo_of_lt {bs : Bytes} (hne : bs ≠ []) (h : n < p + bs.length) :
    ∃ q, a.copyTo p bs = .error (.write q) := by
  induction bs generalizing a p with
  | nil => exact absurd rfl hne
  | cons c bs ih =>
    rw [List.length_cons] at h
    by_cases hp : p < n
    · obtain ⟨b, hb, -⟩ := store_of_lt (a := a) (c := c) hp
      have hbs : bs ≠ [] := by
        rintro rfl
        rw [List.length_nil] at h
        omega
      obtain ⟨q, hq⟩ := ih (a := b) (p := p + 1) hbs (by omega)
      exact ⟨q, by rw [Octets.copyTo, hb, exec_ok_bind, hq]⟩
    · exact ⟨p, by rw [Octets.copyTo, Octets.store, if_neg hp]; rfl⟩

end Copy
end Masala.Library
