import Masala.Library.Exec
import Mathlib.Data.Int.Notation

/-!
# Strings in byte memory

A pointer into memory stands for the bytes from there up to the next NUL.
-/
namespace Masala.Library

/-- The value of a `char`, which a compiler may take as signed or as unsigned. -/
def charVal (signed : Bool) (c : UInt8) : ℤ :=
  if signed = true ∧ 128 ≤ c.toNat then c.toNat - 256 else c.toNat

/-- `strlen` runs out of the memory where no NUL follows. -/
def strlen (mem : Bytes) (p : ℕ) : Exec ℕ :=
  match (mem.drop p).findIdx? (· = 0) with
  | some len => .ok len
  | none => .error (.read mem.length)

/-- The string a pointer stands for. -/
def stringAt (mem : Bytes) (p : ℕ) : Bytes := (mem.drop p).takeWhile (· ≠ 0)

/-- The loop of `strchr` from an address on. -/
def strchrFrom (c : UInt8) : ℕ → Bytes → Exec (Option ℕ)
  | p, [] => .error (.read p)
  | p, b :: bs =>
    if b = c then .ok (some p) else if b = 0 then .ok none else strchrFrom c (p + 1) bs

/-- `strchr`, the address of the first `c` in a string. -/
def strchr (mem : Bytes) (p : ℕ) (c : UInt8) : Exec (Option ℕ) := strchrFrom c p (mem.drop p)

section Strings
variable {mem s : Bytes} {p : ℕ}

theorem strlen_at (h : At mem p (s ++ [0])) (hs : 0 ∉ s) : strlen mem p = .ok s.length := by
  obtain ⟨t, ht⟩ := h
  have hidx : (mem.drop p).findIdx? (· = 0) = some s.length := by
    rw [← ht, List.append_assoc, List.findIdx?_append, List.findIdx?_eq_none_iff.mpr]
    · simp [List.findIdx?_cons]
    · intro c hc
      exact decide_eq_false fun he => hs (he ▸ hc)
  rw [strlen, hidx]

theorem stringAt_at (h : At mem p (s ++ [0])) (hs : 0 ∉ s) : stringAt mem p = s := by
  obtain ⟨t, ht⟩ := h
  rw [stringAt, ← ht, List.append_assoc, List.takeWhile_append_of_pos]
  · simp
  · intro c hc
    exact decide_eq_true fun he => hs (he ▸ hc)

/-- Where a NUL follows there is a string. -/
theorem exists_string (h : 0 ∈ mem.drop p) : ∃ s, 0 ∉ s ∧ At mem p (s ++ [0]) := by
  obtain ⟨s, t, ht, hs⟩ := List.eq_append_cons_of_mem h
  exact ⟨s, hs, t, by rw [ht, List.append_assoc, List.singleton_append]⟩

theorem strlen_missing (h : 0 ∉ mem.drop p) : strlen mem p = .error (.read mem.length) := by
  have hidx : (mem.drop p).findIdx? (· = 0) = none :=
    List.findIdx?_eq_none_iff.mpr fun c hc => decide_eq_false fun he => h (he ▸ hc)
  rw [strlen, hidx]

theorem strchrFrom_append {c : UInt8} (hs : ∀ b ∈ s, b ≠ c ∧ b ≠ 0) (p : ℕ) (t : Bytes) :
    strchrFrom c p (s ++ t) = strchrFrom c (p + s.length) t := by
  induction s generalizing p with
  | nil => rfl
  | cons b s ih =>
    rw [List.forall_mem_cons] at hs
    rw [List.cons_append, strchrFrom, if_neg hs.1.1, if_neg hs.1.2, ih hs.2, List.length_cons,
      Nat.add_assoc, Nat.add_comm 1]

/-- The character stands behind a string that does not have it. -/
theorem strchr_found {c : UInt8} (h : At mem p (s ++ [c])) (hs : ∀ b ∈ s, b ≠ c ∧ b ≠ 0) :
    strchr mem p c = .ok (some (p + s.length)) := by
  obtain ⟨t, ht⟩ := h
  rw [strchr, ← ht, List.append_assoc, strchrFrom_append hs, List.singleton_append, strchrFrom,
    if_pos rfl]

/-- The string ends before the character. -/
theorem strchr_missing {c : UInt8} (h : At mem p (s ++ [0])) (hs : ∀ b ∈ s, b ≠ c ∧ b ≠ 0)
    (hc : c ≠ 0) : strchr mem p c = .ok none := by
  obtain ⟨t, ht⟩ := h
  rw [strchr, ← ht, List.append_assoc, strchrFrom_append hs, List.singleton_append, strchrFrom,
    if_neg hc.symm, if_pos rfl]

end Strings
end Masala.Library
