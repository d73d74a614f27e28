import Mathlib.Data.List.Basic
import Mathlib.Tactic.Common

/-!
# Faulting executions over byte memory

A C function that may follow a bad pointer, leave its buffer, exit the process
or loop is an `Exec` computation. Loops carry fuel, and running out of it is a
fault of its own: a result under some fuel is a terminating execution, and a
`fuel` fault under every fuel is a hang.
-/
namespace Masala.Library

/-- What stops an execution before it returns. -/
inductive Fault
  | fuel
  | null
  | read (off : ℕ)
  | write (off : ℕ)
  | fatal (msg : String)
  deriving DecidableEq, Repr

abbrev Exec := Except Fault

section Monad
variable {α β : Type}

@[simp] theorem exec_pure (a : α) : (pure a : Exec α) = .ok a := rfl

@[simp] theorem exec_ok_bind (a : α) (f : α → Exec β) :
    (Except.ok a : Exec α) >>= f = f a := rfl

@[simp] theorem exec_error_bind (e : Fault) (f : α → Exec β) :
    (Except.error e : Exec α) >>= f = .error e := rfl

/-- Inversion of sequencing: a completed sequence has a completed first part. -/
theorem exec_bind_eq_ok {x : Exec α} {f : α → Exec β} {b : β} :
    x >>= f = .ok b ↔ ∃ a, x = .ok a ∧ f a = .ok b := by
  cases x with
  | error e => simp
  | ok a => simp

/-- The last step of a run. -/
theorem foldlM_snoc {σ ε : Type} (step : σ → ε → Exec σ) (s : σ) (es : List ε) (e : ε) :
    (es ++ [e]).foldlM step s = es.foldlM step s >>= fun t => step t e := by
  rw [List.foldlM_append]
  congr 1
  funext t
  rw [List.foldlM_cons]
  exact bind_pure _

/-- The places of a list one after the other. -/
theorem forall_snoc_iff {ε : Type} {P : List ε → ε → Prop} {es : List ε} :
    (∀ pre e, pre ++ [e] <+: es → P pre e) ↔ ∀ k (h : k < es.length), P (es.take k) es[k] := by
  constructor
  · intro h k hk
    refine h _ _ ?_
    rw [← List.take_succ_eq_append_getElem hk]
    exact List.take_prefix _ _
  · rintro h pre e ⟨t, rfl⟩
    have hk := h pre.length (by simp)
    simpa using hk

end Monad

/-! ## Bytes behind a pointer -/

abbrev Bytes := List UInt8

/-- Read the byte a cursor points at. -/
def deref (code : Bytes) (p : ℕ) : Exec UInt8 :=
  match code[p]? with
  | some c => .ok c
  | none => .error (.read p)

/-- Copy `n` bytes starting at a cursor. -/
def copyFrom (code : Bytes) (p n : ℕ) : Exec Bytes :=
  if p + n ≤ code.length then .ok ((code.drop p).take n) else .error (.read code.length)

/-- The bytes `bs` stand in the memory at cursor `p`. -/
def At (code : Bytes) (p : ℕ) (bs : Bytes) : Prop := bs <+: code.drop p

theorem At.zero_iff {code bs : Bytes} : At code 0 bs ↔ bs <+: code := by simp [At]

theorem At.bound {code bs : Bytes} {p : ℕ} (h : At code p bs) (hne : bs ≠ []) :
    p + bs.length ≤ code.length := by
  have hl := h.length_le
  have hpos := List.length_pos_iff.mpr hne
  rw [List.length_drop] at hl
  omega

theorem At.split {code bs cs : Bytes} {p : ℕ} :
    At code p (bs ++ cs) ↔ At code p bs ∧ At code (p + bs.length) cs := by
  unfold At
  constructor
  · rintro ⟨t, ht⟩
    rw [List.append_assoc] at ht
    refine ⟨⟨cs ++ t, ht⟩, ⟨t, ?_⟩⟩
    rw [← List.drop_drop, ← ht, List.drop_left]
  · rintro ⟨⟨t, ht⟩, ⟨u, hu⟩⟩
    rw [← List.drop_drop, ← ht, List.drop_left] at hu
    exact ⟨u, by rw [List.append_assoc, hu, ht]⟩

theorem At.left {code bs cs : Bytes} {p : ℕ} (h : At code p (bs ++ cs)) : At code p bs :=
  (At.split.mp h).1

theorem At.right {code bs cs : Bytes} {p : ℕ} (h : At code p (bs ++ cs)) :
    At code (p + bs.length) cs := (At.split.mp h).2

theorem At.tail {code bs : Bytes} {c : UInt8} {p : ℕ} (h : At code p (c :: bs)) :
    At code (p + 1) bs := (At.split.mp (show At code p ([c] ++ bs) from h)).2

theorem At.getElem? {code bs : Bytes} {c : UInt8} {p : ℕ} (h : At code p (c :: bs)) :
    code[p]? = some c := by
  obtain ⟨t, ht⟩ := h
  have := congrArg List.head? ht
  simpa [List.head?_drop] using this.symm

theorem At.deref {code bs : Bytes} {c : UInt8} {p : ℕ} (h : At code p (c :: bs)) :
    deref code p = .ok c := by simp [Library.deref, h.getElem?]

theorem At.copyFrom {code bs : Bytes} {p : ℕ} (h : At code p bs) (hne : bs ≠ []) :
    copyFrom code p bs.length = .ok bs := by
  rw [Library.copyFrom, if_pos (h.bound hne), ← List.prefix_iff_eq_take.mp h]

theorem deref_eq_ok {code : Bytes} {p : ℕ} {c : UInt8} :
    deref code p = .ok c ↔ code[p]? = some c := by
  unfold deref
  cases code[p]? with
  | none => simp
  | some d => simp

theorem deref_of_lt {code : Bytes} {p : ℕ} (h : p < code.length) :
    deref code p = .ok code[p] := by simp [deref, h]

theorem At.single {code : Bytes} {p : ℕ} {c : UInt8} (h : Library.deref code p = .ok c) :
    At code p [c] := by
  rw [deref_eq_ok] at h
  obtain ⟨hp, hc⟩ := List.getElem?_eq_some_iff.mp h
  exact ⟨code.drop (p + 1), by rw [List.singleton_append, ← hc, List.getElem_cons_drop]⟩

theorem At.snoc {code bs : Bytes} {p : ℕ} {c : UInt8} (h : At code p bs)
    (hc : Library.deref code (p + bs.length) = .ok c) : At code p (bs ++ [c]) :=
  At.split.mpr ⟨h, At.single hc⟩

end Masala.Library
