import Masala.Library.Exec
import Mathlib.Data.List.Induction

/-!
# Partial correctness of executions

`Ensures x Q` says that the result of `x` satisfies `Q` if there is one. The
rules follow the structure of a program, so that the contract of a function is
proved from those of the functions it calls.
-/
namespace Masala.Library

def Ensures {α : Type} (x : Exec α) (Q : α → Prop) : Prop := ∀ a, x = .ok a → Q a

section Rules
variable {α β σ : Type} {x y : Exec α} {f : α → Exec β} {P Q : α → Prop} {R : β → Prop}

@[simp] theorem ensures_ok {a : α} : Ensures (.ok a) Q ↔ Q a := by simp [Ensures]

@[simp] theorem ensures_error {e : Fault} : Ensures (.error e : Exec α) Q := by simp [Ensures]

theorem Ensures.mono (h : Ensures x P) (hpq : ∀ a, P a → Q a) : Ensures x Q :=
  fun a ha => hpq a (h a ha)

theorem Ensures.and (hp : Ensures x P) (hq : Ensures x Q) : Ensures x fun a => P a ∧ Q a :=
  fun a ha => ⟨hp a ha, hq a ha⟩

theorem ensures_bind : Ensures (x >>= f) R ↔ Ensures x fun a => Ensures (f a) R := by
  cases x with
  | error e => simp
  | ok a => simp

theorem Ensures.bind (hx : Ensures x P) (hf : ∀ a, P a → Ensures (f a) R) :
    Ensures (x >>= f) R := ensures_bind.mpr (hx.mono hf)

/-- Nothing is known about the first part. -/
theorem ensures_then (hf : ∀ a, Ensures (f a) R) : Ensures (x >>= f) R :=
  ensures_bind.mpr fun a _ => hf a

theorem ensures_ite {c : Prop} [Decidable c] (hx : c → Ensures x Q) (hy : ¬ c → Ensures y Q) :
    Ensures (if c then x else y) Q := by
  by_cases h : c
  · rw [if_pos h]
    exact hx h
  · rw [if_neg h]
    exact hy h

/-- What every step keeps holds after a run. -/
theorem ensures_foldlM {ε : Type} {step : σ → ε → Exec σ} {Inv : σ → Prop}
    (hstep : ∀ s e, Inv s → Ensures (step s e) Inv) {s : σ} (h : Inv s) (es : List ε) :
    Ensures (es.foldlM step s) Inv := by
  induction es generalizing s with
  | nil => exact ensures_ok.mpr h
  | cons e es ih =>
    rw [List.foldlM_cons]
    exact (hstep s e h).bind fun t ht => ih ht

/-- The same with an invariant about what has been done so far. -/
theorem ensures_foldlM_history {ε : Type} {step : σ → ε → Exec σ} {Inv : List ε → σ → Prop}
    {es : List ε} {s : σ} (hstep : ∀ done e rest s, es = done ++ e :: rest → Inv done s →
      Ensures (step s e) (Inv (done ++ [e]))) (h : Inv [] s) :
    Ensures (es.foldlM step s) (Inv es) := by
  have hloop : ∀ done rest s, es = done ++ rest → Inv done s →
      Ensures (rest.foldlM step s) (Inv es) := by
    intro done rest
    induction rest generalizing done with
    | nil =>
      rintro s he hs
      rw [List.append_nil] at he
      exact ensures_ok.mpr (he ▸ hs)
    | cons e rest ih =>
      intro s he hs
      rw [List.foldlM_cons]
      exact (hstep done e rest s he hs).bind fun t ht => ih (done ++ [e]) t (by simp [he]) ht
  exact hloop [] es s rfl h

/-- Where every step that is taken at a good place succeeds and keeps an invariant about the past,
every run of such steps does. -/
theorem foldlM_total_of {ε : Type} {step : σ → ε → Exec σ} {Inv : List ε → σ → Prop}
    {Good : List ε → ε → Prop}
    (hstep : ∀ es e s, Good es e → Inv es s → ∃ t, step s e = .ok t ∧ Inv (es ++ [e]) t) {s : σ}
    (h : Inv [] s) (es : List ε) (hgood : ∀ pre e, pre ++ [e] <+: es → Good pre e) :
    ∃ t, es.foldlM step s = .ok t ∧ Inv es t := by
  induction es using List.reverseRecOn with
  | nil => exact ⟨s, rfl, h⟩
  | append_singleton es e ih =>
    obtain ⟨t, hrun, ht⟩ := ih fun pre e' hpre => hgood pre e' (hpre.trans (List.prefix_append _ _))
    obtain ⟨u, hlast, hu⟩ := hstep es e t (hgood es e List.prefix_rfl) ht
    exact ⟨u, by rw [foldlM_snoc, hrun, exec_ok_bind, hlast], hu⟩

/-- The same where every place is good. -/
theorem foldlM_total {ε : Type} {step : σ → ε → Exec σ} {Inv : List ε → σ → Prop}
    (hstep : ∀ es e s, Inv es s → ∃ t, step s e = .ok t ∧ Inv (es ++ [e]) t) {s : σ}
    (h : Inv [] s) (es : List ε) : ∃ t, es.foldlM step s = .ok t ∧ Inv es t :=
  foldlM_total_of (fun es e s (_ : True) => hstep es e s) h es fun _ _ _ => trivial

end Rules
end Masala.Library
