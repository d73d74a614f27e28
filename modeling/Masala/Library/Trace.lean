import Masala.Library.Ensures
import Mathlib.Logic.Function.Basic
import Mathlib.Data.Set.Defs

/-!
# Traces of a step relation

A system as a relation between states whose steps carry labels. What every step
keeps holds after a trace, and what every process of a network keeps, as long
as it only receives what another one has sent, holds of all of them in every
interleaving.
-/
namespace Masala.Library

/-- The steps with these labels lead from the first state to the second. -/
inductive Trace {σ ε : Type} (step : σ → ε → σ → Prop) : σ → List ε → σ → Prop
  | nil (s : σ) : Trace step s [] s
  | cons {s t u : σ} {e : ε} {es : List ε} (h : step s e t) (hs : Trace step t es u) :
      Trace step s (e :: es) u

/-- Some steps lead from the first state to the second. -/
def Steps {σ ε : Type} (step : σ → ε → σ → Prop) (s t : σ) : Prop := ∃ es, Trace step s es t

section Rules
variable {σ ε : Type} {step : σ → ε → σ → Prop} {s t u : σ} {e : ε} {es fs : List ε}

theorem Trace.single (h : step s e t) : Trace step s [e] t := .cons h (.nil t)

theorem Trace.append (h : Trace step s es t) (h' : Trace step t fs u) :
    Trace step s (es ++ fs) u := by
  induction h with
  | nil s => exact h'
  | cons hd _ ih => exact .cons hd (ih h')

/-- What every step keeps holds at the end of a trace. -/
theorem Trace.keeps {Inv : σ → Prop} (h : Trace step s es t)
    (hstep : ∀ s e t, step s e t → Inv s → Inv t) (hs : Inv s) : Inv t := by
  induction h with
  | nil s => exact hs
  | cons hd _ ih => exact ih (hstep _ _ _ hd hs)

/-- The same with an invariant about the labels so far. -/
theorem Trace.history {Inv : List ε → σ → Prop} (h : Trace step s es t)
    (hstep : ∀ past s e t, step s e t → Inv past s → Inv (past ++ [e]) t) {past : List ε}
    (hs : Inv past s) : Inv (past ++ es) t := by
  induction h generalizing past with
  | nil s => rwa [List.append_nil]
  | cons hd _ ih =>
    rw [List.append_cons]
    exact ih (hstep past _ _ _ hd hs)

theorem Steps.refl (s : σ) : Steps step s s := ⟨[], .nil s⟩

theorem Steps.single (h : step s e t) : Steps step s t := ⟨[e], .single h⟩

theorem Steps.trans (h : Steps step s t) (h' : Steps step t u) : Steps step s u := by
  obtain ⟨es, h⟩ := h
  obtain ⟨fs, h'⟩ := h'
  exact ⟨es ++ fs, h.append h'⟩

theorem Steps.keeps {Inv : σ → Prop} (h : Steps step s t)
    (hstep : ∀ s e t, step s e t → Inv s → Inv t) (hs : Inv s) : Inv t := by
  obtain ⟨es, h⟩ := h
  exact h.keeps hstep hs

/-- Programs that only take steps, one after the other. The second may rely on what steps keep. -/
theorem Steps.bind {Inv : σ → Prop} {x : Exec σ} {f : σ → Exec σ}
    (hstep : ∀ s e t, step s e t → Inv s → Inv t) (hs : Inv s) (hx : Ensures x (Steps step s))
    (hf : ∀ t, Inv t → Ensures (f t) (Steps step t)) : Ensures (x >>= f) (Steps step s) :=
  hx.bind fun t h => (hf t (h.keeps hstep hs)).mono fun _ h' => h.trans h'

end Rules

/-! ## Networks -/

/-- Processes that exchange messages. `sent` is everything a process has sent so far, and
`received` says of an event which message of which process it brings, if it brings one. -/
structure Network (ι σ ε δ : Type) where
  step : ι → σ → ε → σ → Prop
  sent : σ → Set δ
  received : ε → Option (ι × δ)

section Network
variable {ι σ ε δ : Type} [DecidableEq ι] {net : Network ι σ ε δ}

/-- One process takes a step. A message that it receives has been sent, at any time before: the
network may lose, repeat, delay and reorder messages, and bring them to anyone. -/
inductive Network.Moves (net : Network ι σ ε δ) (s : ι → σ) : ι × ε → (ι → σ) → Prop
  | intro {i : ι} {e : ε} {t : σ} (h : net.step i (s i) e t)
      (hsent : ∀ j d, net.received e = some (j, d) → d ∈ net.sent (s j)) :
      Moves net s (i, e) (Function.update s i t)

/-- What a process keeps as long as the messages it receives are good, and what makes the messages
it sends good, holds of every process in every reachable state of the network. -/
theorem Network.keeps {Inv : ι → σ → Prop} {Good : ι → δ → Prop}
    (hstep : ∀ i s e t, net.step i s e t → (∀ j d, net.received e = some (j, d) → Good j d) →
      Inv i s → Inv i t)
    (hgood : ∀ i s, Inv i s → ∀ d ∈ net.sent s, Good i d) {s t : ι → σ} {es : List (ι × ε)}
    (h : Trace net.Moves s es t) (hs : ∀ i, Inv i (s i)) : ∀ i, Inv i (t i) := by
  have hmove : ∀ s e t, net.Moves s e t → (∀ i, Inv i (s i)) → ∀ i, Inv i (t i) := by
    intro s _ _ hmove hs k
    cases hmove with
    | @intro i e t hlocal hsent =>
      have hreceived : ∀ j d, net.received e = some (j, d) → Good j d :=
        fun j d hr => hgood j (s j) (hs j) d (hsent j d hr)
      by_cases hk : k = i
      · subst hk
        rw [Function.update_self]
        exact hstep k (s k) e t hlocal hreceived (hs k)
      · rw [Function.update_of_ne hk]
        exact hs k
  exact h.keeps hmove hs

/-- The same with invariants that may refer to what everybody has sent and to all that has
happened. Both only grow, so what is said about them stays true. -/
theorem Network.history {Inv : (ι → Set δ) → List (ι × ε) → ι → σ → Prop}
    {Good : (ι → Set δ) → List (ι × ε) → ι → δ → Prop}
    (hmono : ∀ sent sent' past past' i s, (∀ j, sent j ⊆ sent' j) → past ⊆ past' →
      Inv sent past i s → Inv sent' past' i s)
    (hgood : ∀ sent past i s, Inv sent past i s → ∀ d ∈ net.sent s, Good sent past i d)
    (hstep : ∀ sent past i s e t, net.step i s e t → sent i = net.sent s →
      (∀ j d, net.received e = some (j, d) → d ∈ sent j ∧ Good sent past j d) → Inv sent past i s →
      net.sent s ⊆ net.sent t ∧ Inv sent (past ++ [(i, e)]) i t)
    {s t : ι → σ} {es : List (ι × ε)} (h : Trace net.Moves s es t)
    (hs : ∀ i, Inv (fun j => net.sent (s j)) [] i (s i)) :
    ∀ i, Inv (fun j => net.sent (t j)) es i (t i) := by
  have hmove : ∀ past s e t, net.Moves s e t →
      (∀ i, Inv (fun j => net.sent (s j)) past i (s i)) →
      ∀ i, Inv (fun j => net.sent (t j)) (past ++ [e]) i (t i) := by
    intro past s _ _ hmove hs
    cases hmove with
    | @intro i e t hlocal hsent =>
      have hreceived : ∀ j d, net.received e = some (j, d) →
          d ∈ net.sent (s j) ∧ Good (fun j => net.sent (s j)) past j d :=
        fun j d hr => ⟨hsent j d hr, hgood _ past j (s j) (hs j) d (hsent j d hr)⟩
      obtain ⟨hgrow, hinv⟩ := hstep _ past i (s i) e t hlocal rfl hreceived (hs i)
      have hmore : ∀ j, net.sent (s j) ⊆ net.sent (Function.update s i t j) := by
        intro j
        by_cases hj : j = i
        · subst hj
          rwa [Function.update_self]
        · intro d hd
          rwa [Function.update_of_ne hj]
      intro k
      by_cases hk : k = i
      · subst hk
        rw [Function.update_self]
        exact hmono _ _ _ _ k t hmore (List.Subset.refl _) hinv
      · rw [Function.update_of_ne hk]
        exact hmono _ _ _ _ k (s k) hmore (List.subset_append_left _ _) (hs k)
  have hrun := h.history hmove hs
  rwa [List.nil_append] at hrun

end Network
end Masala.Library
