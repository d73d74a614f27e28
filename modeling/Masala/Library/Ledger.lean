import Mathlib.Data.List.Nodup
import Mathlib.Data.List.Perm.Basic
import Mathlib.Tactic.Common

/-!
# Double-entry bookkeeping

Things are opened under keys of their own, held, and closed. If every step
keeps the books balanced, each thing that was ever opened is either held, and
has never been closed, or it has been closed exactly once, and is not held.
-/
namespace Masala.Library

variable {α κ : Type*} {key : α → κ}

/-- All that was opened, each under its own key, is held or closed. -/
structure Ledger (key : α → κ) (opened held closed : List α) : Prop where
  keys : (opened.map key).Nodup
  balance : opened.Perm (held ++ closed)

section Ledger
variable {opened held held' closed new done : List α} {x : α}

theorem ledger_nil : Ledger key ([] : List α) [] [] := ⟨List.nodup_nil, .nil⟩

/-- A balanced step. -/
theorem Ledger.step (h : Ledger key opened held closed)
    (hstep : (held ++ new).Perm (held' ++ done)) (hkeys : ((opened ++ new).map key).Nodup) :
    Ledger key (opened ++ new) held' (closed ++ done) := by
  refine ⟨hkeys, ?_⟩
  calc List.Perm (opened ++ new) ((held ++ closed) ++ new) := h.balance.append_right new
    List.Perm _ ((held ++ new) ++ closed) := by
      rw [List.append_assoc, List.append_assoc]
      exact List.perm_append_comm.append_left held
    List.Perm _ ((held' ++ done) ++ closed) := hstep.append_right closed
    List.Perm _ (held' ++ (closed ++ done)) := by
      rw [List.append_assoc]
      exact List.perm_append_comm.append_left held'

theorem Ledger.split_keys (h : Ledger key opened held closed) :
    (held.map key ++ closed.map key).Nodup := by
  rw [← List.map_append]
  exact (h.balance.map key).nodup_iff.mp h.keys

theorem Ledger.closed_keys (h : Ledger key opened held closed) : (closed.map key).Nodup :=
  (List.nodup_append.mp h.split_keys).2.1

theorem Ledger.held_or_closed (h : Ledger key opened held closed) (hx : x ∈ opened) :
    (x ∈ held ∧ key x ∉ closed.map key) ∨ (x ∈ closed ∧ key x ∉ held.map key) := by
  have hdisjoint := (List.nodup_append.mp h.split_keys).2.2
  rcases List.mem_append.mp (h.balance.mem_iff.mp hx) with hx | hx
  · exact .inl ⟨hx, fun hc => hdisjoint _ (List.mem_map_of_mem hx) _ hc rfl⟩
  · exact .inr ⟨hx, fun hh => hdisjoint _ hh _ (List.mem_map_of_mem hx) rfl⟩

end Ledger
end Masala.Library
