import Masala.Container.LinkedList

/-!
# What holds of every payload in memory

A property of the payloads behind all pointers of a list, whether or not the
list still leads to them. The operations keep it without any well-formedness.
-/
namespace Masala.Container
open Library

variable {α : Type} {P : α → Prop} {l l' : ObjList α}

def ObjList.Every (P : α → Prop) (l : ObjList α) : Prop := ∀ p it, l.mem p = some it → P it.val

theorem every_init : (listInit : ObjList α).Every P := fun _ _ h => nomatch h

theorem ObjList.Every.item (h : l.Every P) {p : Ptr} {it : ObjItem α}
    (hitem : l.item (some p) = .ok it) : P it.val := by
  rw [ObjList.item, Option.bind_some] at hitem
  split at hitem
  · rename_i it' hit
    obtain rfl := Except.ok.inj hitem
    exact h p it' hit
  · cases hitem

theorem ObjList.Every.update (h : l.Every P) {q : Ptr} {o : Option (ObjItem α)}
    (ho : ∀ it, o = some it → P it.val) :
    ({ l with mem := Function.update l.mem q o } : ObjList α).Every P := by
  intro p it hit
  by_cases hp : p = q
  · subst hp
    exact ho it ((Function.update_self p o l.mem).symm.trans hit)
  · exact h p it ((Function.update_of_ne hp o l.mem).symm.trans hit)

theorem ObjList.Every.write (h : l.Every P) {p : Option Ptr} {f : ObjItem α → ObjItem α}
    (hf : ∀ it, P it.val → P (f it).val) (hw : l.write p f = .ok l') : l'.Every P := by
  cases p with
  | none => cases hw
  | some q =>
    rw [ObjList.write] at hw
    cases hmem : l.mem q with
    | none =>
      rw [hmem] at hw
      cases hw
    | some it =>
      rw [hmem] at hw
      cases hw
      refine h.update fun it' hit' => ?_
      obtain rfl := Option.some.inj hit'
      exact hf it (h q it hmem)

theorem ObjList.Every.setVal (h : l.Every P) {p : Option Ptr} {v : α} (hv : P v)
    (hw : l.setVal p v = .ok l') : l'.Every P := h.write (fun _ _ => hv) hw

theorem ObjList.Every.relink (h : l.Every P) {p : Option Ptr} {f : ObjItem α → ObjItem α}
    {l₀ : ObjList α} (h₀ : l₀.Every P) (hf : ∀ it, P it.val → P (f it).val)
    (hw : l.relink p f l₀ = .ok l') : l'.Every P := by
  cases p with
  | none =>
    cases hw
    exact h₀
  | some q =>
    rw [ObjList.relink] at hw
    exact h.write hf hw

theorem ObjList.Every.put (h : l.Every P) {v : α} (hv : P v) {p : Ptr}
    (hput : listPut l v = .ok (l', p)) : l'.Every P := by
  have halloc : ∀ prev : Option Ptr, (l.alloc ⟨v, none, prev⟩).Every P := by
    intro prev
    have hnew : ({ l with mem := Function.update l.mem l.fresh (some ⟨v, none, prev⟩) } :
        ObjList α).Every P := h.update fun it hit => Option.some.inj hit ▸ hv
    exact hnew
  rw [listPut] at hput
  by_cases hs : l.start = none
  · rw [if_pos hs] at hput
    cases hput
    exact halloc none
  · rw [if_neg hs] at hput
    obtain ⟨l₁, hwrite, hput⟩ := exec_bind_eq_ok.mp hput
    cases hput
    have hlast : l₁.Every P := by
      refine (halloc l.stop).write ?_ hwrite
      exact fun _ hit => hit
    exact hlast

theorem ObjList.Every.del (h : l.Every P) {p q : Option Ptr} (hdel : listDel l p = .ok (l', q)) :
    l'.Every P := by
  cases p with
  | none =>
    cases hdel
    exact h
  | some p =>
    by_cases hc : l.counter = 0
    · rw [listDel, if_pos hc] at hdel
      cases hdel
      exact h
    · rw [listDel_eq hc] at hdel
      obtain ⟨it, -, hdel⟩ := exec_bind_eq_ok.mp hdel
      obtain ⟨l₁, hprev, hdel⟩ := exec_bind_eq_ok.mp hdel
      obtain ⟨l₂, hnext, hdel⟩ := exec_bind_eq_ok.mp hdel
      cases hdel
      have hl₁ : l₁.Every P := by
        refine h.relink ?_ ?_ hprev
        · exact h
        · exact fun _ hit => hit
      have hl₂ : l₂.Every P := by
        refine hl₁.relink ?_ ?_ hnext
        · exact hl₁
        · exact fun _ hit => hit
      exact hl₂.update fun it hit => absurd hit (by simp)

end Masala.Container
