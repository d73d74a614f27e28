import Masala.Bencode.DecodeValue
import Masala.Bencode.ValidateValue

/-!
# The language of containers

For a packet that opens a dictionary or a list the early ends of the token
helpers cancel out: the validator accepts exactly the packets with a complete
container in front, and the decoder returns the tree of that container.
-/
namespace Masala.Bencode
open Library

theorem not_truncated_of_container {bs : Bytes}
    (hhead : bs.head? = some (ch 'd') ∨ bs.head? = some (ch 'l')) : ¬ Truncated bs := by
  rintro ⟨ds, hne, hd, rfl | rfl | rfl⟩
  · obtain ⟨c, ds, rfl⟩ := List.exists_cons_of_ne_nil hne
    obtain ⟨-, -, -, hcd, hcl, -⟩ := digit_ne_marks (hd c (by simp))
    rcases hhead with h | h
    · exact hcd (by simpa using h)
    · exact hcl (by simpa using h)
  · simp at hhead
  · simp at hhead

/-- A truncated token that starts the packet is the whole packet. -/
theorem TruncatedAt.whole {bs : Bytes} {q : ℕ} (h : TruncatedAt bs bs.length 0 q) :
    Truncated bs := by
  obtain ⟨-, ds, htrunc, hat, hlen⟩ := h
  have : ds = bs := (At.zero_iff.mp hat).eq_of_length (by omega)
  exact this ▸ htrunc

/-- Language equality for containers, with uniqueness of the prefix and the decoded tree. -/
theorem benValidate_container (bs : Bytes)
    (hhead : bs.head? = some (ch 'd') ∨ bs.head? = some (ch 'l')) :
    ((∃ p, benValidate bs bs.length = .ok (some p)) ↔ ∃ pre t, pre <+: bs ∧ Value pre t) ∧
    ∀ pre t, pre <+: bs → Value pre t →
      (∀ pre' t', pre' <+: bs → Value pre' t' → pre' = pre ∧ t' = t) ∧
      benValidate bs bs.length = .ok (some pre.length) ∧
      ∀ fuel, pre.length < fuel → benDec fuel bs = .ok (some t, pre.length) := by
  refine ⟨⟨?_, ?_⟩, ?_⟩
  · rintro ⟨p, hp⟩
    rcases benValidate_sound le_rfl hp with ⟨pre, t, value, hat, -, -⟩ | htrunc
    · exact ⟨pre, t, At.zero_iff.mp hat, value⟩
    · exact absurd htrunc.whole (not_truncated_of_container hhead)
  · rintro ⟨pre, t, hpre, value⟩
    exact ⟨_, benValidate_value value hpre hpre.length_le⟩
  · intro pre t hpre value
    exact ⟨fun pre' t' hpre' value' => value_unique hpre' hpre value' value,
      benValidate_value value hpre hpre.length_le,
      fun fuel hf => benDec_value value hpre hf⟩

/-- A list of one string, with a byte behind it that belongs to no value. -/
theorem benValidate_container_list :
    benValidate [ch 'l', ch '1', ch ':', 0, ch 'e', 255] 6 = .ok (some 5) ∧
      benDec 6 [ch 'l', ch '1', ch ':', 0, ch 'e', 255] = .ok (some (.list [.str [0]]), 5) := by
  have value : Value [ch 'l', ch '1', ch ':', 0, ch 'e'] (.list [.str [0]]) :=
    @Value.list [ch '1', ch ':', 0] _ (@Items.cons [ch '1', ch ':', 0] [] _ _
      (.str (@StrToken.mk [ch '1'] [0] (digits_singleton rfl) (by decide) (by decide) (by decide)
        (by decide) (by decide))) .nil)
  have h := (benValidate_container [ch 'l', ch '1', ch ':', 0, ch 'e', 255] (.inr rfl)).2 _ _
    ⟨[255], rfl⟩ value
  exact ⟨h.2.1, h.2.2 6 (by decide)⟩

end Masala.Bencode
