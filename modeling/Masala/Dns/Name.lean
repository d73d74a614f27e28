import Masala.Dns.Message
import Masala.Library.Separator
import Mathlib.Data.List.TakeWhile

/-!
# Names on the wire and as strings

A name is a list of labels. Datagrams have a length in front of each, strings a
dot between two of them. The decoder walks over the labels and checks the
length of the string it builds, not the bytes that are left, so it reads on
where a datagram ends right behind a label.
-/
namespace Masala.Dns
open Library

/-- The labels as they stand in a datagram, without the zero behind the last. -/
def wire : List Bytes → Bytes
  | [] => []
  | l :: ls => l.length.toUInt8 :: (l ++ wire ls)

/-- The labels as a string. -/
abbrev dotted (ls : List Bytes) : Bytes := [0x2e].intercalate ls

def IsLabel (l : Bytes) : Prop := l ≠ [] ∧ l.length < 256

/-- Labels that the array for a name has room for. -/
structure IsName (ls : List Bytes) : Prop where
  labels : ∀ l ∈ ls, IsLabel l
  buffer : (wire ls).length ≤ 256

/-- What the decoder asks of the labels it has passed when `size` bytes were left. -/
structure Room (size : ℤ) (ls : List Bytes) : Prop extends IsName ls where
  size : ((wire ls).length : ℤ) ≤ size

section Forms
variable {ls ms : List Bytes} {l : Bytes}

theorem wire_append (ls ms : List Bytes) : wire (ls ++ ms) = wire ls ++ wire ms := by
  induction ls with
  | nil => rfl
  | cons l ls ih => rw [List.cons_append, wire, wire, ih, List.cons_append, List.append_assoc]

theorem wire_singleton (l : Bytes) : wire [l] = l.length.toUInt8 :: l := by
  rw [wire, wire, List.append_nil]

theorem wire_snoc_length (ls : List Bytes) (l : Bytes) :
    (wire (ls ++ [l])).length = (wire ls).length + 1 + l.length := by
  rw [wire_append, wire_singleton, List.length_append, List.length_cons]
  omega

theorem dotted_cons (hne : ls ≠ []) (l : Bytes) : dotted (l :: ls) = l ++ [0x2e] ++ dotted ls :=
  List.intercalate_cons_of_ne_nil hne

theorem dotted_snoc (hne : ls ≠ []) (l : Bytes) : dotted (ls ++ [l]) = dotted ls ++ 0x2e :: l := by
  induction ls with
  | nil => exact absurd rfl hne
  | cons m ls ih =>
    by_cases hls : ls = []
    · subst hls
      simp [dotted]
    · have hsnoc : ls ++ [l] ≠ [] := by simp
      rw [List.cons_append, dotted_cons hsnoc, dotted_cons hls, ih hls, ← List.append_assoc]

theorem two_mul_length_le (hl : ∀ l ∈ ls, IsLabel l) : 2 * ls.length ≤ (wire ls).length := by
  induction ls with
  | nil => exact Nat.le_refl 0
  | cons l ls ih =>
    have hpos := List.length_pos_iff.mpr (hl l List.mem_cons_self).1
    have hrest := ih fun m hm => hl m (List.mem_cons_of_mem _ hm)
    rw [wire, List.length_cons, List.length_cons, List.length_append]
    omega

/-- A string has one dot less than its name has lengths. -/
theorem dotted_length (hne : ls ≠ []) : (dotted ls).length + 1 = (wire ls).length := by
  induction ls with
  | nil => exact absurd rfl hne
  | cons l ls ih =>
    by_cases hls : ls = []
    · subst hls
      simp [dotted, wire]
    · have := ih hls
      rw [dotted_cons hls, wire]
      simp only [List.length_append, List.length_cons, List.length_nil]
      omega

theorem length_lt_wire (h : l ∈ ls) : l.length < (wire ls).length := by
  induction ls with
  | nil => exact absurd h List.not_mem_nil
  | cons m ls ih =>
    rw [wire, List.length_cons, List.length_append]
    rcases List.mem_cons.mp h with rfl | h
    · omega
    · have := ih h
      omega

theorem IsName.dotted_lt (h : IsName ls) : (dotted ls).length < 256 := by
  have hb := h.buffer
  by_cases hls : ls = []
  · subst hls
    simp [dotted]
  · have := dotted_length hls
    omega

theorem dotted_ne_nil (hne : ls ≠ []) (hl : ∀ l ∈ ls, IsLabel l) : (dotted ls).length ≠ 0 := by
  have hdot := dotted_length hne
  obtain ⟨l, ls, rfl⟩ := List.exists_cons_of_ne_nil hne
  have hpos := List.length_pos_iff.mpr (hl l List.mem_cons_self).1
  rw [wire, List.length_cons, List.length_append] at hdot
  omega

theorem size_toNat (h : l.length < 256) : (l.length.toUInt8).toNat = l.length := by
  rw [UInt8.toNat_ofNat']
  exact Nat.mod_eq_of_lt h

theorem IsLabel.toNat (h : IsLabel l) : (l.length.toUInt8).toNat = l.length := size_toNat h.2

theorem IsLabel.ne_zero (h : IsLabel l) : l.length.toUInt8 ≠ 0 := by
  intro he
  have hlen := h.toNat
  rw [he] at hlen
  exact h.1 (List.length_eq_zero_iff.mp hlen.symm)

/-- The lengths tell the labels apart. -/
theorem wire_injective (hl : ∀ l ∈ ls, l.length < 256) (hm : ∀ m ∈ ms, m.length < 256)
    (h : wire ls = wire ms) : ls = ms := by
  induction ls generalizing ms with
  | nil =>
    cases ms with
    | nil => rfl
    | cons m ms => exact absurd h.symm (List.cons_ne_nil _ _)
  | cons l ls ih =>
    cases ms with
    | nil => exact absurd h (List.cons_ne_nil _ _)
    | cons m ms =>
      obtain ⟨hsize, hrest⟩ := List.cons.inj h
      have hlen : l.length = m.length := by
        rw [← size_toNat (hl l List.mem_cons_self), hsize, size_toNat (hm m List.mem_cons_self)]
      obtain ⟨rfl, hbehind⟩ := List.append_inj hrest hlen
      rw [ih (fun l hl' => hl l (List.mem_cons_of_mem _ hl'))
        (fun m hm' => hm m (List.mem_cons_of_mem _ hm')) hbehind]

/-- The zero tells where a name ends. -/
theorem wire_unique {xs ys : Bytes} (hl : ∀ l ∈ ls, IsLabel l) (hm : ∀ m ∈ ms, IsLabel m)
    (h : wire ls ++ 0 :: xs = wire ms ++ 0 :: ys) : ls = ms ∧ xs = ys := by
  induction ls generalizing ms with
  | nil =>
    cases ms with
    | nil => exact ⟨rfl, (List.cons.inj h).2⟩
    | cons m ms => exact absurd (List.cons.inj h).1.symm (hm m List.mem_cons_self).ne_zero
  | cons l ls ih =>
    cases ms with
    | nil => exact absurd (List.cons.inj h).1 (hl l List.mem_cons_self).ne_zero
    | cons m ms =>
      rw [wire, wire, List.cons_append, List.cons_append] at h
      obtain ⟨hsize, hrest⟩ := List.cons.inj h
      have hlen : l.length = m.length := by
        rw [← (hl l List.mem_cons_self).toNat, hsize, (hm m List.mem_cons_self).toNat]
      rw [List.append_assoc, List.append_assoc] at hrest
      obtain ⟨rfl, hbehind⟩ := List.append_inj hrest hlen
      obtain ⟨rfl, hxs⟩ := ih (fun l hl' => hl l (List.mem_cons_of_mem _ hl'))
        (fun m hm' => hm m (List.mem_cons_of_mem _ hm')) hbehind
      exact ⟨rfl, hxs⟩

theorem IsName.nil : IsName [] := ⟨by simp, by simp [wire]⟩

theorem IsName.snoc (h : IsName ls) (hl : IsLabel l) (hb : (wire ls).length + 1 + l.length ≤ 256) :
    IsName (ls ++ [l]) := by
  refine ⟨fun m hm => ?_, by rwa [wire_snoc_length]⟩
  rcases List.mem_append.mp hm with hm | hm
  · exact h.labels m hm
  · exact List.mem_singleton.mp hm ▸ hl

/-- The check on the next label, in terms of the string it would complete. -/
theorem Room.snoc_iff {size : ℤ} (h : Room size ls) (hl : IsLabel l) :
    Room size (ls ++ [l]) ↔
      (wire ls).length + 1 + l.length ≤ 256 ∧ ((wire ls).length + 1 + l.length : ℤ) ≤ size := by
  constructor
  · intro hsnoc
    have hb := hsnoc.buffer
    have hs := hsnoc.size
    rw [wire_snoc_length] at hb hs
    exact ⟨hb, by omega⟩
  · rintro ⟨hb, hs⟩
    exact ⟨h.toIsName.snoc hl hb, by rw [wire_snoc_length]; omega⟩

end Forms

/-! ## The walk of the decoder -/

section Decode
variable {buffer : Bytes} {size : ℤ} {fuel p : ℕ} {domain : Octets 256} {ls ms : List Bytes}

/-- The string of the labels passed so far stands at the start of the array. -/
def Spells (domain : Octets 256) (ls : List Bytes) : Prop :=
  domain.bytes.take (dotted ls).length = dotted ls

theorem Room.of_append (h : Room size (ls ++ ms)) : Room size ls := by
  have hb := h.buffer
  have hsz := h.size
  rw [wire_append, List.length_append] at hb hsz
  exact ⟨⟨fun m hm => h.labels m (List.mem_append_left _ hm), by omega⟩, by omega⟩

/-- With the dot the array has as many characters as the labels have bytes. -/
theorem putDot_ok (h : Room size ls) (hs : Spells domain ls) :
    ∃ domain', putDot domain (dotted ls).length = .ok (domain', (wire ls).length) ∧
      ∀ l, domain'.bytes.take (wire ls).length ++ l = dotted (ls ++ [l]) := by
  by_cases hls : ls = []
  · subst hls
    exact ⟨domain, rfl, fun l => by simp [wire, dotted]⟩
  · have hlen := dotted_length hls
    have hb := h.buffer
    obtain ⟨domain', hstore, htake⟩ := store_of_lt (a := domain) (p := (dotted ls).length)
      (c := 0x2e) (by omega)
    refine ⟨domain', ?_, fun l => ?_⟩
    · rw [putDot, if_pos (dotted_ne_nil hls h.labels), hstore, exec_ok_bind, hlen]
      rfl
    · rw [← hlen, htake, hs, dotted_snoc hls, List.append_assoc, List.singleton_append]

/-- The walk over one label that passes the check. -/
theorem decode_label {l : Bytes} (fuel : ℕ) (h : Room size (ls ++ [l])) (hs : Spells domain ls)
    (hat : At buffer p (l.length.toUInt8 :: l)) :
    ∃ domain', decodeDomainLoop buffer size (fuel + 1) domain p (dotted ls).length =
      decodeDomainLoop buffer size fuel domain' (p + 1 + l.length) (dotted (ls ++ [l])).length ∧
      Spells domain' (ls ++ [l]) := by
  have hl : IsLabel l := h.labels l (by simp)
  obtain ⟨hb, hsz⟩ := (h.of_append.snoc_iff hl).mp h
  obtain ⟨domain₁, hdot, htext⟩ := putDot_ok h.of_append hs
  obtain ⟨domain', hcopy, htake⟩ := copyTo_of_le (a := domain₁)
    (show (wire ls).length + l.length ≤ 256 by omega)
  have hlen : (wire ls).length + l.length = (dotted (ls ++ [l])).length := by
    have := dotted_length (show ls ++ [l] ≠ [] by simp)
    rw [wire_snoc_length] at this
    omega
  refine ⟨domain', ?_, ?_⟩
  · rw [decodeDomainLoop, hat.deref, exec_ok_bind, if_pos hl.ne_zero, hdot, exec_ok_bind, hl.toNat]
    dsimp only
    rw [if_neg (by omega), hat.tail.copyFrom hl.1, exec_ok_bind, hcopy, exec_ok_bind, hlen]
  · rw [Spells, ← hlen, htake, htext]

/-- The walk over any number of labels. -/
theorem decode_labels (fuel : ℕ) (h : Room size (ls ++ ms)) (hs : Spells domain ls)
    (hat : At buffer p (wire ms)) :
    ∃ domain', decodeDomainLoop buffer size (ms.length + fuel) domain p (dotted ls).length =
      decodeDomainLoop buffer size fuel domain' (p + (wire ms).length) (dotted (ls ++ ms)).length ∧
      Spells domain' (ls ++ ms) := by
  induction ms generalizing ls domain p with
  | nil => exact ⟨domain, by simp [wire], by rwa [List.append_nil]⟩
  | cons l ms ih =>
    rw [List.append_cons] at h ⊢
    have hat' : At buffer p ((l.length.toUInt8 :: l) ++ wire ms) := by
      rw [wire] at hat
      exact hat
    obtain ⟨domain₁, hlabel, hs₁⟩ := decode_label (ms.length + fuel) h.of_append hs hat'.left
    have hrest : At buffer (p + 1 + l.length) (wire ms) := by
      have hright := hat'.right
      rw [List.length_cons, Nat.add_comm l.length, ← Nat.add_assoc] at hright
      exact hright
    obtain ⟨domain', hloop, hs'⟩ := ih h hs₁ hrest
    refine ⟨domain', ?_, hs'⟩
    rw [List.length_cons, Nat.add_right_comm, hlabel, hloop]
    congr 1
    rw [wire, List.length_cons, List.length_append]
    omega

/-- The walk over the labels of a name, of which the array has room for 128 at most. -/
theorem dnsDecodeDomain_labels (domain : Octets 256) (h : Room size ls)
    (hat : At buffer p (wire ls)) :
    ∃ fuel domain', dnsDecodeDomain domain buffer p size =
      decodeDomainLoop buffer size (fuel + 1) domain' (p + (wire ls).length) (dotted ls).length ∧
      Spells domain' ls := by
  have hfew := two_mul_length_le h.labels
  have hb := h.buffer
  obtain ⟨domain', hloop, hs⟩ := decode_labels (256 - ls.length + 1)
    (show Room size ([] ++ ls) from h) (show Spells domain [] from rfl) hat
  refine ⟨256 - ls.length, domain', ?_, hs⟩
  rw [List.nil_append] at hloop
  have hfuel : ls.length + (256 - ls.length + 1) = 257 := by omega
  rw [dnsDecodeDomain, ← hloop, hfuel]
  rfl

/-- The zero behind the last label ends the string. -/
theorem dnsDecodeDomain_end (domain : Octets 256) (h : Room size ls)
    (hat : At buffer p (wire ls ++ [0])) : ∃ domain', dnsDecodeDomain domain buffer p size =
        .ok (domain', some (p + (wire ls).length + 1)) ∧
      domain'.bytes.take ((dotted ls).length + 1) = dotted ls ++ [0] := by
  obtain ⟨fuel, domain₁, hloop, hs⟩ := dnsDecodeDomain_labels domain h hat.left
  obtain ⟨domain', hstore, htake⟩ := store_of_lt (a := domain₁) (c := 0) h.dotted_lt
  refine ⟨domain', ?_, by rw [htake, hs]⟩
  rw [hloop, decodeDomainLoop, hat.right.deref, exec_ok_bind, if_neg (by simp), hstore]
  rfl

/-- A label that the array or the bytes left have no place for ends the walk. -/
theorem dnsDecodeDomain_refused {c : UInt8} (domain : Octets 256) (h : Room size ls)
    (hat : At buffer p (wire ls ++ [c])) (hc : c ≠ 0)
    (hno : ¬ ((wire ls).length + 1 + c.toNat ≤ 256 ∧
      ((wire ls).length + 1 + c.toNat : ℤ) ≤ size)) :
    ∃ domain', dnsDecodeDomain domain buffer p size = .ok (domain', none) := by
  obtain ⟨fuel, domain₁, hloop, hs⟩ := dnsDecodeDomain_labels domain h hat.left
  obtain ⟨domain', hdot, -⟩ := putDot_ok h hs
  refine ⟨domain', ?_⟩
  rw [hloop, decodeDomainLoop, hat.right.deref, exec_ok_bind, if_pos hc, hdot, exec_ok_bind]
  exact if_pos (by omega)

/-- A label that the datagram does not hold to its end is copied all the same. -/
theorem dnsDecodeDomain_cut {c : UInt8} (domain : Octets 256) (h : Room size ls)
    (hat : At buffer p (wire ls ++ [c])) (hc : c ≠ 0) (hb : (wire ls).length + 1 + c.toNat ≤ 256)
    (hsz : ((wire ls).length + 1 + c.toNat : ℤ) ≤ size)
    (hcut : buffer.length < p + (wire ls).length + 1 + c.toNat) :
    dnsDecodeDomain domain buffer p size = .error (.read buffer.length) := by
  obtain ⟨fuel, domain₁, hloop, hs⟩ := dnsDecodeDomain_labels domain h hat.left
  obtain ⟨domain', hdot, -⟩ := putDot_ok h hs
  rw [hloop, decodeDomainLoop, hat.right.deref, exec_ok_bind, if_pos hc, hdot, exec_ok_bind]
  dsimp only
  rw [if_neg (by omega), copyFrom, if_neg (by omega)]
  rfl

/-- Behind its last label the datagram is read for another one. -/
theorem dnsDecodeDomain_past (domain : Octets 256) (h : Room size ls)
    (hat : buffer.drop p = wire ls) :
    dnsDecodeDomain domain buffer p size = .error (.read (p + (wire ls).length)) := by
  obtain ⟨fuel, domain₁, hloop, -⟩ :=
    dnsDecodeDomain_labels domain h (show wire ls <+: buffer.drop p from hat ▸ List.prefix_rfl)
  have hend : deref buffer (p + (wire ls).length) = .error (.read (p + (wire ls).length)) := by
    rw [deref, ← List.getElem?_drop, hat, List.getElem?_eq_none (Nat.le_refl _)]
  rw [hloop, decodeDomainLoop, hend]
  rfl

end Decode

/-! ## The string in the array -/

section Strings

/-- The first NUL stands behind the characters in front of it. -/
theorem takeWhile_nul (s rest : Bytes) :
    ∃ rest', s ++ 0 :: rest = s.takeWhile (· ≠ 0) ++ 0 :: rest' := by
  induction s with
  | nil => exact ⟨rest, rfl⟩
  | cons c s ih =>
    by_cases hc : c = 0
    · exact ⟨s ++ 0 :: rest, by simp [hc]⟩
    · obtain ⟨rest', hrest⟩ := ih
      exact ⟨rest', by rw [List.cons_append, hrest]; simp [hc]⟩

theorem cString_eq {n : ℕ} {a : Octets n} {s : Bytes} (h : a.bytes.take (s.length + 1) = s ++ [0]) :
    cString a = .ok (s.takeWhile (· ≠ 0)) := by
  obtain ⟨rest, hrest⟩ := takeWhile_nul s (a.bytes.drop (s.length + 1))
  have hbytes : a.bytes = s.takeWhile (· ≠ 0) ++ 0 :: rest := by
    rw [← hrest, List.append_cons, ← h, List.take_append_drop]
  have hnone : (s.takeWhile (· ≠ 0)).findIdx? (· = 0) = none := by
    refine List.findIdx?_eq_none_iff.mpr fun c hc => ?_
    simpa using List.mem_takeWhile_imp hc
  have hfind : a.bytes.findIdx? (· = 0) = some (s.takeWhile (· ≠ 0)).length := by
    rw [hbytes, List.findIdx?_append, hnone]
    simp [List.findIdx?_cons]
  rw [cString, hfind]
  dsimp only
  rw [hbytes, List.take_left]

end Strings
end Masala.Dns
