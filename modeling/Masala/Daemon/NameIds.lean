import Masala.Daemon.HostId
import Masala.Digest.Streaming

/-!
# The id of any name

What `p2p_compute_id` makes of a name with the hash of the sources: the node
that has the name and the one that looks it up agree, whatever their memory
held and whether or not their characters have a sign.
-/
namespace Masala.Daemon
open Library Routing Digest

/-- The id of a name. -/
def hostId (name : Bytes) : Bytes :=
  if HEX_LEN ≤ name.length ∧ (name.take HEX_LEN).all isHex then hexBytes (name.take HEX_LEN)
  else hashCounted name (name.length % 2 ^ 32)

section Names
variable {signed : Bool} {mem cs : Bytes} {p : ℕ}

theorem isHexChar_eq (signed : Bool) : ∀ c : UInt8, isHexChar signed c = isHex c := by
  apply forall_byte
  cases signed <;> decide +kernel

theorem strIsHex_eq (signed : Bool) (hat : At mem p cs) :
    strIsHex signed mem p cs.length = .ok (cs.all isHex) := by
  induction cs generalizing p with
  | nil => rfl
  | cons c cs ih =>
    rw [List.length_cons, strIsHex, hat.deref, exec_ok_bind, isHexChar_eq, ih hat.tail,
      List.all_cons]
    cases isHex c with
    | true => rfl
    | false => rfl

theorem sha1Hash_eq (stack : Sha1Context) (hash : Octets 20) (hat : At mem p cs) :
    ∃ o, sha1Hash stack hash mem p cs.length = .ok o ∧
      o.bytes = hashCounted cs (cs.length % 2 ^ 32) := by
  have hfits : 0 + (List.replicate 20 (0 : UInt8)).length ≤ 20 := by decide
  obtain ⟨hash', hset, -⟩ := copyTo_of_le (a := hash) hfits
  obtain ⟨o, hsha, ho⟩ := sha1_eq stack cs hash'
  refine ⟨o, ?_, ho⟩
  rw [sha1Hash, hset, exec_ok_bind]
  by_cases hcs : cs = []
  · subst hcs
    exact hsha
  · rw [if_neg (by simpa using hcs), hat.copyFrom hcs]
    exact hsha

/-- The computed id depends on nothing but the name. -/
theorem p2pComputeId_hostId (signed : Bool) (stack : Sha1Context) (host_id : Id)
    (h0 : 0 ∉ cs) (hat : At mem p (cs ++ [0])) :
    ∃ id, p2pComputeId signed (sha1Hash stack) host_id mem p = .ok id ∧ id.bytes = hostId cs := by
  by_cases hhex : HEX_LEN ≤ cs.length ∧ (cs.take HEX_LEN).all isHex
  · have hlen : (cs.take HEX_LEN).length = HEX_LEN := List.length_take_of_le hhex.1
    have hdigits : ∀ c ∈ cs.take HEX_LEN, isHex c = true := List.all_eq_true.mp hhex.2
    have hrest : 0 ∉ cs.drop HEX_LEN := fun hmem => h0 (List.mem_of_mem_drop hmem)
    have hsplit : At mem p (cs.take HEX_LEN ++ cs.drop HEX_LEN ++ [0]) := by
      rwa [List.take_append_drop]
    obtain ⟨id, hid, hbytes⟩ := p2pComputeId_hex (sha1Hash stack) hlen hdigits hrest hsplit host_id
    exact ⟨id, hid, by rw [hbytes, hostId, if_pos hhex]⟩
  · obtain ⟨id, hid, hbytes⟩ := sha1Hash_eq stack host_id hat.left
    refine ⟨id, ?_, by rw [hbytes, hostId, if_neg hhex]⟩
    unfold p2pComputeId
    rw [strlen_at hat h0, exec_ok_bind]
    by_cases hlen : cs.length ≥ HEX_LEN
    · have htake : (cs.take HEX_LEN).length = HEX_LEN := List.length_take_of_le hlen
      have hfront : At mem p (cs.take HEX_LEN) :=
        (List.take_prefix _ _).trans hat.left
      have hdigits := strIsHex_eq signed hfront
      rw [htake, Bool.eq_false_iff.mpr fun hall => hhex ⟨hlen, hall⟩] at hdigits
      rw [if_pos hlen, hdigits]
      exact hid
    · rw [if_neg hlen]
      exact hid

/-- Whoever computes the id of a name comes to the same one: the node that is called so and any
other that looks it up. -/
theorem p2pComputeId_agrees (signed signed' : Bool) (stack stack' : Sha1Context)
    (host_id host_id' : Id) {mem' : Bytes} {p' : ℕ} (h0 : 0 ∉ cs) (hat : At mem p (cs ++ [0]))
    (hat' : At mem' p' (cs ++ [0])) :
    ∃ id, id.bytes = hostId cs ∧ p2pComputeId signed (sha1Hash stack) host_id mem p = .ok id ∧
      p2pComputeId signed' (sha1Hash stack') host_id' mem' p' = .ok id := by
  obtain ⟨id, hid, hbytes⟩ := p2pComputeId_hostId signed stack host_id h0 hat
  obtain ⟨id', hid', hbytes'⟩ := p2pComputeId_hostId signed' stack' host_id' h0 hat'
  obtain rfl := Octets.bytes_injective.mp (hbytes.trans hbytes'.symm)
  exact ⟨id, hbytes, hid, hid'⟩

end Names

/-- `node.p` in the middle of a line, and alone. -/
theorem p2pComputeId_agrees_node : ∃ id, id.bytes = hostId [0x6e, 0x6f, 0x64, 0x65, 0x2e, 0x70] ∧
    p2pComputeId true (sha1Hash
        ⟨1, 2, initialValue, .replicate 64 7, .replicate 64 7, .replicate 64 7⟩)
      (.replicate 20 0) [0x20, 0x6e, 0x6f, 0x64, 0x65, 0x2e, 0x70, 0, 0x21] 1 = .ok id ∧
    p2pComputeId false (sha1Hash
        ⟨0, 0, initialValue, .replicate 64 0, .replicate 64 0, .replicate 64 0⟩)
      (.replicate 20 9) [0x6e, 0x6f, 0x64, 0x65, 0x2e, 0x70, 0] 0 = .ok id :=
  p2pComputeId_agrees true false _ _ _ _ (by decide) ⟨[0x21], rfl⟩ ⟨[], rfl⟩

end Masala.Daemon
