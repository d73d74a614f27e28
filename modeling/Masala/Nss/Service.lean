import Masala.Nss.Client
import Masala.Daemon.Cron
import Masala.Daemon.NameIds

/-!
# The resolver in the node

`masala-nss.c`: a thread that receives names on the loopback interface. A name
whose host is in the database is answered at once. For any other one a lookup
starts without a callback, so nobody hears of its result.
-/
namespace Masala.Nss
open Library Routing Digest Dns Daemon

/-- The variables of `nss_loop` that keep what the pass before has left in them. -/
structure NssThread where
  hostname : Octets 256
  host_id : Id

/-- The datagram of `nss_reply`. -/
def nssReply (node_id : Id) (node_addr : Ip) : Bytes := node_id.bytes ++ node_addr.addr.bytes

/-- `nss_lookup`, with the datagram if there is an answer. -/
def nssLookup (node_id : Id) (m : Main) : Exec (Option Bytes × Main) := do
  match ← dbAddress node_id m with
  | some node_addr => return (some (nssReply node_id node_addr), m)
  | none =>
    let m ← lkpPut node_id none 0 m
    return (none, m)

/-- One pass of `nss_loop`, in which `recvfrom` returns a datagram. -/
def nssPass (signed : Bool) (sha1_hash : Id → Bytes → ℕ → ℕ → Exec Id) (datagram : Bytes)
    (s : NssThread × Main) : Exec (Option Bytes × NssThread × Main) := do
  let rc := (datagram.take 256).length
  let hostname ← s.1.hostname.copyTo 0 (datagram.take 256)
  if rc ≤ 0 ∨ rc ≥ 256 then return (none, { s.1 with hostname }, s.2)
  else
    let hostname ← hostname.store rc 0
    let size ← strlen hostname.bytes 0
    if ¬ strIsValidHostname (hostname.bytes.take size) then
      return (none, { s.1 with hostname }, s.2)
    else
      let host_id ← p2pComputeId signed sha1_hash s.1.host_id hostname.bytes 0
      let (reply, m) ← nssLookup host_id s.2
      return (reply, ⟨hostname, host_id⟩, m)

section Pass
variable {signed : Bool} {stack : Sha1Context} {datagram : Bytes} {t : NssThread} {m : Main}

/-- What stands in front of the first NUL is a string. -/
theorem takeWhile_string (ds rest : Bytes) :
    At (ds ++ 0 :: rest) 0 (ds.takeWhile (· ≠ 0) ++ [0]) := by
  rw [At.zero_iff]
  induction ds with
  | nil => exact ⟨rest, rfl⟩
  | cons c ds ih =>
    by_cases hc : c = 0
    · rw [hc]
      exact ⟨ds ++ 0 :: rest, rfl⟩
    · rw [List.takeWhile_cons_of_pos (by simpa using hc), List.cons_append, List.cons_append]
      exact List.cons_prefix_cons.mpr ⟨rfl, ih⟩

/-- A datagram that fits stands in the buffer with a NUL behind it. -/
theorem received_string (a : Octets 256) (hlen : datagram.length < 256) :
    ∃ b b', a.copyTo 0 datagram = .ok b ∧ b.store datagram.length 0 = .ok b' ∧
      At b'.bytes 0 (datagram.takeWhile (· ≠ 0) ++ [0]) := by
  have hsplit : a.bytes = [] ++ a.bytes.take datagram.length ++ a.bytes.drop datagram.length := by
    simp
  have hfits : (a.bytes.take datagram.length).length = datagram.length :=
    List.length_take_of_le (by rw [a.size_eq]; omega)
  obtain ⟨b, hcopy, hb⟩ := copyTo_at hsplit hfits
  obtain ⟨d, post, hpost⟩ := List.exists_cons_of_length_pos
    (show 0 < (a.bytes.drop datagram.length).length by rw [List.length_drop, a.size_eq]; omega)
  rw [hpost, List.nil_append] at hb
  obtain ⟨b', hstore, hb'⟩ := store_at 0 hb
  refine ⟨b, b', hcopy, hstore, ?_⟩
  rw [hb']
  exact takeWhile_string datagram post

theorem not_mem_string (ds : Bytes) : 0 ∉ ds.takeWhile (· ≠ 0) := fun h => by
  simpa using List.all_eq_true.mp List.all_takeWhile 0 h

/-- What a pass does with a datagram that fits. -/
theorem nssPass_received (hne : datagram ≠ []) (hlen : datagram.length < 256) :
    ∃ hostname : Octets 256, At hostname.bytes 0 (datagram.takeWhile (· ≠ 0) ++ [0]) ∧
      nssPass signed (sha1Hash stack) datagram (t, m) =
        if ¬ strIsValidHostname (datagram.takeWhile (· ≠ 0)) then
          .ok (none, { t with hostname }, m)
        else do
          let host_id ← p2pComputeId signed (sha1Hash stack) t.host_id hostname.bytes 0
          let (reply, m) ← nssLookup host_id m
          return (reply, ⟨hostname, host_id⟩, m) := by
  obtain ⟨b, hostname, hcopy, hstore, hat⟩ := received_string t.hostname hlen
  have htake : datagram.take 256 = datagram := List.take_of_length_le (Nat.le_of_lt hlen)
  have hpos := List.length_pos_iff.mpr hne
  have hname := (List.prefix_iff_eq_take.mp (At.zero_iff.mp hat.left)).symm
  refine ⟨hostname, hat, ?_⟩
  unfold nssPass
  dsimp only
  rw [htake, hcopy, exec_ok_bind, if_neg (by omega), hstore, exec_ok_bind,
    strlen_at hat (not_mem_string datagram), exec_ok_bind, hname]
  rfl

variable (signed stack t m)

/-- A datagram that does not fit, or that is no name, has no effect on the node. -/
theorem nssPass_ignored (h : datagram = [] ∨ 256 ≤ datagram.length ∨
    ¬ strIsValidHostname (datagram.takeWhile (· ≠ 0))) :
    ∃ t', nssPass signed (sha1Hash stack) datagram (t, m) = .ok (none, t', m) := by
  by_cases hrc : (datagram.take 256).length ≤ 0 ∨ (datagram.take 256).length ≥ 256
  · have hfits : 0 + (datagram.take 256).length ≤ 256 := by
      rw [Nat.zero_add]
      exact List.length_take_le _ _
    obtain ⟨b, hcopy, -⟩ := copyTo_of_le (a := t.hostname) hfits
    refine ⟨{ t with hostname := b }, ?_⟩
    unfold nssPass
    dsimp only
    rw [hcopy, exec_ok_bind, if_pos hrc]
    rfl
  · rw [List.length_take] at hrc
    have hlen : datagram.length < 256 := by omega
    have hne : datagram ≠ [] := by
      rintro rfl
      exact hrc (.inl (Nat.le_refl 0))
    obtain ⟨hostname, -, hpass⟩ := nssPass_received hne hlen
    refine ⟨_, hpass.trans (if_pos ?_)⟩
    rcases h with h | h | h
    · exact absurd h hne
    · omega
    · exact h

/-- A name up to a NUL is looked up. -/
theorem nssPass_name (hne : datagram ≠ []) (hlen : datagram.length < 256)
    (hvalid : strIsValidHostname (datagram.takeWhile (· ≠ 0))) :
    ∃ id t', id.bytes = hostId (datagram.takeWhile (· ≠ 0)) ∧
      nssPass signed (sha1Hash stack) datagram (t, m) =
        nssLookup id m >>= fun r => .ok (r.1, t', r.2) := by
  obtain ⟨hostname, hat, hpass⟩ := nssPass_received hne hlen
  obtain ⟨id, hid, hbytes⟩ :=
    p2pComputeId_hostId signed stack t.host_id (not_mem_string datagram) hat
  refine ⟨id, ⟨hostname, id⟩, hbytes, ?_⟩
  rw [hpass, if_neg (not_not.mpr hvalid), hid, exec_ok_bind]
  rfl

end Pass
end Masala.Nss
