import Masala.Nss.Client

/-!
# What the caller reads

The record that a lookup fills in only points into the buffer of the caller.
Through these pointers the program that has called reads the name it has asked
for, no aliases and the one address.
-/
namespace Masala.Nss
open Library Bencode Routing Dns
open Daemon (AF_INET6)

/-! ## Names -/

section Tld
variable {hostname : Bytes}

/-- The loop stops behind a dot, or where it has started. -/
theorem lastLabel_cases (p0 cs : Bytes) :
    lastLabel p0 cs = p0 ∨ ∃ label, cs = label ++ ch '.' :: lastLabel p0 cs := by
  induction cs generalizing p0 with
  | nil => exact .inl rfl
  | cons c cs ih =>
    rw [lastLabel]
    by_cases hc : c = ch '.'
    · rw [if_pos hc, hc]
      rcases ih cs with hlast | ⟨label, hlabel⟩
      · rw [hlast]
        exact .inr ⟨[], rfl⟩
      · exact .inr ⟨ch '.' :: label, congrArg (ch '.' :: ·) hlabel⟩
    · rw [if_neg hc]
      rcases ih p0 with hlast | ⟨label, hlabel⟩
      · exact .inl hlast
      · exact .inr ⟨c :: label, congrArg (c :: ·) hlabel⟩

/-- It does not stop in front of a dot. -/
theorem lastLabel_append (p0 label : Bytes) {last : Bytes} (h : ch '.' ∉ last) :
    lastLabel p0 (label ++ ch '.' :: last) = last := by
  have hstay (p0 : Bytes) : lastLabel p0 last = p0 := by
    rcases lastLabel_cases p0 last with hlast | ⟨label, hlabel⟩
    · exact hlast
    · rw [hlabel] at h
      exact absurd (List.mem_append_right label List.mem_cons_self) h
  induction label generalizing p0 with
  | nil => rw [List.nil_append, lastLabel, if_pos rfl, hstay]
  | cons c label ih =>
    rw [List.cons_append, lastLabel]
    split
    · exact ih _
    · exact ih _

/-- A name of the domain has a label in front of it. -/
theorem nssMasalaValidTld_iff : nssMasalaValidTld hostname = true ↔
    ∃ label, label ≠ [] ∧ hostname = label ++ ch '.' :: DOMAIN := by
  have hdomain : DOMAIN.length = 3 := rfl
  constructor
  · intro h
    by_cases hsize : hostname.length < DOMAIN.length + 2
    · rw [nssMasalaValidTld, if_pos hsize] at h
      cases h
    · rw [nssMasalaValidTld, if_neg hsize, decide_eq_true_eq] at h
      have hcases := lastLabel_cases hostname hostname
      rw [h] at hcases
      rcases hcases with hname | ⟨label, hlabel⟩
      · rw [← hname] at hsize
        exact absurd (by decide) hsize
      · refine ⟨label, ?_, hlabel⟩
        rintro rfl
        rw [hlabel] at hsize
        exact hsize (by decide)
  · rintro ⟨label, hne, rfl⟩
    have hpos := List.length_pos_iff.mpr hne
    have hsize : ¬ (label ++ ch '.' :: DOMAIN).length < DOMAIN.length + 2 := by
      rw [List.length_append, List.length_cons]
      omega
    rw [nssMasalaValidTld, if_neg hsize, lastLabel_append _ label (by decide), decide_eq_true rfl]

end Tld

/-! ## Buffers -/

section Buffers
variable {n : ℕ}

/-- A name with its NUL and other fields behind it in a buffer that is cleared first. -/
theorem layout_at (a : Octets n) {name fields : Bytes} (h : name.length + 1 + fields.length ≤ n) :
    ∃ b, (do
      let a ← a.copyTo 0 (List.replicate n 0)
      let a ← a.copyTo 0 name
      a.copyTo (name.length + 1) fields) = .ok b ∧
      At b.bytes 0 (name ++ [0]) ∧ At b.bytes (name.length + 1) fields := by
  obtain ⟨k, rfl⟩ := Nat.exists_eq_add_of_le h
  have hall : a.bytes = [] ++ a.bytes ++ [] := by simp
  obtain ⟨a₁, hset, hzeros⟩ := copyTo_at hall
    (show _ = (List.replicate _ (0 : UInt8)).length by rw [a.size_eq, List.length_replicate])
  have hname : a₁.bytes = [] ++ List.replicate name.length 0 ++
      (0 :: (List.replicate fields.length 0 ++ List.replicate k 0)) := by
    rw [hzeros, List.nil_append, List.append_nil, List.replicate_add, List.replicate_add,
      List.replicate_add]
    simp
  obtain ⟨a₂, hcopy, hbytes⟩ := copyTo_at hname (List.length_replicate)
  have hfields : a₂.bytes = (name ++ [0]) ++ List.replicate fields.length 0 ++
      List.replicate k 0 := by
    rw [hbytes]
    simp
  obtain ⟨b, hcopy', hb⟩ := copyTo_at hfields (List.length_replicate)
  have hlen : (name ++ [0]).length = name.length + 1 := by simp
  rw [hlen] at hcopy'
  refine ⟨b, ?_, ?_, ?_⟩
  · rw [List.length_nil] at hset hcopy
    rw [hset, exec_ok_bind, hcopy, exec_ok_bind, hcopy']
  · rw [hb, List.append_assoc]
    exact At.zero_iff.mpr (List.prefix_append _ _)
  · rw [hb, ← hlen]
    exact ⟨List.replicate k 0, by rw [List.append_assoc (name ++ [0]), List.drop_left]⟩

end Buffers

/-! ## Records -/

section Records
variable {buflen : ℕ} {c : Machine} {hostname : Bytes} {address : Octets 16} {w : Caller buflen}

def Caller.memory (w : Caller buflen) : Segment := ⟨w.base, w.buffer.bytes⟩

/-- What a program reads of a `struct hostent`: the name, the aliases and the addresses. -/
def Hostent.read (c : Machine) (s : Segment) (host : Hostent) :
    Exec (Bytes × List Bytes × List Bytes) := do
  let name ← s.string host.h_name
  let aliases ← s.pointers c (s.bytes.length + 1) host.h_aliases
  let aliases ← aliases.mapM s.string
  let addrs ← s.pointers c (s.bytes.length + 1) host.h_addr_list
  let addrs ← addrs.mapM fun addr => s.load addr host.h_length
  return (name, aliases, addrs)

/-- The caller after a lookup of the name that has found the address. -/
structure Resolved (c : Machine) (hostname : Bytes) (af : ℤ) (address : Octets 16)
    (w w' : Caller buflen) : Prop where
  reads : w'.host.read c w'.memory = .ok (hostname, [], [address.bytes])
  family : w'.host.h_addrtype = af
  ttl : w'.ttlp = w.ttlp.map fun _ => 0
  canon : w'.canonp = w.canonp.map fun _ => w.base
  errors : w'.errnop = w.errnop ∧ w'.h_errnop = w.h_errnop
  pat : w'.pat = w.pat

/-- The fields that `_nss_masala_hostent` puts behind the name. -/
def hostentFields (c : Machine) (base : ℕ) (hostname : Bytes) (address : Octets 16) : Bytes :=
  c.ptr 0 ++ (address.bytes ++ (c.ptr (base + (hostname.length + 1 + c.pointer)) ++ c.ptr 0))

theorem fillHostent_eq (af : ℤ) : fillHostent c hostname af address w = (do
    let buffer ← w.buffer.copyTo 0 (List.replicate buflen 0)
    let buffer ← buffer.copyTo 0 hostname
    buffer.copyTo (hostname.length + 1) (hostentFields c w.base hostname address)) >>= fun buffer =>
      .ok { w with
        buffer
        host := ⟨w.base, w.base + (hostname.length + 1), af, 16,
          w.base + (hostname.length + 1 + c.pointer + 16)⟩
        ttlp := w.ttlp.map fun _ => 0
        canonp := w.canonp.map fun _ => w.base } := by
  rw [fillHostent, hostentFields]
  simp only [copyTo_append, bind_assoc, Machine.ptr_length, address.size_eq, Nat.zero_add,
    Nat.add_zero]
  rfl

theorem fillHostent_resolved (af : ℤ) (address : Octets 16)
    (hsize : hostentSize c hostname ≤ buflen)
    (hbase : w.base + buflen ≤ 256 ^ c.pointer) (h0 : 0 ∉ hostname) :
    ∃ w', fillHostent c hostname af address w = .ok w' ∧ Resolved c hostname af address w w' := by
  have hpos := c.pointer_pos
  have hfields : hostname.length + 1 + (hostentFields c w.base hostname address).length =
      hostentSize c hostname := by
    simp only [hostentFields, hostentSize, List.length_append, Machine.ptr_length, address.size_eq]
    omega
  obtain ⟨b, hfill, hname, hat⟩ := layout_at w.buffer (hfields.trans_le hsize)
  rw [fillHostent_eq, hfill, exec_ok_bind]
  refine ⟨_, rfl, ?_, rfl, rfl, rfl, ⟨rfl, rfl⟩, rfl⟩
  rw [hostentSize] at hsize
  have haddr := hat.right.left
  have hlist := hat.right.right
  rw [Machine.ptr_length] at haddr hlist
  rw [address.size_eq] at hlist
  let s : Segment := ⟨w.base, b.bytes⟩
  have hp : w.base + (hostname.length + 1 + c.pointer) ≠ 0 ∧
      w.base + (hostname.length + 1 + c.pointer) < 256 ^ c.pointer := by omega
  have hmany : 1 < s.bytes.length + 1 := by
    have hlen : s.bytes.length = buflen := b.size_eq
    omega
  have hstring : s.string (w.base + 0) = .ok hostname := Segment.string_at hname h0
  have haliases : s.pointers c (s.bytes.length + 1) (w.base + (hostname.length + 1)) = .ok [] :=
    Segment.pointers_at (by simpa using hat.left) (by simp) (Nat.zero_lt_of_lt hmany)
  have haddrs : s.pointers c (s.bytes.length + 1)
      (w.base + (hostname.length + 1 + c.pointer + 16)) =
      .ok [w.base + (hostname.length + 1 + c.pointer)] :=
    Segment.pointers_at (by simpa using hlist) (by simpa using hp) hmany
  have hload : s.load (w.base + (hostname.length + 1 + c.pointer)) 16 = .ok address.bytes := by
    have hne : address.bytes ≠ [] := List.ne_nil_of_length_pos (by rw [address.size_eq]; decide)
    have hload := Segment.load_at (s := s) haddr hne
    rwa [address.size_eq] at hload
  rw [Nat.add_zero] at hstring
  change Hostent.read c s _ = _
  rw [Hostent.read, hstring, exec_ok_bind, haliases, exec_ok_bind, List.mapM_nil]
  change ((s.pointers c _ _ >>= fun addrs => _) : Exec _) = _
  rw [haddrs, exec_ok_bind, List.mapM_cons, hload]
  rfl

/-- What a program reads of one `struct gaih_addrtuple`. -/
structure Addrtuple where
  name : Bytes
  family : ℕ
  addr : Bytes
  scopeid : ℕ
deriving DecidableEq

/-- The chain of tuples from a pointer on, up to a NULL. -/
def readTuples (c : Machine) (s : Segment) : ℕ → ℕ → Exec (List Addrtuple)
  | 0, _ => .error .fuel
  | k + 1, pat =>
    if pat = 0 then return []
    else do
      let next ← s.number c pat c.pointer
      let p_name ← s.number c (pat + c.pointer) c.pointer
      let name ← s.string p_name
      let family ← s.number c (pat + 2 * c.pointer) 4
      let addr ← s.load (pat + 2 * c.pointer + 4) 16
      let scopeid ← s.number c (pat + 2 * c.pointer + 20) 4
      let tuples ← readTuples c s k next
      return ⟨name, family, addr, scopeid⟩ :: tuples

/-- The fields that `_nss_masala_gaih_tuple` puts behind the name. -/
def tupleFields (c : Machine) (base : ℕ) (address : Octets 16) : Bytes :=
  c.ptr 0 ++ (c.ptr base ++ (c.order.write 4 AF_INET6.toNat ++ (address.bytes ++
    c.order.write 4 0)))

theorem fillTuple_eq : fillTuple c hostname address w = (do
    let buffer ← w.buffer.copyTo 0 (List.replicate buflen 0)
    let buffer ← buffer.copyTo 0 hostname
    buffer.copyTo (hostname.length + 1) (tupleFields c w.base address)) >>= fun buffer =>
      .ok { w with
        buffer
        pat := w.base + (hostname.length + 1)
        ttlp := w.ttlp.map fun _ => 0 } := by
  rw [fillTuple, tupleFields]
  simp only [copyTo_append, bind_assoc, Machine.ptr_length, address.size_eq, Nat.zero_add,
    Nat.add_zero, c.order.length_write, Nat.two_mul, Nat.add_assoc]
  rfl

/-- The caller after a lookup of the name that has found the address. -/
structure ResolvedTuple (c : Machine) (hostname : Bytes) (address : Octets 16)
    (w w' : Caller buflen) : Prop where
  reads : readTuples c w'.memory 2 w'.pat = .ok [⟨hostname, AF_INET6.toNat, address.bytes, 0⟩]
  ttl : w'.ttlp = w.ttlp.map fun _ => 0
  canon : w'.canonp = w.canonp
  errors : w'.errnop = w.errnop ∧ w'.h_errnop = w.h_errnop
  host : w'.host = w.host

theorem fillTuple_resolved (address : Octets 16)
    (hsize : hostname.length + 1 + addrtupleSize c ≤ buflen)
    (hbase : w.base + buflen ≤ 256 ^ c.pointer) (h0 : 0 ∉ hostname) :
    ∃ w', fillTuple c hostname address w = .ok w' ∧ ResolvedTuple c hostname address w w' := by
  have hpos := c.pointer_pos
  have hfields : hostname.length + 1 + (tupleFields c w.base address).length =
      hostname.length + 1 + addrtupleSize c := by
    simp only [tupleFields, addrtupleSize, List.length_append, Machine.ptr_length, address.size_eq,
      c.order.length_write]
    omega
  obtain ⟨b, hfill, hname, hat⟩ := layout_at w.buffer (hfields.trans_le hsize)
  rw [fillTuple_eq, hfill, exec_ok_bind]
  refine ⟨_, rfl, ?_, rfl, rfl, ⟨rfl, rfl⟩, rfl⟩
  rw [addrtupleSize] at hsize
  have hnext := hat.left
  have hptr := hat.right.left
  have hfamily := hat.right.right.left
  have haddr := hat.right.right.right.left
  have hscope := hat.right.right.right.right
  simp only [Machine.ptr_length, c.order.length_write, address.size_eq] at hptr hfamily haddr hscope
  let s : Segment := ⟨w.base, b.bytes⟩
  have hstring : s.string (w.base + 0) = .ok hostname := Segment.string_at hname h0
  have hread_next : s.number c (w.base + (hostname.length + 1)) c.pointer = .ok 0 :=
    Segment.number_at hnext hpos (Nat.pow_pos (by decide))
  have hread_name : s.number c (w.base + (hostname.length + 1) + c.pointer) c.pointer =
      .ok w.base := by
    rw [Nat.add_assoc]
    exact Segment.number_at hptr hpos (by omega)
  have hread_family : s.number c (w.base + (hostname.length + 1) + 2 * c.pointer) 4 =
      .ok AF_INET6.toNat := by
    rw [Nat.add_assoc, Nat.two_mul, ← Nat.add_assoc _ c.pointer]
    exact Segment.number_at hfamily (by decide) (by decide)
  have hread_addr : s.load (w.base + (hostname.length + 1) + 2 * c.pointer + 4) 16 =
      .ok address.bytes := by
    have hne : address.bytes ≠ [] := List.ne_nil_of_length_pos (by rw [address.size_eq]; decide)
    have hload := Segment.load_at (s := s) haddr hne
    rw [address.size_eq] at hload
    rw [Nat.add_assoc, Nat.add_assoc, Nat.two_mul]
    simpa only [Nat.add_assoc] using hload
  have hread_scope :
      s.number c (w.base + (hostname.length + 1) + 2 * c.pointer + 20) 4 = .ok 0 := by
    have hnumber := Segment.number_at (s := s) hscope (by decide) (by decide)
    rw [Nat.two_mul]
    simpa only [Nat.add_assoc] using hnumber
  rw [Nat.add_zero] at hstring
  have hpat : w.base + (hostname.length + 1) ≠ 0 := by omega
  change readTuples c s 2 (w.base + (hostname.length + 1)) = _
  rw [readTuples, if_neg hpat, hread_next, exec_ok_bind, hread_name, exec_ok_bind, hstring,
    exec_ok_bind, hread_family, exec_ok_bind, hread_addr, exec_ok_bind, hread_scope]
  rfl

end Records
end Masala.Nss
