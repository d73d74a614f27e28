import Masala.Dns.Query

/-!
# What the encoder writes

Every encoder writes certain bytes at its cursor and nothing else. The answer
has the string of the name in it twice, and the array for it ends at 512 bytes.
-/
namespace Masala.Dns
open Library

section Encode
variable {n : ℕ}

/-- A number of 16 bits in network order. -/
def bytes16 (value : ℕ) : Bytes := [((value &&& 0xFF00) >>> 8).toUInt8, (value &&& 0xFF).toUInt8]

theorem bytes16_be16 (hi lo : UInt8) : bytes16 (be16 hi lo) = [hi, lo] := by
  have hsum : be16 hi lo = hi.toNat * 2 ^ 8 + lo.toNat := by rw [be16, Nat.shiftLeft_eq]
  have hhi := hi.toNat_lt
  have hlo := lo.toNat_lt
  have hfirst : ((be16 hi lo &&& 0xFF00) >>> 8).toUInt8 = hi := by
    have hshift : (be16 hi lo &&& 0xFF00) >>> 8 = (be16 hi lo >>> 8) &&& (2 ^ 8 - 1) := by
      rw [Nat.shiftRight_and_distrib]
      rfl
    rw [hshift, Nat.and_two_pow_sub_one_eq_mod, Nat.shiftRight_eq_div_pow, hsum]
    apply UInt8.toNat_inj.mp
    rw [UInt8.toNat_ofNat']
    omega
  have hsecond : (be16 hi lo &&& 0xFF).toUInt8 = lo := by
    rw [show (0xFF : ℕ) = 2 ^ 8 - 1 from rfl, Nat.and_two_pow_sub_one_eq_mod, hsum]
    apply UInt8.toNat_inj.mp
    rw [UInt8.toNat_ofNat']
    omega
  rw [bytes16, hfirst, hsecond]

theorem putBytes_cons (c : Cursor n) (x : UInt8) (xs : Bytes) :
    putBytes c (x :: xs) = c.1.store c.2 x >>= fun buf => putBytes (buf, c.2 + 1) xs := by
  rw [putBytes, Octets.copyTo, bind_assoc]
  congr 1
  funext buf
  rw [putBytes, List.length_cons, Nat.add_right_comm, Nat.add_assoc]

theorem putBytes_append (c : Cursor n) (xs ys : Bytes) :
    (putBytes c xs >>= fun c => putBytes c ys) = putBytes c (xs ++ ys) := by
  rw [putBytes, putBytes, copyTo_append, bind_assoc, bind_assoc]
  congr 1
  funext buf
  rw [List.length_append, ← Nat.add_assoc]
  rfl

theorem put16bits_eq (c : Cursor n) (value : ℕ) :
    put16bits c value = putBytes c (bytes16 value) := by
  rw [put16bits, bytes16, putBytes_cons]
  congr 1
  funext buf
  rw [putBytes_cons]
  rfl

theorem put32bits_zero (c : Cursor n) : put32bits c 0 = putBytes c [0, 0, 0, 0] := by
  rw [put32bits, putBytes_cons]
  congr 1
  funext buf
  rw [putBytes_cons]
  congr 1
  funext buf
  rw [putBytes_cons]
  congr 1
  funext buf
  rw [putBytes_cons]
  rfl

theorem putLabel_eq (c : Cursor n) (label : Bytes) :
    putLabel c label = putBytes c (label.length.toUInt8 :: label) := by
  rw [putLabel, putBytes_cons]

/-- The loop cuts the string at its dots and writes the parts as labels. -/
theorem codeDomainLoop_eq {fuel : ℕ} {beg : Bytes} (h : beg.length < fuel) (c : Cursor n) :
    codeDomainLoop fuel c beg = putBytes c (wire (beg.splitOn 0x2e)) := by
  induction fuel generalizing c beg with
  | zero => exact absurd h (Nat.not_lt_zero _)
  | succ fuel ih =>
    rw [codeDomainLoop]
    cases hfind : beg.findIdx? (· = 0x2e) with
    | none =>
      have hdots : 0x2e ∉ beg := fun hmem => by
        simpa using List.findIdx?_eq_none_iff.mp hfind _ hmem
      rw [List.splitOn_eq_singleton hdots, wire_singleton]
      exact putLabel_eq c beg
    | some len =>
      obtain ⟨hlt, hdot, hbefore⟩ := List.findIdx?_eq_some_iff_getElem.mp hfind
      have hdots : 0x2e ∉ beg.take len := fun hmem => by
        obtain ⟨j, hj, he⟩ := List.getElem_of_mem hmem
        rw [List.getElem_take] at he
        have := hbefore j (by rw [List.length_take] at hj; omega)
        simp [he] at this
      have hcut : beg = beg.take len ++ 0x2e :: beg.drop (len + 1) := by
        have hat : beg[len] = 0x2e := by simpa using hdot
        rw [← hat, List.getElem_cons_drop, List.take_append_drop]
      have hsplit : beg.splitOn 0x2e = beg.take len :: (beg.drop (len + 1)).splitOn 0x2e := by
        conv_lhs => rw [hcut]
        exact List.splitOn_append_cons_self_of_not_mem hdots _
      have hrest : (beg.drop (len + 1)).length < fuel := by
        rw [List.length_drop]
        omega
      rw [hsplit, wire, ← List.cons_append, ← putBytes_append, ← putLabel_eq]
      exact congrArg (putLabel c (beg.take len) >>= ·) (funext fun c => ih hrest c)

theorem dnsCodeDomain_eq (c : Cursor n) (domain : Bytes) :
    dnsCodeDomain c domain = putBytes c (wire (domain.splitOn 0x2e) ++ [0]) := by
  rw [dnsCodeDomain, codeDomainLoop_eq (Nat.lt_succ_self _), ← putBytes_append]
  congr 1
  funext c
  rw [putBytes_cons]
  rfl

/-- An entry of a section with the name, type and class of a question. -/
def entry (name : Bytes) (qType qClass : ℕ) : Bytes := name ++ bytes16 qType ++ bytes16 qClass

/-- What `dns_code_response` makes of a message whose name is `hostname`. -/
def answer (msg : Message) (hostname : Bytes) (address : Octets 16) : Bytes :=
  let name := wire (hostname.splitOn 0x2e) ++ [0]
  bytes16 msg.id ++ bytes16 0x8000 ++ bytes16 msg.qdCount ++ bytes16 1 ++ bytes16 0 ++ bytes16 0 ++
    entry name msg.question.qType msg.question.qClass ++
    (entry name msg.question.qType msg.question.qClass ++ [0, 0, 0, 0] ++ bytes16 16 ++
      address.bytes)

section Reply
variable {msg : Message} {hostname : Bytes}

/-- The name is the one in the message, and one of the counts is the query's. -/
theorem dnsCodeResponse_eq (hq : msg.question.qName = true)
    (hname : cString msg.qName_buffer = .ok hostname) (address : Octets 16) (c : Cursor n) :
    dnsCodeResponse (msg.replied address) c = putBytes c (answer msg hostname address) := by
  have hat : (msg.replied address).nameAt true = .ok hostname := hname
  have hone : (msg.replied address).anCount = 1 := rfl
  have hquestion : (msg.replied address).question = msg.question := rfl
  have hanswer : (msg.replied address).answer = ⟨msg.question.qName, msg.question.qType,
    msg.question.qClass, 0, 16, address⟩ := rfl
  rw [dnsCodeResponse, dnsCodeHeader]
  simp only [hone, hquestion, hanswer, hq, hat, put16bits_eq, put32bits_zero, dnsCodeDomain_eq,
    putBytes_append, if_true, exec_ok_bind]
  congr 1
  simp only [answer, entry, List.append_assoc]
  rfl

theorem answer_length (msg : Message) (hostname : Bytes) (address : Octets 16) :
    (answer msg hostname address).length = 46 + 2 * hostname.length := by
  have hlen := dotted_length (List.splitOn_ne_nil 0x2e hostname)
  rw [dotted, List.intercalate_splitOn] at hlen
  simp only [answer, entry, List.length_append, ← hlen, address.size_eq, bytes16, List.length_cons,
    List.length_nil]
  ring

/-- The array of `dns_reply` takes the answer or is left. -/
theorem dnsReply_eq (hq : msg.question.qName = true)
    (hname : cString msg.qName_buffer = .ok hostname) (buf : Octets 512) (address : Octets 16) :
    (46 + 2 * hostname.length ≤ 512 ∧
        dnsReply buf msg (some address) = .ok (some (answer msg hostname address))) ∨
      (512 < 46 + 2 * hostname.length ∧
        ∃ off, dnsReply buf msg (some address) = .error (.write off)) := by
  have hlen := answer_length msg hostname address
  by_cases hfit : 46 + 2 * hostname.length ≤ 512
  · obtain ⟨buf', hbuf, htake⟩ := copyTo_of_le (a := buf)
      (show 0 + (answer msg hostname address).length ≤ 512 by omega)
    refine .inl ⟨hfit, ?_⟩
    rw [Nat.zero_add, List.take_zero, List.nil_append] at htake
    rw [dnsReply, dnsCodeResponse_eq hq hname, putBytes, hbuf]
    simp only [exec_ok_bind, exec_pure, Nat.zero_add, copyFrom, List.drop_zero, htake]
    rw [if_pos (by rw [buf'.size_eq]; omega)]
    rfl
  · have hne : answer msg hostname address ≠ [] := List.ne_nil_of_length_pos (by omega)
    obtain ⟨off, hoff⟩ := copyTo_of_lt (a := buf) hne
      (show 512 < 0 + (answer msg hostname address).length by omega)
    refine .inr ⟨by omega, off, ?_⟩
    rw [dnsReply, dnsCodeResponse_eq hq hname, putBytes, hoff]
    rfl

end Reply
end Encode

/-! ## Names there and back -/

section RoundTrip
variable {ls : List Bytes}

/-- Labels that a string with dots can be cut into again. -/
def Dotless (ls : List Bytes) : Prop := ∀ l ∈ ls, l ≠ [] ∧ 0x2e ∉ l ∧ 0 ∉ l

theorem Dotless.room (h : Dotless ls) (hne : ls ≠ []) (hlen : (dotted ls).length ≤ 255) {size : ℤ}
    (hsize : ((dotted ls).length : ℤ) + 2 ≤ size) : Room size ls := by
  have hwire := dotted_length hne
  refine ⟨⟨fun l hl => ⟨(h l hl).1, ?_⟩, by omega⟩, by omega⟩
  have := length_lt_wire hl
  omega

theorem Dotless.not_mem (h : Dotless ls) : 0 ∉ dotted ls := by
  intro hmem
  obtain ⟨l, hl, h0⟩ := (mem_intercalate (by decide)).mp hmem
  exact (h l hl).2.2 h0

/-- The bytes that the encoder writes for a name are read back as the name. -/
theorem dnsDecodeDomain_codeDomain (ls : List Bytes) (hne : ls ≠ [])
    (hls : Dotless ls) (hlen : (dotted ls).length ≤ 255) :
    ∃ bs : Bytes, bs.length = (dotted ls).length + 2 ∧
      (∀ (n : ℕ) (c : Cursor n), c.2 + bs.length ≤ n →
        ∃ buf, dnsCodeDomain c (dotted ls) = .ok (buf, c.2 + bs.length) ∧
          buf.bytes = c.1.bytes.take c.2 ++ bs ++ c.1.bytes.drop (c.2 + bs.length)) ∧
      ∀ (domain : Octets 256) (buffer rest : Bytes) (p : ℕ) (size : ℤ),
        buffer.drop p = bs ++ rest → (bs.length : ℤ) ≤ size →
        ∃ domain', dnsDecodeDomain domain buffer p size = .ok (domain', some (p + bs.length)) ∧
          cString domain' = .ok (dotted ls) := by
  have hwire := dotted_length hne
  have hbs : (wire ls ++ [0]).length = (dotted ls).length + 2 := by
    rw [List.length_append, List.length_singleton, ← hwire]
  refine ⟨wire ls ++ [0], hbs, fun n c hfit => ?_, fun domain buffer rest p size hat hsize => ?_⟩
  · have hbytes : c.1.bytes = c.1.bytes.take c.2 ++
        (c.1.bytes.drop c.2).take (wire ls ++ [0]).length ++
        c.1.bytes.drop (c.2 + (wire ls ++ [0]).length) := by
      rw [← List.drop_drop, List.append_assoc, List.take_append_drop, List.take_append_drop]
    have hroom := c.1.size_eq
    have hmid : ((c.1.bytes.drop c.2).take (wire ls ++ [0]).length).length =
        (wire ls ++ [0]).length := by
      rw [List.length_take, List.length_drop]
      omega
    obtain ⟨buf, hcopy, hbuf⟩ := copyTo_at hbytes hmid
    rw [List.length_take, Nat.min_eq_left (by omega)] at hcopy
    refine ⟨buf, ?_, hbuf⟩
    rw [dnsCodeDomain_eq, List.splitOn_intercalate _ (fun l hl => (hls l hl).2.1) hne, putBytes,
      hcopy]
    rfl
  · rw [hbs] at hsize
    obtain ⟨domain', hdecode, htext⟩ := dnsDecodeDomain_end domain
      (hls.room hne hlen (by exact_mod_cast hsize)) ⟨rest, hat.symm⟩
    refine ⟨domain', by rw [hdecode, List.length_append]; rfl, ?_⟩
    rw [cString_eq htext, List.takeWhile_eq_self_iff.mpr]
    intro c hc
    exact decide_eq_true fun he => hls.not_mem (he ▸ hc)

/-- The name `a.b`. -/
theorem dnsDecodeDomain_codeDomain_pair :
    ∃ bs : Bytes, bs.length = (dotted [[0x61], [0x62]]).length + 2 ∧
      (∀ (n : ℕ) (c : Cursor n), c.2 + bs.length ≤ n →
        ∃ buf, dnsCodeDomain c (dotted [[0x61], [0x62]]) = .ok (buf, c.2 + bs.length) ∧
          buf.bytes = c.1.bytes.take c.2 ++ bs ++ c.1.bytes.drop (c.2 + bs.length)) ∧
      ∀ (domain : Octets 256) (buffer rest : Bytes) (p : ℕ) (size : ℤ),
        buffer.drop p = bs ++ rest → (bs.length : ℤ) ≤ size →
        ∃ domain', dnsDecodeDomain domain buffer p size = .ok (domain', some (p + bs.length)) ∧
          cString domain' = .ok (dotted [[0x61], [0x62]]) :=
  dnsDecodeDomain_codeDomain [[0x61], [0x62]] (by decide) (by unfold Dotless; decide) (by decide)

end RoundTrip
end Masala.Dns
