import Masala.Library.Buffer
import Masala.Library.CString
import Masala.Library.Hex
import Masala.Routing.Identifier

/-!
# Ids and host names

`p2p_compute_id` takes a host name that starts with forty digits for an id in
hexadecimal, whatever follows them, and hashes any other one. `id_str` prints
the id in lower case, so a printed id leads back to itself.
-/
namespace Masala.Daemon
open Library Routing

def HEX_LEN : ℕ := 2 * SHA_DIGEST_LENGTH

/-- The three ranges of `str_isHex`. -/
def isHexChar (signed : Bool) (c : UInt8) : Bool :=
  let v := charVal signed c
  (charVal signed 0x30 ≤ v && v ≤ charVal signed 0x39) ||
    (charVal signed 0x41 ≤ v && v ≤ charVal signed 0x46) ||
    (charVal signed 0x61 ≤ v && v ≤ charVal signed 0x66)

/-- `str_isHex` on `size` characters from `p` on. -/
def strIsHex (signed : Bool) (mem : Bytes) (p : ℕ) : ℕ → Exec Bool
  | 0 => return true
  | size + 1 => do
    let c ← deref mem p
    if isHexChar signed c then strIsHex signed mem (p + 1) size else return false

/-- What a character adds to `xv`. -/
def charNibble (signed : Bool) (c : UInt8) : ℤ :=
  if charVal signed c ≥ charVal signed 0x61 then
    (charVal signed c - charVal signed 0x61) + 10
  else if charVal signed c ≥ charVal signed 0x41 then
    (charVal signed c - charVal signed 0x41) + 10
  else charVal signed c - charVal signed 0x30

/-- The loop of `str_fromHex` with `k` characters to go. -/
def fromHexLoop {n : ℕ} (signed : Bool) (mem : Bytes) (hex : ℕ) :
    ℕ → ℕ → ℤ → Octets n → Exec (Octets n)
  | 0, _, _, id => return id
  | k + 1, i, xv, id => do
    let c ← deref mem (hex + i)
    let xv := xv + charNibble signed c
    if i % 2 ≠ 0 then
      let id ← id.store (i / 2) (UInt8.ofInt xv)
      fromHexLoop signed mem hex k (i + 1) 0 id
    else fromHexLoop signed mem hex k (i + 1) (xv * 16) id

def strFromHex {n : ℕ} (signed : Bool) (id : Octets n) (mem : Bytes) (hex size : ℕ) :
    Exec (Octets n) := fromHexLoop signed mem hex size 0 0 id

/-- `p2p_compute_id`; the hash fills `host_id` from the `size` characters of the name. -/
def p2pComputeId (signed : Bool) (sha1_hash : Id → Bytes → ℕ → ℕ → Exec Id) (host_id : Id)
    (mem : Bytes) (hostname : ℕ) : Exec Id := do
  let size ← strlen mem hostname
  let hex ← if size ≥ HEX_LEN then strIsHex signed mem hostname HEX_LEN else pure false
  if hex then strFromHex signed host_id mem hostname HEX_LEN
  else sha1_hash host_id mem hostname size

/-- The loop of `id_str`; `snprintf` ends each pair with a NUL. -/
def idStrLoop : Bytes → ℕ → Octets (HEX_LEN + 1) → Exec (Octets (HEX_LEN + 1))
  | [], _, buf => return buf
  | c :: p0, p1, buf => do
    let buf ← buf.copyTo p1 (hexPair c ++ [0])
    idStrLoop p0 (p1 + 2) buf

def idStr (id : Id) (buf : Octets (HEX_LEN + 1)) : Exec (Octets (HEX_LEN + 1)) := do
  let buf ← buf.copyTo 0 (List.replicate (HEX_LEN + 1) 0)
  idStrLoop id.bytes 0 buf

/-! ## Printing -/

theorem idStrLoop_eq (cs : Bytes) {pre : Bytes} {buf : Octets (HEX_LEN + 1)}
    (h : buf.bytes = pre ++ List.replicate (2 * cs.length + 1) 0) :
    ∃ buf', idStrLoop cs pre.length buf = .ok buf' ∧ buf'.bytes = pre ++ hexText cs ++ [0] := by
  induction cs generalizing pre buf with
  | nil => exact ⟨buf, rfl, by simpa [hexText] using h⟩
  | cons c cs ih =>
    have hzeros : List.replicate (2 * (c :: cs).length + 1) (0 : UInt8) =
        List.replicate 3 0 ++ List.replicate (2 * cs.length) 0 := by
      rw [← List.replicate_add, List.length_cons]
      congr 1
      omega
    rw [hzeros, ← List.append_assoc] at h
    have hthree : (List.replicate 3 (0 : UInt8)).length = (hexPair c ++ [0]).length := rfl
    obtain ⟨buf₁, hcopy, hbytes⟩ := copyTo_at h hthree
    have hrest : buf₁.bytes = (pre ++ hexPair c) ++ List.replicate (2 * cs.length + 1) 0 := by
      rw [hbytes, List.replicate_succ]
      simp
    obtain ⟨buf', hloop, hbuf⟩ := ih hrest
    have hp : (pre ++ hexPair c).length = pre.length + 2 := by
      rw [List.length_append]
      rfl
    rw [hp] at hloop
    refine ⟨buf', by rw [idStrLoop, hcopy, exec_ok_bind, hloop], ?_⟩
    rw [hbuf, hexText, List.append_assoc pre]

theorem idStr_eq (id : Id) (buf : Octets (HEX_LEN + 1)) :
    ∃ buf', idStr id buf = .ok buf' ∧ buf'.bytes = hexText id.bytes ++ [0] := by
  have hall : buf.bytes = [] ++ buf.bytes ++ [] := by simp
  obtain ⟨buf₁, hset, hbytes⟩ := copyTo_at hall
    (show _ = (List.replicate (HEX_LEN + 1) (0 : UInt8)).length by
      rw [buf.size_eq, List.length_replicate])
  have hzeros : buf₁.bytes = [] ++ List.replicate (2 * id.bytes.length + 1) 0 := by
    rw [hbytes, id.size_eq, List.append_nil]
    rfl
  obtain ⟨buf', hloop, hbuf⟩ := idStrLoop_eq id.bytes hzeros
  exact ⟨buf', by rw [idStr, List.length_nil.symm, hset, exec_ok_bind, hloop], by simpa using hbuf⟩

/-! ## Reading -/

section Reading
variable {signed : Bool} {mem cs : Bytes} {p : ℕ} {n : ℕ}

theorem isHexChar_of_isHex (signed : Bool) :
    ∀ c : UInt8, isHex c = true → isHexChar signed c = true := by
  apply forall_byte
  cases signed <;> decide +kernel

theorem charNibble_of_isHex (signed : Bool) :
    ∀ c : UInt8, isHex c = true → charNibble signed c = hexValue c := by
  apply forall_byte
  cases signed <;> decide +kernel

theorem strIsHex_at (hat : At mem p cs) (hcs : ∀ c ∈ cs, isHex c = true) :
    strIsHex signed mem p cs.length = .ok true := by
  induction cs generalizing p with
  | nil => rfl
  | cons c cs ih =>
    rw [List.forall_mem_cons] at hcs
    rw [List.length_cons, strIsHex, hat.deref, exec_ok_bind,
      if_pos (isHexChar_of_isHex signed c hcs.1), ih hat.tail hcs.2]

/-- A byte that `xv` has the value of. -/
theorem ofInt_natCast (v : ℕ) : UInt8.ofInt v = UInt8.ofNat v := by
  apply UInt8.toNat_inj.mp
  rw [UInt8.ofInt, UInt8.toNat_ofNat', UInt8.toNat_ofNat']
  omega

/-- Two digits make one byte. -/
theorem fromHexLoop_pair {hi lo : UInt8} {hex j : ℕ} (k : ℕ) (id : Octets n)
    (hat : At mem (hex + 2 * j) [hi, lo]) (hhi : isHex hi = true) (hlo : isHex lo = true) :
    fromHexLoop signed mem hex (k + 2) (2 * j) 0 id = id.store j (hexByte hi lo) >>= fun id =>
      fromHexLoop signed mem hex k (2 * (j + 1)) 0 id := by
  have heven : ¬ 2 * j % 2 ≠ 0 := by omega
  have hodd : (2 * j + 1) % 2 ≠ 0 := by omega
  have hhalf : (2 * j + 1) / 2 = j := by omega
  have hxv : (0 + (hexValue hi : ℤ)) * 16 + hexValue lo = (16 * hexValue hi + hexValue lo : ℕ) := by
    push_cast
    ring
  have hlo' : deref mem (hex + (2 * j + 1)) = .ok lo := hat.tail.deref
  rw [fromHexLoop, hat.deref, exec_ok_bind]
  dsimp only
  rw [if_neg heven, fromHexLoop, hlo', exec_ok_bind]
  dsimp only
  rw [if_pos hodd, hhalf, charNibble_of_isHex signed hi hhi, charNibble_of_isHex signed lo hlo,
    hxv, ofInt_natCast]
  rfl

/-- The digits from an even index on fill the bytes from half of it on. -/
theorem fromHexLoop_eq (signed : Bool) (k : ℕ) {hex : ℕ} {pre mid post : Bytes} {id : Octets n}
    (hat : At mem (hex + 2 * pre.length) cs) (hlen : cs.length = 2 * k)
    (hcs : ∀ c ∈ cs, isHex c = true) (h : id.bytes = pre ++ mid ++ post) (hmid : mid.length = k) :
    ∃ id', fromHexLoop signed mem hex cs.length (2 * pre.length) 0 id = .ok id' ∧
      id'.bytes = pre ++ hexBytes cs ++ post := by
  induction k generalizing cs pre mid id with
  | zero =>
    rw [List.length_eq_zero_iff.mp hmid] at h
    rw [List.length_eq_zero_iff.mp hlen]
    exact ⟨id, rfl, h⟩
  | succ k ih =>
    obtain ⟨hi, cs, rfl⟩ := List.exists_cons_of_length_eq_add_one hlen
    obtain ⟨lo, cs, rfl⟩ := List.exists_cons_of_length_eq_add_one (Nat.succ.inj hlen)
    obtain ⟨d, mid, rfl⟩ := List.exists_cons_of_length_eq_add_one hmid
    have hrest : cs.length = 2 * k := by
      rw [List.length_cons, List.length_cons] at hlen
      omega
    rw [List.forall_mem_cons, List.forall_mem_cons] at hcs
    rw [List.append_assoc, List.cons_append] at h
    obtain ⟨id₁, hstore, hbytes⟩ := store_at (hexByte hi lo) h
    have hsplit : id₁.bytes = (pre ++ [hexByte hi lo]) ++ mid ++ post := by simp [hbytes]
    have hp : (pre ++ [hexByte hi lo]).length = pre.length + 1 := by simp
    have hat' : At mem (hex + 2 * (pre ++ [hexByte hi lo]).length) cs := by
      rw [hp]
      exact hat.tail.tail
    obtain ⟨id', hloop, hid⟩ := ih hat' hrest hcs.2.2 hsplit (Nat.succ.inj hmid)
    rw [hp] at hloop
    have hpair : At mem (hex + 2 * pre.length) [hi, lo] :=
      At.left (show At mem (hex + 2 * pre.length) ([hi, lo] ++ cs) from hat)
    refine ⟨id', ?_, by rw [hid]; simp [hexBytes]⟩
    rw [List.length_cons, List.length_cons, fromHexLoop_pair cs.length id hpair hcs.1 hcs.2.1,
      hstore, exec_ok_bind, hloop]

/-- A name that starts with forty digits is their bytes. -/
theorem p2pComputeId_hex (sha1_hash : Id → Bytes → ℕ → ℕ → Exec Id) {t : Bytes}
    (hlen : cs.length = HEX_LEN) (hcs : ∀ c ∈ cs, isHex c = true) (ht : 0 ∉ t)
    (hat : At mem p (cs ++ t ++ [0])) (host_id : Id) :
    ∃ id, p2pComputeId signed sha1_hash host_id mem p = .ok id ∧ id.bytes = hexBytes cs := by
  have h0 : 0 ∉ cs ++ t := fun hmem =>
    (List.mem_append.mp hmem).elim (fun h => isHex_ne_zero (hcs 0 h) rfl) ht
  have hsize : (cs ++ t).length ≥ HEX_LEN := by
    rw [List.length_append, hlen]
    exact Nat.le_add_right _ _
  have hat₀ : At mem (p + 2 * ([] : Bytes).length) cs := hat.left.left
  have hall : host_id.bytes = [] ++ host_id.bytes ++ [] := by simp
  obtain ⟨id, hfrom, hid⟩ :=
    fromHexLoop_eq signed SHA_DIGEST_LENGTH hat₀ hlen hcs hall host_id.size_eq
  refine ⟨id, ?_, by simpa using hid⟩
  rw [p2pComputeId, strlen_at hat h0, exec_ok_bind, if_pos hsize, ← hlen,
    strIsHex_at hat.left.left hcs, exec_ok_bind]
  dsimp only
  rw [if_pos rfl, strFromHex]
  exact hfrom

end Reading

/-- A printed id is the text it was computed from in lower case, and leads back to the id. -/
theorem idStr_p2pComputeId (signed : Bool) (sha1_hash : Id → Bytes → ℕ → ℕ → Exec Id) :
    (∀ (cs t mem : Bytes) (p : ℕ) (host_id : Id) (buf : Octets (HEX_LEN + 1)),
      cs.length = 40 → (∀ c ∈ cs, isHex c = true) → 0 ∉ t → At mem p (cs ++ t ++ [0]) →
      ∃ id buf', p2pComputeId signed sha1_hash host_id mem p = .ok id ∧ idStr id buf = .ok buf' ∧
        buf'.bytes = cs.map toLower ++ [0]) ∧
    ∀ (id : Id) (buf : Octets (HEX_LEN + 1)), ∃ buf' text, idStr id buf = .ok buf' ∧
      buf'.bytes = text ++ [0] ∧ 0 ∉ text ∧
      ∀ (t mem : Bytes) (p : ℕ) (host_id : Id), 0 ∉ t → At mem p (text ++ t ++ [0]) →
        p2pComputeId signed sha1_hash host_id mem p = .ok id := by
  constructor
  · intro cs t mem p host_id buf hlen hcs ht hat
    obtain ⟨id, hid, hbytes⟩ := p2pComputeId_hex sha1_hash hlen hcs ht hat host_id
    obtain ⟨buf', hprint, htext⟩ := idStr_eq id buf
    exact ⟨id, buf', hid, hprint, by rw [htext, hbytes, hexText_hexBytes 20 hlen hcs]⟩
  · intro id buf
    obtain ⟨buf', hprint, htext⟩ := idStr_eq id buf
    have hhex : ∀ c ∈ hexText id.bytes, isHex c = true := fun c => isHex_of_mem_hexText
    have hlen : (hexText id.bytes).length = HEX_LEN := by
      rw [hexText_length, id.size_eq]
      rfl
    refine ⟨buf', hexText id.bytes, hprint, htext, fun h0 => isHex_ne_zero (hhex 0 h0) rfl, ?_⟩
    intro t mem p host_id ht hat
    obtain ⟨id', hid, hbytes⟩ := p2pComputeId_hex sha1_hash hlen hhex ht hat host_id
    rw [hexBytes_hexText] at hbytes
    rw [hid, Octets.bytes_injective.mp hbytes]

/-- Twenty times `aB`, and `.p` behind it. -/
theorem idStr_p2pComputeId_suffix : ∃ id buf',
    p2pComputeId true (fun _ _ _ _ => .error .null) (Octets.replicate 20 0)
        ((List.replicate 20 [0x61, 0x42]).flatten ++ [0x2e, 0x70] ++ [0]) 0 = .ok id ∧
      idStr id (Octets.replicate 41 0) = .ok buf' ∧
      buf'.bytes = (List.replicate 20 [0x61, 0x62]).flatten ++ [0] :=
  (idStr_p2pComputeId true _).1 _ [0x2e, 0x70] _ 0 _ _ rfl (by decide +kernel) (by decide)
    (At.zero_iff.mpr List.prefix_rfl)

end Masala.Daemon
