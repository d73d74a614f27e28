import Masala.Library.Buffer
import Mathlib.Data.Int.Notation

/-!
# DNS messages

The decoder and encoder of `masala-dns.c`. A query is decoded from the receive
buffer, of which only the first `size` bytes are the datagram. The answer is
put together in an array on the stack.
-/
namespace Masala.Dns
open Library

def QR_MASK : ℕ := 0x8000
def OPCODE_MASK : ℕ := 0x7800
def AA_MASK : ℕ := 0x0400
def TC_MASK : ℕ := 0x0200
def RD_MASK : ℕ := 0x0100
def RA_MASK : ℕ := 0x8000
def RCODE_MASK : ℕ := 0x000F

def Ok_ResponseType : ℕ := 0
def AAAA_Resource_RecordType : ℕ := 28

/-- The name is NULL or points to the `qName_buffer` of the message. -/
structure Question where
  qName : Bool
  qType : ℕ
  qClass : ℕ
deriving DecidableEq

structure ResourceRecord where
  name : Bool
  type : ℕ
  rr_class : ℕ
  ttl : ℕ
  rd_length : ℕ
  rd_data : Octets 16
deriving DecidableEq

structure Message where
  id : ℕ
  qr : ℕ
  opcode : ℕ
  aa : ℕ
  tc : ℕ
  rd : ℕ
  ra : ℕ
  rcode : ℕ
  qdCount : ℕ
  anCount : ℕ
  nsCount : ℕ
  arCount : ℕ
  question : Question
  answer : ResourceRecord
  qName_buffer : Octets 256
deriving DecidableEq

/-- After `memset( task, 0, sizeof(struct task) )`. -/
def messageInit : Message :=
  ⟨0, 0, 0, 0, 0, 0, 0, 0, 0, 0, 0, 0, ⟨false, 0, 0⟩,
    ⟨false, 0, 0, 0, 0, Octets.replicate 16 0⟩, Octets.replicate 256 0⟩

/-! ## Decoding -/

def get16bits (buffer : Bytes) (p : ℕ) : Exec ℕ := do
  let hi ← deref buffer p
  let lo ← deref buffer (p + 1)
  return (hi.toNat <<< 8) + lo.toNat

/-- The dot in front of a label that is not the first. -/
def putDot (domain : Octets 256) (i : ℕ) : Exec (Octets 256 × ℕ) :=
  if i ≠ 0 then do
    let domain ← domain.store i 0x2e
    return (domain, i + 1)
  else return (domain, i)

/-- The loop of `dns_decode_domain`. The result `none` is its -1. -/
def decodeDomainLoop (buffer : Bytes) (size : ℤ) :
    ℕ → Octets 256 → ℕ → ℕ → Exec (Octets 256 × Option ℕ)
  | 0, _, _, _ => .error .fuel
  | fuel + 1, domain, p, i => do
    let c ← deref buffer p
    if c ≠ 0 then
      let (domain, i) ← putDot domain i
      let len := c.toNat
      if i + len ≥ 256 ∨ i + len ≥ size then return (domain, none)
      else
        let label ← copyFrom buffer (p + 1) len
        let domain ← domain.copyTo i label
        decodeDomainLoop buffer size fuel domain (p + 1 + len) (i + len)
    else
      let domain ← domain.store i 0
      return (domain, some (p + 1))

/-- `dns_decode_domain` gives the cursor behind the name. Each label takes two of the 256 bytes at
least, so the fuel lasts. -/
def dnsDecodeDomain (domain : Octets 256) (buffer : Bytes) (p : ℕ) (size : ℤ) :
    Exec (Octets 256 × Option ℕ) := decodeDomainLoop buffer size 257 domain p 0

/-- `dns_decode_header` at the start of the buffer; `none` is its -1. -/
def dnsDecodeHeader (msg : Message) (buffer : Bytes) (size : ℤ) : Exec (Option Message) :=
  if size < 12 then .ok none
  else do
    let id ← get16bits buffer 0
    let fields ← get16bits buffer 2
    let qdCount ← get16bits buffer 4
    let anCount ← get16bits buffer 6
    let nsCount ← get16bits buffer 8
    let arCount ← get16bits buffer 10
    return some { msg with
      id, qdCount, anCount, nsCount, arCount
      qr := fields &&& QR_MASK, opcode := fields &&& OPCODE_MASK, aa := fields &&& AA_MASK
      tc := fields &&& TC_MASK, rd := fields &&& RD_MASK, ra := fields &&& RA_MASK
      rcode := fields &&& RCODE_MASK }

/-- The loop over the questions of `dns_decode_query`, with the rounds it has to go. The size only
loses the bytes of the names. -/
def decodeQuestions (buffer : Bytes) : ℕ → Message → ℕ → ℤ → Exec (Message × Bool)
  | 0, msg, _, _ => .ok (msg, false)
  | k + 1, msg, p, size => do
    let (qName_buffer, q) ← dnsDecodeDomain msg.qName_buffer buffer p size
    let msg := { msg with qName_buffer := qName_buffer }
    match q with
    | none => return (msg, false)
    | some q =>
      let size := size - ((q : ℤ) - p)
      if size < 4 then return (msg, false)
      else
        let qType ← get16bits buffer q
        let qClass ← get16bits buffer (q + 2)
        if qType = AAAA_Resource_RecordType then
          return ({ msg with question := ⟨true, qType, qClass⟩ }, true)
        else decodeQuestions buffer k msg (q + 4) size

/-- `dns_decode_query`: the message, and whether it is accepted. -/
def dnsDecodeQuery (msg : Message) (buffer : Bytes) (size : ℤ) : Exec (Message × Bool) := do
  match ← dnsDecodeHeader msg buffer size with
  | none => return (msg, false)
  | some msg =>
    if msg.anCount + msg.nsCount + msg.arCount ≠ 0 then return (msg, false)
    else decodeQuestions buffer msg.qdCount msg 12 (size - 12)

/-! ## Names as C strings -/

/-- The characters of an array up to the first NUL; `strlen` leaves an array that has none. -/
def cString {n : ℕ} (a : Octets n) : Exec Bytes :=
  match a.bytes.findIdx? (· = 0) with
  | some len => .ok (a.bytes.take len)
  | none => .error (.read n)

/-- What the pointer `qName` or `name` gives. -/
def Message.nameAt (msg : Message) (name : Bool) : Exec Bytes :=
  if name then cString msg.qName_buffer else .error .null

def isHostnameChar (c : UInt8) : Bool :=
  (0x30 ≤ c && c ≤ 0x39) || (0x41 ≤ c && c ≤ 0x5a) || (0x61 ≤ c && c ≤ 0x7a) ||
    c = 0x2d || c = 0x5f || c = 0x2e

/-- `str_isValidHostname` on a whole string. -/
def strIsValidHostname (hostname : Bytes) : Bool := hostname.all isHostnameChar

/-- One datagram of `rc` bytes in `dns_loop`, up to the call of `dns_lookup`: the message of the
task if its name is looked up. -/
def dnsAccept (buffer : Octets 1500) (rc : ℕ) : Exec (Option Message) := do
  let (msg, accepted) ← dnsDecodeQuery messageInit buffer.bytes rc
  if ¬ accepted ∨ ¬ msg.question.qName then return none
  else
    let hostname ← msg.nameAt msg.question.qName
    if strIsValidHostname hostname then return some msg else return none

/-! ## Encoding -/

section Encode
variable {n : ℕ}

/-- An encoder writes at a cursor and gives the cursor behind what it wrote. -/
abbrev Cursor (n : ℕ) := Octets n × ℕ

def put16bits (c : Cursor n) (value : ℕ) : Exec (Cursor n) := do
  let buf ← c.1.store c.2 ((value &&& 0xFF00) >>> 8).toUInt8
  let buf ← buf.store (c.2 + 1) (value &&& 0xFF).toUInt8
  return (buf, c.2 + 2)

def put32bits (c : Cursor n) (value : ℕ) : Exec (Cursor n) := do
  let buf ← c.1.store c.2 ((value &&& 0xFF000000) >>> 24).toUInt8
  let buf ← buf.store (c.2 + 1) ((value &&& 0xFF0000) >>> 16).toUInt8
  let buf ← buf.store (c.2 + 2) ((value &&& 0xFF00) >>> 16).toUInt8
  let buf ← buf.store (c.2 + 3) ((value &&& 0xFF) >>> 16).toUInt8
  return (buf, c.2 + 4)

/-- `memcpy( buffer, bs, .. )`. -/
def putBytes (c : Cursor n) (bs : Bytes) : Exec (Cursor n) := do
  let buf ← c.1.copyTo c.2 bs
  return (buf, c.2 + bs.length)

/-- A length, cut off to a `char`, and that many characters. -/
def putLabel (c : Cursor n) (label : Bytes) : Exec (Cursor n) := do
  let buf ← c.1.store c.2 label.length.toUInt8
  putBytes (buf, c.2 + 1) label

/-- The `while` of `dns_code_domain`, from the character `beg` on, and the last label behind it. -/
def codeDomainLoop : ℕ → Cursor n → Bytes → Exec (Cursor n)
  | 0, _, _ => .error .fuel
  | fuel + 1, c, beg =>
    match beg.findIdx? (· = 0x2e) with
    | some len => do
      let c ← putLabel c (beg.take len)
      codeDomainLoop fuel c (beg.drop (len + 1))
    | none => putLabel c beg

def dnsCodeDomain (c : Cursor n) (domain : Bytes) : Exec (Cursor n) := do
  let c ← codeDomainLoop (domain.length + 1) c domain
  let buf ← c.1.store c.2 0
  return (buf, c.2 + 1)

def dnsCodeHeader (msg : Message) (c : Cursor n) : Exec (Cursor n) := do
  let c ← put16bits c msg.id
  let c ← put16bits c (1 <<< 15)
  let c ← put16bits c msg.qdCount
  let c ← put16bits c msg.anCount
  let c ← put16bits c msg.nsCount
  put16bits c msg.arCount

def dnsCodeResponse (msg : Message) (c : Cursor n) : Exec (Cursor n) := do
  let c ← dnsCodeHeader msg c
  if msg.anCount = 1 then
    let qName ← msg.nameAt msg.question.qName
    let c ← dnsCodeDomain c qName
    let c ← put16bits c msg.question.qType
    let c ← put16bits c msg.question.qClass
    let name ← msg.nameAt msg.answer.name
    let c ← dnsCodeDomain c name
    let c ← put16bits c msg.answer.type
    let c ← put16bits c msg.answer.rr_class
    let c ← put32bits c msg.answer.ttl
    let c ← put16bits c msg.answer.rd_length
    putBytes c msg.answer.rd_data.bytes
  else return c

end Encode

/-- The message with the fields that `dns_reply` sets. -/
def Message.replied (msg : Message) (address : Octets 16) : Message :=
  { msg with
    qr := 1, aa := 1, ra := 0, rcode := Ok_ResponseType, anCount := 1, nsCount := 0, arCount := 0
    answer := ⟨msg.question.qName, msg.question.qType, msg.question.qClass, 0, 16, address⟩ }

/-- `dns_reply`: the datagram it sends, if there is an address. The array `buf` is not
initialised. -/
def dnsReply (buf : Octets 512) (msg : Message) (address : Option (Octets 16)) :
    Exec (Option Bytes) :=
  match address with
  | none => .ok none
  | some address => do
    let (buf, buflen) ← dnsCodeResponse (msg.replied address) (buf, 0)
    let raw ← copyFrom buf.bytes 0 buflen
    return some raw

end Masala.Dns
