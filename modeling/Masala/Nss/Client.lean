import Masala.Library.Words
import Masala.Dns.Message
import Masala.Daemon.Main

/-!
# The resolver in a process

`masala-libnss.c`: the C library calls it with the name that a program asks
for. It sends the name to the node on this host and lays the answer out in the
buffer of the caller, with pointers into this buffer in the record.
-/
namespace Masala.Nss
open Library Bencode Routing Dns
open Daemon (AF_INET6)

def AF_UNSPEC : ℤ := 0
def ENOENT : ℤ := 2
def ENOMEM : ℤ := 12
def EAFNOSUPPORT : ℤ := 97
def HOST_NOT_FOUND : ℤ := 1
def NO_RECOVERY : ℤ := 3
def NO_DATA : ℤ := 4
def MAIN_BUF : ℕ := 1024
def DOMAIN : Bytes := [ch 'p', ch '2', ch 'p']

inductive NssStatus
  | tryAgain
  | unavail
  | notFound
  | success
deriving DecidableEq

/-- `struct hostent` with pointers as numbers. -/
structure Hostent where
  h_name : ℕ
  h_aliases : ℕ
  h_addrtype : ℤ
  h_length : ℕ
  h_addr_list : ℕ
deriving DecidableEq

/-- What the caller lets a function write to: records, a buffer at the address `base` and, unless
they are NULL, `ttlp` and `canonp`. -/
structure Caller (buflen : ℕ) where
  host : Hostent
  pat : ℕ
  base : ℕ
  buffer : Octets buflen
  errnop : ℤ
  h_errnop : ℤ
  ttlp : Option ℤ
  canonp : Option ℕ

/-- The caller after a failure. -/
def Caller.fail {buflen : ℕ} (w : Caller buflen) (errnop h_errnop : ℤ) : Caller buflen :=
  { w with errnop, h_errnop }

def nssMasalaValidHostname (hostname : Bytes) : Bool := hostname.all isHostnameChar

/-- The loop of `_nss_masala_valid_tld`: `p0` stands behind the last dot in front of the place to
which `strchr` has come. -/
def lastLabel (p0 : Bytes) : Bytes → Bytes
  | [] => p0
  | c :: cs => if c = ch '.' then lastLabel cs cs else lastLabel p0 cs

def nssMasalaValidTld (hostname : Bytes) : Bool :=
  if hostname.length < DOMAIN.length + 2 then false else lastLabel hostname hostname = DOMAIN

section Calls
variable {σ : Type} {buflen : ℕ}

/-- `_nss_masala_lookup`; `ask` sends a datagram and waits for one in return. -/
def nssMasalaLookup (ask : Bytes → σ → Exec (Option Bytes × σ)) (hostname : Bytes) (s : σ) :
    Exec (Option (Octets 16) × σ) := do
  let (reply, s) ← ask hostname s
  match reply with
  | none => return (none, s)
  | some datagram =>
    if h : (datagram.take MAIN_BUF).length = SHA_DIGEST_LENGTH + 16 then
      let address : Octets 16 := ⟨(datagram.take MAIN_BUF).drop SHA_DIGEST_LENGTH, by
        rw [List.length_drop, h, Nat.add_sub_cancel_left]⟩
      return (some address, s)
    else return (none, s)

variable (c : Machine) (ask : Bytes → σ → Exec (Option Bytes × σ)) (hostname : Bytes)

/-- The size of what `_nss_masala_hostent` lays out. -/
def hostentSize : ℕ := hostname.length + 1 + c.pointer + 16 + 2 * c.pointer

/-- `_nss_masala_hostent` with an address. -/
def fillHostent (af : ℤ) (address : Octets 16) (w : Caller buflen) : Exec (Caller buflen) := do
  let buffer ← w.buffer.copyTo 0 (List.replicate buflen 0)
  let p_name := 0
  let buffer ← buffer.copyTo p_name hostname
  let p_aliases := p_name + hostname.length + 1
  let buffer ← buffer.copyTo p_aliases (c.ptr 0)
  let p_addr := p_aliases + c.pointer
  let buffer ← buffer.copyTo p_addr address.bytes
  let p_addr_list := p_addr + 16
  let buffer ← buffer.copyTo p_addr_list (c.ptr (w.base + p_addr))
  let buffer ← buffer.copyTo (p_addr_list + c.pointer) (c.ptr 0)
  return { w with
    buffer
    host := ⟨w.base + p_name, w.base + p_aliases, af, 16, w.base + p_addr_list⟩
    ttlp := w.ttlp.map fun _ => 0
    canonp := w.canonp.map fun _ => w.base + p_name }

def nssMasalaHostent (af : ℤ) (w : Caller buflen) (s : σ) :
    Exec ((NssStatus × Caller buflen) × σ) := do
  if buflen < hostentSize c hostname then return ((.tryAgain, w.fail ENOMEM NO_RECOVERY), s)
  else
    match ← nssMasalaLookup ask hostname s with
    | (none, s) => return ((.notFound, w.fail ENOENT HOST_NOT_FOUND), s)
    | (some address, s) =>
      let w ← fillHostent c hostname af address w
      return ((.success, w), s)

/-- `sizeof(struct gaih_addrtuple)`: two pointers, the family, the address and the scope. -/
def addrtupleSize : ℕ := 2 * c.pointer + 24

/-- `_nss_masala_gaih_tuple` with an address. -/
def fillTuple (address : Octets 16) (w : Caller buflen) : Exec (Caller buflen) := do
  let buffer ← w.buffer.copyTo 0 (List.replicate buflen 0)
  let p_name := 0
  let buffer ← buffer.copyTo p_name hostname
  let p_tuple := p_name + hostname.length + 1
  let buffer ← buffer.copyTo p_tuple (c.ptr 0)
  let buffer ← buffer.copyTo (p_tuple + c.pointer) (c.ptr (w.base + p_name))
  let buffer ← buffer.copyTo (p_tuple + 2 * c.pointer) (c.order.write 4 AF_INET6.toNat)
  let buffer ← buffer.copyTo (p_tuple + 2 * c.pointer + 4) address.bytes
  let buffer ← buffer.copyTo (p_tuple + 2 * c.pointer + 20) (c.order.write 4 0)
  return { w with buffer, pat := w.base + p_tuple, ttlp := w.ttlp.map fun _ => 0 }

def nssMasalaGaihTuple (w : Caller buflen) (s : σ) : Exec ((NssStatus × Caller buflen) × σ) := do
  if buflen < hostname.length + 1 + addrtupleSize c then
    return ((.tryAgain, w.fail ENOMEM NO_RECOVERY), s)
  else
    match ← nssMasalaLookup ask hostname s with
    | (none, s) => return ((.tryAgain, w.fail ENOMEM NO_RECOVERY), s)
    | (some address, s) =>
      let w ← fillTuple c hostname address w
      return ((.success, w), s)

/-- `_nss_masala_gethostbyname3_r`. -/
def nssMasalaGethostbyname3 (af : ℤ) (w : Caller buflen) (s : σ) :
    Exec ((NssStatus × Caller buflen) × σ) :=
  let af : ℤ := if af = AF_UNSPEC then AF_INET6.toNat else af
  if af ≠ AF_INET6.toNat then .ok ((.unavail, w.fail EAFNOSUPPORT NO_DATA), s)
  else if ¬ nssMasalaValidHostname hostname then .ok ((.notFound, w.fail ENOENT HOST_NOT_FOUND), s)
  else if ¬ nssMasalaValidTld hostname then .ok ((.notFound, w.fail ENOENT HOST_NOT_FOUND), s)
  else nssMasalaHostent c ask hostname af w s

/-- `_nss_masala_gethostbyname2_r`, which passes NULL for `ttlp` and `canonp`. -/
def nssMasalaGethostbyname2 (af : ℤ) (w : Caller buflen) (s : σ) :
    Exec ((NssStatus × Caller buflen) × σ) :=
  nssMasalaGethostbyname3 c ask hostname af { w with ttlp := none, canonp := none } s

/-- `_nss_masala_gethostbyname_r`. -/
def nssMasalaGethostbyname (w : Caller buflen) (s : σ) : Exec ((NssStatus × Caller buflen) × σ) :=
  nssMasalaGethostbyname3 c ask hostname AF_UNSPEC { w with ttlp := none, canonp := none } s

/-- `_nss_masala_gethostbyname4_r`. -/
def nssMasalaGethostbyname4 (w : Caller buflen) (s : σ) : Exec ((NssStatus × Caller buflen) × σ) :=
  if ¬ nssMasalaValidHostname hostname then .ok ((.notFound, w.fail ENOENT HOST_NOT_FOUND), s)
  else if ¬ nssMasalaValidTld hostname then .ok ((.notFound, w.fail ENOENT HOST_NOT_FOUND), s)
  else nssMasalaGaihTuple c ask hostname w s

end Calls
end Masala.Nss
