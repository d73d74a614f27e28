import Masala.Daemon.NameIds
import Masala.Daemon.Pending

/-!
# The web interface

`masala-web.c`: a thread that accepts connections and looks up the name in the
first line of what it receives. The request lives on the heap until the callback
of its lookup answers it, closes the connection and frees it.
-/
namespace Masala.Web
open Library Routing Digest Daemon

/-- The address of `web_reply`. -/
def WEB_REPLY : ℕ := 2

def GET : Bytes := [ch 'G', ch 'E', ch 'T', ch ' ', ch '/']

def FAVICON : Bytes :=
  [ch 'f', ch 'a', ch 'v', ch 'i', ch 'c', ch 'o', ch 'n', ch '.', ch 'i', ch 'c', ch 'o']

/-- `struct request`. -/
structure Request where
  clientfd : ℤ
  clientaddr : Ip

/-- The variables of `web_loop` that keep what the pass before has left in them. -/
structure WebThread where
  clientfd : ℤ
  clientbuf : Octets 1500
  id : Id

/-- A node with its web interface: the requests on the heap under their addresses, and what has
been accepted, closed and sent. -/
structure Server where
  node : Main
  thread : WebThread
  requests : List (ℕ × Request)
  fresh : ℕ
  accepted : List ℤ
  closed : List ℤ
  sent : List (ℤ × Ip × Bytes)

/-! ## Answers -/

def text (s : String) : Bytes := s.toList.map ch

/-- `reply_fmt` with the text of an address; after the number stands the `l` of `%ul`. -/
def replyText (addrbuf : Bytes) : Bytes :=
  text "HTTP/1.1 200 OK\r\nConnection: close\r\nContent-Length: " ++ decimal addrbuf.length ++
    text "l\r\nContent-Type: text/plain\r\n\r\n" ++ addrbuf

/-- The request at an address, and the heap without it. -/
def takeRequest (ctx : ℕ) : List (ℕ × Request) → Option (Request × List (ℕ × Request))
  | [] => none
  | x :: xs =>
    if x.1 = ctx then some (x.2, xs)
    else (takeRequest ctx xs).map fun r => (r.1, x :: r.2)

/-- `web_reply`, which reads a request and frees it; `inet_ntop` writes an address. -/
def webReply (inet_ntop : Octets 16 → Bytes) (ctx : ℕ) (address : Option (Octets 16))
    (s : Server) : Exec Server :=
  match takeRequest ctx s.requests with
  | none => .error (.read ctx)
  | some (request, requests) =>
    let replies := address.toList.map fun address =>
      (request.clientfd, request.clientaddr, replyText (inet_ntop address))
    .ok { s with
      requests := requests
      closed := s.closed ++ [request.clientfd]
      sent := s.sent ++ replies }

/-- The calls of `web_reply` among those of the node. -/
def serve (inet_ntop : Octets 16 → Bytes) : List Call → Server → Exec Server
  | [], s => .ok s
  | c :: calls, s => do
    let s ← if c.callback = WEB_REPLY then webReply inet_ntop c.ctx c.address s else pure s
    serve inet_ntop calls s

/-- An event of the node, with the callbacks it calls. -/
def Server.event (inet_ntop : Octets 16 → Bytes) (e : Event) (s : Server) : Exec Server := do
  let node ← s.node.step e
  serve inet_ntop (node.calls.drop s.node.calls.length) { s with node := node }

/-! ## Requests -/

/-- What `web_loop` makes of the received bytes, up to the call of `web_lookup`: the id to look
up, if there is one. -/
def webRequest (signed : Bool) (sha1_hash : Id → Bytes → ℕ → ℕ → Exec Id) (t : WebThread)
    (received : Bytes) : Exec (WebThread × Option Id) := do
  let rc := received.length
  let clientbuf ← t.clientbuf.copyTo 0 received
  if rc < 6 ∨ clientbuf.bytes.take 5 ≠ GET then return ({ t with clientbuf }, none)
  else
    let clientbuf ← clientbuf.store rc (ch ' ')
    match ← strchr clientbuf.bytes 5 (ch ' ') with
    | none => return ({ t with clientbuf }, none)
    | some hex_end =>
      let clientbuf ← clientbuf.store hex_end 0
      let size ← strlen clientbuf.bytes 5
      if size = 0 ∨ stringAt clientbuf.bytes 5 = FAVICON then
        return ({ t with clientbuf }, none)
      else
        let id ← p2pComputeId signed sha1_hash t.id clientbuf.bytes 5
        return ({ t with clientbuf, id }, some id)

/-- What `accept` and `recv` give in a pass. Without a connection both fail. -/
inductive Incoming
  | nobody
  | connection (clientfd : ℤ) (clientaddr : Ip) (received : Option Bytes)

/-- `web_lookup` does what `dns_lookup` does, with a new request. -/
def webLookup (inet_ntop : Octets 16 → Bytes) (request : Request) (id : Id) (s : Server) :
    Exec Server := do
  let s ← Server.event inet_ntop (.lookup WEB_REPLY s.fresh id)
    { s with requests := s.requests ++ [(s.fresh, request)], fresh := s.fresh + 1 }
  return { s with thread.clientfd := 0 }

/-- `if( clientfd > 0 ) close( clientfd )`. -/
def Server.closeUnused (s : Server) : Server :=
  if s.thread.clientfd > 0 then { s with closed := s.closed ++ [s.thread.clientfd] } else s

/-- One pass of `web_loop`. -/
def webPass (signed : Bool) (sha1_hash : Id → Bytes → ℕ → ℕ → Exec Id)
    (inet_ntop : Octets 16 → Bytes) (i : Incoming) (s : Server) : Exec Server :=
  let s := s.closeUnused
  match i with
  | .nobody => .ok { s with thread.clientfd := -1 }
  | .connection clientfd clientaddr received =>
    let s := { s with thread.clientfd := clientfd, accepted := s.accepted ++ [clientfd] }
    match received with
    | none => .ok s
    | some received => do
      let (thread, id) ← webRequest signed sha1_hash s.thread (received.take 1499)
      let s := { s with thread := thread }
      match id with
      | none => return s
      | some id => webLookup inet_ntop ⟨clientfd, clientaddr⟩ id s

/-! ## Runs -/

/-- What the threads do: an event of the node that starts no web lookup, or a pass of `web_loop`.
Nothing comes in between within a pass, although `web_lookup` leaves the mutex as `dns_lookup`
does. -/
inductive Act
  | node (e : {e : Event // WEB_REPLY ∉ e.owes.map Prod.fst})
  | web (i : Incoming)

section Runs
variable (signed : Bool) (sha1_hash : Id → Bytes → ℕ → ℕ → Exec Id) (inet_ntop : Octets 16 → Bytes)

def Server.step (s : Server) : Act → Exec Server
  | .node e => s.event inet_ntop e.val
  | .web i => webPass signed sha1_hash inet_ntop i s

/-- The server after `main_init` and these acts; the buffers of the thread are not initialised. -/
def serverRun (conf : Conf) (udp : Udp) (time_now : ℤ) (urandom : ℕ → Option Id)
    (random : ℕ → ℕ) (clientbuf : Octets 1500) (id : Id) (acts : List Act) : Exec Server := do
  let node ← mainInit conf udp time_now urandom random
  acts.foldlM (Server.step signed sha1_hash inet_ntop) ⟨node, ⟨0, clientbuf, id⟩, [], 0, [], [], []⟩

end Runs
end Masala.Web
