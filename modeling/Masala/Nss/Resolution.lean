import Masala.Nss.Layout
import Masala.Nss.Service
import Masala.Daemon.Hosts

/-!
# From a name to an address

The resolver of a program and the thread of the node together: what the program
reads is the address from which the host has announced itself last. If the node
does not know the host, the program reads nothing and the node looks for it.
-/
namespace Masala.Nss
open Library Bencode Routing Digest Dns Daemon

/-- A name in the domain that fits the buffer of the node. -/
structure Resolvable (hostname : Bytes) : Prop where
  chars : nssMasalaValidHostname hostname = true
  tld : nssMasalaValidTld hostname = true
  short : hostname.length < 256

section Lookup
variable {signed : Bool} {stack : Sha1Context} {hostname : Bytes} {t : NssThread} {m : Main}

theorem Resolvable.takeWhile_eq (h : Resolvable hostname) :
    hostname.takeWhile (· ≠ 0) = hostname := by
  have hchars : ∀ c ∈ hostname, decide (c ≠ 0) = true := by
    intro c hc
    have hchar := List.all_eq_true.mp h.chars c hc
    rw [decide_eq_true_eq]
    rintro rfl
    cases hchar
  calc hostname.takeWhile (· ≠ 0) = (hostname ++ []).takeWhile (· ≠ 0) := by rw [List.append_nil]
    _ = hostname ++ [].takeWhile (· ≠ 0) := List.takeWhile_append_of_pos hchars
    _ = hostname := List.append_nil hostname

theorem Resolvable.ne_nil (h : Resolvable hostname) : hostname ≠ [] := by
  rintro rfl
  cases h.tld

theorem Resolvable.not_mem (h : Resolvable hostname) : 0 ∉ hostname := by
  rw [← h.takeWhile_eq]
  exact not_mem_string hostname

/-- The client reads the address behind the id of a reply. -/
theorem nssReply_address (node_id : Id) (node_addr : Ip) :
    (nssReply node_id node_addr).take MAIN_BUF = nssReply node_id node_addr ∧
      (nssReply node_id node_addr).length = SHA_DIGEST_LENGTH + 16 ∧
      (nssReply node_id node_addr).drop SHA_DIGEST_LENGTH = node_addr.addr.bytes := by
  have hid := node_id.size_eq
  have hlen : (nssReply node_id node_addr).length = SHA_DIGEST_LENGTH + 16 := by
    rw [nssReply, List.length_append, hid, node_addr.addr.size_eq]
  refine ⟨List.take_of_length_le (by rw [hlen]; decide), hlen, ?_⟩
  rw [nssReply, List.drop_left' hid]

/-- A resolvable name is looked up in the database of the node. -/
theorem nssMasalaLookup_eq (signed : Bool) (stack : Sha1Context) (t : NssThread) (m : Main)
    (h : Resolvable hostname) : ∃ id t', id.bytes = hostId hostname ∧
    nssMasalaLookup (nssPass signed (sha1Hash stack)) hostname (t, m) = (do
      match ← dbAddress id m with
      | some sa => return (some sa.addr, t', m)
      | none =>
        let m' ← m.step (.search id)
        return (none, t', m')) := by
  have hvalid : strIsValidHostname (hostname.takeWhile (· ≠ 0)) := by
    rw [h.takeWhile_eq]
    exact h.chars
  obtain ⟨id, t', hid, hpass⟩ := nssPass_name signed stack t m h.ne_nil h.short hvalid
  rw [h.takeWhile_eq] at hid
  refine ⟨id, t', hid, ?_⟩
  rw [nssMasalaLookup, hpass, nssLookup, bind_assoc, bind_assoc]
  congr 1
  funext r
  cases r with
  | none =>
    change (lkpPut id none 0 m >>= _) >>= _ = lkpPut id none 0 m >>= _
    rw [bind_assoc]
    rfl
  | some sa =>
    obtain ⟨htake, hlen, hdrop⟩ := nssReply_address id sa
    have hfits : ((nssReply id sa).take MAIN_BUF).length = SHA_DIGEST_LENGTH + 16 := by
      rw [htake, hlen]
    refine (dif_pos hfits).trans (congrArg (fun a => Except.ok (some a, t', m)) (Octets.ext ?_))
    dsimp only
    rw [htake, hdrop]

/-- The answer for a name in a run: the address of the last announcement of its host, which does
not change the node, or none and a search. There is an answer until the clock has passed fifteen
minutes after the announcement. -/
def Answer {α : Type} (own : Id) (events : List Event) (m : Main) (hostname : Bytes)
    (r : Exec (α × NssThread × Main)) (Found : Octets 16 → α → Prop) (missed : α) : Prop :=
  ∃ id t', id.bytes = hostId hostname ∧
    ((∃ sa now post a, LastAnnounced own id events sa now post ∧ r = .ok (a, t', m) ∧
        Found sa.addr a) ∨
      (∀ sa now post, LastAnnounced own id events sa now post →
        ∃ e ∈ post, ∃ later, e.clock = some later ∧ now + 900 < later) ∧
      r = m.step (.search id) >>= fun m' => .ok (missed, t', m'))

theorem nssMasalaLookup_answer {own : Id} {events : List Event} {ys : List (Container.Ptr × Db)}
    (h : Resolvable hostname) (hhosts : HostTable own events m ys) :
    Answer own events m hostname
      (nssMasalaLookup (nssPass signed (sha1Hash stack)) hostname (t, m))
      (fun addr a => a = some addr) none := by
  obtain ⟨id, t', hid, hlookup⟩ := nssMasalaLookup_eq signed stack t m h
  obtain ⟨r, hr, hlast, -⟩ := hhosts.answers id
  rw [hr, exec_ok_bind] at hlookup
  refine ⟨id, t', hid, ?_⟩
  cases r with
  | some sa =>
    obtain ⟨now, post, hlast⟩ := hlast sa rfl
    exact .inl ⟨sa, now, post, some sa.addr, hlast, hlookup, rfl⟩
  | none =>
    exact .inr ⟨fun sa now post hlast => hhosts.unknown hr hlast, hlookup⟩

/-- A call that goes on with the answer of a lookup answers as well. -/
theorem Answer.bind {α β : Type} {own : Id} {events : List Event}
    {r : Exec (α × NssThread × Main)} {Found : Octets 16 → α → Prop} {missed : α}
    {f : α × NssThread × Main → Exec (β × NssThread × Main)} {Found' : Octets 16 → β → Prop}
    {missed' : β} (h : Answer own events m hostname r Found missed)
    (hfound : ∀ addr a s, Found addr a → ∃ b, f (a, s) = .ok (b, s) ∧ Found' addr b)
    (hmissed : ∀ s, f (missed, s) = .ok (missed', s)) :
    Answer own events m hostname (r >>= f) Found' missed' := by
  obtain ⟨id, t', hid, ⟨sa, now, post, a, hlast, rfl, ha⟩ | ⟨hlate, rfl⟩⟩ := h
  · obtain ⟨b, hb, hfound⟩ := hfound sa.addr a (t', m) ha
    exact ⟨id, t', hid, .inl ⟨sa, now, post, b, hlast, hb, hfound⟩⟩
  · refine ⟨id, t', hid, .inr ⟨hlate, ?_⟩⟩
    rw [bind_assoc]
    congr 1
    funext m'
    exact hmissed (t', m')

/-- A name that the node ignores is not found. -/
theorem nssMasalaLookup_ignored (signed : Bool) (stack : Sha1Context) (t : NssThread) (m : Main)
    (h : 256 ≤ hostname.length) :
    ∃ t', nssMasalaLookup (nssPass signed (sha1Hash stack)) hostname (t, m) =
      .ok (none, t', m) := by
  obtain ⟨t', hpass⟩ := nssPass_ignored signed stack t m (.inr (.inl h))
  exact ⟨t', by rw [nssMasalaLookup, hpass]; rfl⟩

end Lookup

/-! ## Calls -/

/-- The call fails without an effect but on the error numbers. -/
def Refused {buflen : ℕ} (w : Caller buflen) (m : Main)
    (r : Exec ((NssStatus × Caller buflen) × NssThread × Main)) : Prop :=
  ∃ status errnop h_errnop t', status ≠ .success ∧
    r = .ok ((status, w.fail errnop h_errnop), t', m)

section Calls
variable {conf : Conf} {udp : Udp} {time_now : ℤ} {urandom : ℕ → Option Id} {random : ℕ → ℕ}
  {own : Id} {events : List Event} {ys : List (Container.Ptr × Db)} {m : Main} {signed : Bool}
  {stack : Sha1Context} {t : NssThread} {c : Machine} {buflen : ℕ} {w : Caller buflen}
  {hostname : Bytes}

theorem nssMasalaHostent_answer (hname : Resolvable hostname) (hhosts : HostTable own events m ys)
    (hbase : w.base + buflen ≤ 256 ^ c.pointer) (hsize : hostentSize c hostname ≤ buflen) (af : ℤ) :
    Answer own events m hostname
      (nssMasalaHostent c (nssPass signed (sha1Hash stack)) hostname af w (t, m))
      (fun addr r => r.1 = .success ∧ Resolved c hostname af addr w r.2)
      (.notFound, w.fail ENOENT HOST_NOT_FOUND) := by
  rw [nssMasalaHostent, if_neg (Nat.not_lt.mpr hsize)]
  refine (nssMasalaLookup_answer hname hhosts).bind (fun addr a s ha => ?_) fun s => rfl
  obtain ⟨w', hfill, hread⟩ := fillHostent_resolved af addr hsize hbase hname.not_mem
  subst ha
  exact ⟨(.success, w'), by dsimp only; rw [hfill]; rfl, rfl, hread⟩

theorem nssMasalaHostent_refused (h : 256 ≤ hostname.length ∨ buflen < hostentSize c hostname)
    (af : ℤ) : Refused w m
      (nssMasalaHostent c (nssPass signed (sha1Hash stack)) hostname af w (t, m)) := by
  rw [nssMasalaHostent]
  by_cases hsize : buflen < hostentSize c hostname
  · rw [if_pos hsize]
    exact ⟨.tryAgain, ENOMEM, NO_RECOVERY, t, by decide, rfl⟩
  · obtain ⟨t', hlookup⟩ := nssMasalaLookup_ignored signed stack t m (h.resolve_right hsize)
    rw [if_neg hsize, hlookup]
    exact ⟨.notFound, ENOENT, HOST_NOT_FOUND, t', by decide, rfl⟩

/-- A name that is not one of the domain is refused at once. -/
theorem Refused.checked {r : Exec ((NssStatus × Caller buflen) × NssThread × Main)}
    (h : nssMasalaValidHostname hostname = true → nssMasalaValidTld hostname = true →
      Refused w m r) : Refused w m
      (if ¬ nssMasalaValidHostname hostname then
        .ok ((.notFound, w.fail ENOENT HOST_NOT_FOUND), t, m)
      else if ¬ nssMasalaValidTld hostname then
        .ok ((.notFound, w.fail ENOENT HOST_NOT_FOUND), t, m)
      else r) := by
  have hrefused : Refused w m (.ok ((.notFound, w.fail ENOENT HOST_NOT_FOUND), t, m)) :=
    ⟨.notFound, ENOENT, HOST_NOT_FOUND, t, by decide, rfl⟩
  by_cases hchars : nssMasalaValidHostname hostname = true
  · rw [if_neg (not_not.mpr hchars)]
    by_cases htld : nssMasalaValidTld hostname = true
    · rw [if_neg (not_not.mpr htld)]
      exact h hchars htld
    · rw [if_pos htld]
      exact hrefused
  · rw [if_pos hchars]
    exact hrefused

/-- A program that asks for a name of the domain reads, through the pointers of the record, this
name and the address from which its host has announced itself last; any other call fails without
an effect on the node or on the memory of the caller. -/
theorem nss_gethostbyname3 (hrun : nodeRun conf udp time_now urandom random events = .ok m)
    (hbase : w.base + buflen ≤ 256 ^ c.pointer) (signed : Bool) (stack : Sha1Context)
    (t : NssThread) (hostname : Bytes) (af : ℤ) :
    (Resolvable hostname ∧ (af = AF_UNSPEC ∨ af = AF_INET6.toNat) ∧
        hostentSize c hostname ≤ buflen → Answer conf.node_id events m hostname
      (nssMasalaGethostbyname3 c (nssPass signed (sha1Hash stack)) hostname af w (t, m))
      (fun addr r => r.1 = .success ∧ Resolved c hostname AF_INET6.toNat addr w r.2)
      (.notFound, w.fail ENOENT HOST_NOT_FOUND)) ∧
    (¬ (Resolvable hostname ∧ (af = AF_UNSPEC ∨ af = AF_INET6.toNat) ∧
        hostentSize c hostname ≤ buflen) → Refused w m
      (nssMasalaGethostbyname3 c (nssPass signed (sha1Hash stack)) hostname af w (t, m))) := by
  have hfamily : (if af = AF_UNSPEC then (AF_INET6.toNat : ℤ) else af) = AF_INET6.toNat ↔
      af = AF_UNSPEC ∨ af = AF_INET6.toNat := by
    split
    · exact ⟨fun _ => .inl ‹_›, fun _ => rfl⟩
    · exact ⟨.inr, fun h => h.resolve_left ‹_›⟩
  constructor
  · rintro ⟨hname, haf, hsize⟩
    obtain ⟨ys, hhosts⟩ := nodeRun_hosts hrun
    unfold nssMasalaGethostbyname3
    rw [hfamily.mpr haf, if_neg (not_not.mpr rfl), if_neg (not_not.mpr hname.chars),
      if_neg (not_not.mpr hname.tld)]
    exact nssMasalaHostent_answer hname hhosts hbase hsize _
  · intro hnot
    unfold nssMasalaGethostbyname3
    by_cases haf : af = AF_UNSPEC ∨ af = AF_INET6.toNat
    · rw [hfamily.mpr haf, if_neg (not_not.mpr rfl)]
      refine Refused.checked fun hchars htld => nssMasalaHostent_refused ?_ _
      by_contra hno
      rw [not_or, not_le, not_lt] at hno
      exact hnot ⟨⟨hchars, htld, hno.1⟩, haf, hno.2⟩
    · rw [if_pos (mt hfamily.mp haf)]
      exact ⟨.unavail, EAFNOSUPPORT, NO_DATA, t, by decide, rfl⟩

/-! ## Tuples -/

theorem nssMasalaGaihTuple_refused
    (h : 256 ≤ hostname.length ∨ buflen < hostname.length + 1 + addrtupleSize c) :
    Refused w m (nssMasalaGaihTuple c (nssPass signed (sha1Hash stack)) hostname w (t, m)) := by
  rw [nssMasalaGaihTuple]
  by_cases hsize : buflen < hostname.length + 1 + addrtupleSize c
  · rw [if_pos hsize]
    exact ⟨.tryAgain, ENOMEM, NO_RECOVERY, t, by decide, rfl⟩
  · obtain ⟨t', hlookup⟩ := nssMasalaLookup_ignored signed stack t m (h.resolve_right hsize)
    rw [if_neg hsize, hlookup]
    exact ⟨.tryAgain, ENOMEM, NO_RECOVERY, t', by decide, rfl⟩

/-- The same for a program that asks for a chain of tuples, but that a host which is not found is
told to be a lack of memory. -/
theorem nss_gethostbyname4 (hrun : nodeRun conf udp time_now urandom random events = .ok m)
    (hbase : w.base + buflen ≤ 256 ^ c.pointer) (signed : Bool) (stack : Sha1Context)
    (t : NssThread) (hostname : Bytes) :
    (Resolvable hostname ∧ hostname.length + 1 + addrtupleSize c ≤ buflen →
      Answer conf.node_id events m hostname
        (nssMasalaGethostbyname4 c (nssPass signed (sha1Hash stack)) hostname w (t, m))
        (fun addr r => r.1 = .success ∧ ResolvedTuple c hostname addr w r.2)
        (.tryAgain, w.fail ENOMEM NO_RECOVERY)) ∧
    (¬ (Resolvable hostname ∧ hostname.length + 1 + addrtupleSize c ≤ buflen) → Refused w m
      (nssMasalaGethostbyname4 c (nssPass signed (sha1Hash stack)) hostname w (t, m))) := by
  constructor
  · rintro ⟨hname, hsize⟩
    obtain ⟨ys, hhosts⟩ := nodeRun_hosts hrun
    rw [nssMasalaGethostbyname4, if_neg (not_not.mpr hname.chars), if_neg (not_not.mpr hname.tld),
      nssMasalaGaihTuple, if_neg (Nat.not_lt.mpr hsize)]
    refine (nssMasalaLookup_answer hname hhosts).bind (fun addr a s ha => ?_) fun s => rfl
    obtain ⟨w', hfill, hread⟩ := fillTuple_resolved addr hsize hbase hname.not_mem
    subst ha
    exact ⟨(.success, w'), by dsimp only; rw [hfill]; rfl, rfl, hread⟩
  · intro hnot
    refine Refused.checked fun hchars htld => nssMasalaGaihTuple_refused ?_
    by_contra hno
    rw [not_or, not_le, not_lt] at hno
    exact hnot ⟨⟨hchars, htld, hno.1⟩, hno.2⟩

end Calls

/-- `0200000000000000000000000000000000000000.p2p`, the name of the host `headId 2`. -/
def headName : Bytes := ch '0' :: ch '2' :: List.replicate 38 (ch '0') ++ ch '.' :: DOMAIN

/-- The buffers of a program, at the address 4096, and of the node. -/
def headCaller (buflen : ℕ) : Caller buflen :=
  ⟨⟨0, 0, 0, 0, 0⟩, 0, 4096, .replicate buflen 0xff, 0, 0, some 7, none⟩

def headThread : NssThread := ⟨.replicate 256 0xff, .replicate 20 0⟩

def headStack : Sha1Context :=
  ⟨0, 0, initialValue, .replicate 64 0, .replicate 64 0, .replicate 64 0⟩

def pc64 : Machine := ⟨.littleEndian, 8, by decide⟩

theorem headName_resolvable : Resolvable headName := ⟨by decide, by decide, by decide⟩

theorem firstAnnounce_run : ∃ m, nodeRun ⟨headId 0xff, headId 0, none, none⟩ ⟨3, true⟩ 0
    (fun k => some (headId k.toUInt8)) (fun _ => 0) [firstAnnounce] = .ok m := by
  have hcalc : (nodeRun ⟨headId 0xff, headId 0, none, none⟩ ⟨3, true⟩ 0
      (fun k => some (headId k.toUInt8)) (fun _ => 0) [firstAnnounce] >>=
      dbAddress (headId 2)) = .ok (some (Routing.newNode (headId 0)).c_addr) := by decide +kernel
  obtain ⟨m, hrun, -⟩ := exec_bind_eq_ok.mp hcalc
  exact ⟨m, hrun⟩

/-- A program asks for a host that has announced itself. -/
theorem nss_gethostbyname3_head : ∃ m, nodeRun ⟨headId 0xff, headId 0, none, none⟩ ⟨3, true⟩ 0
      (fun k => some (headId k.toUInt8)) (fun _ => 0) [firstAnnounce] = .ok m ∧
    Answer (headId 0xff) [firstAnnounce] m headName
      (nssMasalaGethostbyname3 pc64 (nssPass true (sha1Hash headStack)) headName AF_UNSPEC
        (headCaller 85) (headThread, m))
      (fun addr r => r.1 = .success ∧
        Resolved pc64 headName AF_INET6.toNat addr (headCaller 85) r.2)
      (.notFound, (headCaller 85).fail ENOENT HOST_NOT_FOUND) := by
  obtain ⟨m, hrun⟩ := firstAnnounce_run
  exact ⟨m, hrun, (nss_gethostbyname3 (c := pc64) (w := headCaller 85) hrun (by decide) true
    headStack headThread headName AF_UNSPEC).1 ⟨headName_resolvable, .inl rfl, by decide⟩⟩

/-- It reads the address of the announcement. -/
example : (do
    let m ← nodeRun ⟨headId 0xff, headId 0, none, none⟩ ⟨3, true⟩ 0
      (fun k => some (headId k.toUInt8)) (fun _ => 0) [firstAnnounce]
    let (r, _) ← nssMasalaGethostbyname3 pc64 (nssPass true (sha1Hash headStack)) headName
      AF_UNSPEC (headCaller 85) (headThread, m)
    r.2.host.read pc64 r.2.memory) =
    .ok (headName, [], [(Routing.newNode (headId 0)).c_addr.addr.bytes]) := by decide +kernel

/-- The same program with the other function. -/
theorem nss_gethostbyname4_head : ∃ m, nodeRun ⟨headId 0xff, headId 0, none, none⟩ ⟨3, true⟩ 0
      (fun k => some (headId k.toUInt8)) (fun _ => 0) [firstAnnounce] = .ok m ∧
    Answer (headId 0xff) [firstAnnounce] m headName
      (nssMasalaGethostbyname4 pc64 (nssPass true (sha1Hash headStack)) headName
        (headCaller 85) (headThread, m))
      (fun addr r => r.1 = .success ∧ ResolvedTuple pc64 headName addr (headCaller 85) r.2)
      (.tryAgain, (headCaller 85).fail ENOMEM NO_RECOVERY) := by
  obtain ⟨m, hrun⟩ := firstAnnounce_run
  exact ⟨m, hrun, (nss_gethostbyname4 (c := pc64) (w := headCaller 85) hrun (by decide) true
    headStack headThread headName).1 ⟨headName_resolvable, by decide⟩⟩

end Masala.Nss
