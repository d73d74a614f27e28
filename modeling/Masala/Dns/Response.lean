import Masala.Dns.Encoding

/-!
# The answer to a query

The answer is put together from the decoded string and from the header of the
query. It is a response to the query where the string still tells the labels
and the header announces one question.
-/
namespace Masala.Dns
open Library

/-! ## The accepted query -/

/-- The string of a name in C. -/
def hostname (ls : List Bytes) : Bytes := (dotted ls).takeWhile (· ≠ 0)

/-- A query that is looked up, with the header and the rest of the memory. -/
structure Accepted (buffer : Octets 1500) (rc : ℕ) (msg : Message) (h t : Bytes) (ls : List Bytes)
    (a b : UInt8) : Prop where
  split : buffer.bytes = h ++ t
  header : h.length = 12
  size : 12 ≤ rc
  asks : Asks (field h 4) t ls a b
  inside : field h 4 = 1 → (wire ls).length + 17 ≤ rc
  name : cString msg.qName_buffer = .ok (hostname ls)
  id : msg.id = field h 0
  qdCount : msg.qdCount = field h 4
  question : msg.question = ⟨true, AAAA_Resource_RecordType, be16 a b⟩

section Memory
variable {buffer : Octets 1500} {rc : ℕ} {msg : Message} {h t : Bytes} {ls : List Bytes}
  {a b : UInt8}

theorem Accepted.drop_eq (hacc : Accepted buffer rc msg h t ls a b) :
    buffer.bytes.drop 12 = t := by rw [hacc.split, ← hacc.header, List.drop_left]

theorem field_append (t : Bytes) {p : ℕ} (hp : p + 1 < h.length) :
    field (h ++ t) p = field h p := by
  have hget : ∀ j, j < h.length → (h ++ t).getD j 0 = h.getD j 0 := fun j hj => by
    rw [List.getD_eq_getElem?_getD, List.getD_eq_getElem?_getD, List.getElem?_append_left hj]
  rw [field, field, hget p (by omega), hget (p + 1) hp]

theorem Accepted.field_eq (hacc : Accepted buffer rc msg h t ls a b) {p : ℕ} (hp : p + 1 < 12) :
    field buffer.bytes p = field h p := by
  rw [hacc.split, field_append t (by rw [hacc.header]; exact hp)]

end Memory

theorem dnsAccept_accepted {buffer : Octets 1500} {rc : ℕ} {msg : Message}
    (h : dnsAccept buffer rc = .ok (some msg)) :
    ∃ h t ls a b, Accepted buffer rc msg h t ls a b := by
  obtain ⟨⟨msg', accepted⟩, hdec, htail⟩ := exec_bind_eq_ok.mp h
  dsimp only at htail
  by_cases hno : ¬ accepted ∨ ¬ msg'.question.qName
  · rw [if_pos hno] at htail
    cases htail
  · rw [if_neg hno] at htail
    obtain ⟨s, -, hvalid⟩ := exec_bind_eq_ok.mp htail
    obtain rfl : msg' = msg := by
      by_cases hs : strIsValidHostname s
      · rw [if_pos hs] at hvalid
        exact Option.some.inj (Except.ok.inj hvalid)
      · rw [if_neg hs] at hvalid
        cases hvalid
    obtain rfl : accepted = true := by simpa using (not_or.mp hno).1
    have hsplit : buffer.bytes = buffer.bytes.take 12 ++ buffer.bytes.drop 12 :=
      (List.take_append_drop _ _).symm
    have hheader : (buffer.bytes.take 12).length = 12 := by
      rw [List.length_take, buffer.size_eq]
      rfl
    rw [dnsDecodeQuery_header messageInit rc hsplit hheader] at hdec
    by_cases hshort : (rc : ℤ) < 12
    · rw [if_pos hshort] at hdec
      simp at hdec
    · rw [if_neg hshort] at hdec
      by_cases hn : field (buffer.bytes.take 12) 6 + field (buffer.bytes.take 12) 8 +
          field (buffer.bytes.take 12) 10 ≠ 0
      · rw [if_pos hn] at hdec
        simp at hdec
      · rw [if_neg hn] at hdec
        obtain ⟨ls, a, b, qName_buffer, hasks, htext, rfl, hinside⟩ :=
          decodeQuestions_asks (by omega) hdec
        refine ⟨_, _, ls, a, b, hsplit, hheader, by omega, hasks, fun hone => ?_, cString_eq htext,
          rfl, rfl, rfl⟩
        have := hinside hone
        omega

/-! ## The size of the answer -/

/-- A datagram with a header, one name and the type and class of an AAAA question. -/
def queryFor (qdCount : UInt8) (ls : List Bytes) : Bytes :=
  [0, 1, 0, 0, 0, qdCount, 0, 0, 0, 0, 0, 0] ++ wire ls ++ [0, 0, 28, 0, 1]

/-- The receive buffer of `dns_loop` with a datagram at its start. -/
def received (d : Bytes) : Octets 1500 :=
  ⟨(d ++ List.replicate 1500 0).take 1500, by
    rw [List.length_take, List.length_append, List.length_replicate]
    omega⟩

/-- What the arrival of a datagram sends back if its name has the address 0. -/
def answered (d : Bytes) : Exec (Option Bytes) := do
  match ← dnsAccept (received d) d.length with
  | some msg => dnsReply (Octets.replicate 512 0) msg (some (Octets.replicate 16 0))
  | none => return none

/-- The answer to an accepted query stays inside its array exactly if the name that is asked for
has at most 233 characters as a string. -/
theorem dnsReply_inside_iff (buffer : Octets 1500) (rc : ℕ) (msg : Message)
    (haccept : dnsAccept buffer rc = .ok (some msg)) (buf : Octets 512) (address : Octets 16) :
    (∃ raw, dnsReply buf msg (some address) = .ok (some raw) ∧ raw.length ≤ 512) ↔
      ∃ ls a b, Asks (field buffer.bytes 4) (buffer.bytes.drop 12) ls a b ∧
        (hostname ls).length ≤ 233 := by
  obtain ⟨h, t, ls, a, b, hacc⟩ := dnsAccept_accepted haccept
  have hq : msg.question.qName = true := by rw [hacc.question]
  rw [hacc.drop_eq, hacc.field_eq (by decide)]
  rcases dnsReply_eq hq hacc.name buf address with ⟨hfit, hreply⟩ | ⟨hover, off, hreply⟩
  · refine iff_of_true ⟨_, hreply, ?_⟩ ⟨ls, a, b, hacc.asks, by omega⟩
    rw [answer_length]
    exact hfit
  · refine iff_of_false ?_ ?_
    · rintro ⟨raw, hraw, -⟩
      rw [hreply] at hraw
      cases hraw
    · rintro ⟨ms, x, y, hasks, hle⟩
      obtain ⟨rfl, -⟩ := hacc.asks.unique hasks
      omega

theorem exists_accepted {buffer : Octets 1500} {rc : ℕ}
    (h : (dnsAccept buffer rc).map Option.isSome = .ok true) :
    ∃ msg, dnsAccept buffer rc = .ok (some msg) := by
  cases haccept : dnsAccept buffer rc with
  | error e =>
    rw [haccept] at h
    cases h
  | ok r =>
    rw [haccept] at h
    obtain ⟨msg, rfl⟩ := Option.isSome_iff_exists.mp (Except.ok.inj h)
    exact ⟨msg, rfl⟩

/-- The longest name that is answered. -/
theorem dnsReply_inside_longest : ∃ msg raw,
    dnsAccept (received (queryFor 1 [List.replicate 233 0x61])) 251 = .ok (some msg) ∧
      dnsReply (Octets.replicate 512 0) msg (some (Octets.replicate 16 0)) = .ok (some raw) ∧
      raw.length ≤ 512 := by
  have hlabel : IsName [List.replicate 233 0x61] := by
    refine ⟨fun l hl => ?_, by decide +kernel⟩
    rw [List.mem_singleton.mp hl]
    exact ⟨by decide +kernel, by decide +kernel⟩
  obtain ⟨msg, hmsg⟩ := exists_accepted
    (show (dnsAccept (received (queryFor 1 [List.replicate 233 0x61])) 251).map Option.isSome =
      .ok true by decide +kernel)
  have hmemory : (received (queryFor 1 [List.replicate 233 0x61])).bytes.drop 12 =
      wire [List.replicate 233 0x61] ++ 0 :: 0 :: 28 :: 0 :: 1 :: List.replicate 1249 0 := by
    decide +kernel
  obtain ⟨raw, hraw⟩ := (dnsReply_inside_iff _ _ msg hmsg (Octets.replicate 512 0)
    (Octets.replicate 16 0)).mpr ⟨_, 0, 1, by rw [hmemory]; exact .here hlabel, by decide +kernel⟩
  exact ⟨msg, raw, hmsg, hraw⟩

/-- The answer to a name of 234 characters leaves the array. -/
theorem dnsReply_overflow : ¬ ∀ buffer rc msg, rc ≤ 1500 → dnsAccept buffer rc = .ok (some msg) →
    ∀ buf address, ∃ raw, dnsReply buf msg (some address) = .ok (some raw) ∧ raw.length ≤ 512 := by
  intro hall
  obtain ⟨msg, hmsg⟩ := exists_accepted
    (show (dnsAccept (received (queryFor 1 [List.replicate 234 0x61])) 252).map Option.isSome =
      .ok true by decide +kernel)
  obtain ⟨raw, hraw, -⟩ := hall _ _ msg (by decide) hmsg (Octets.replicate 512 0)
    (Octets.replicate 16 0)
  have hwrite : answered (queryFor 1 [List.replicate 234 0x61]) = .error (.write 512) := by
    decide +kernel
  have hreply : answered (queryFor 1 [List.replicate 234 0x61]) =
      dnsReply (Octets.replicate 512 0) msg (some (Octets.replicate 16 0)) := by
    have hlen : (queryFor 1 [List.replicate 234 0x61]).length = 252 := by decide +kernel
    rw [answered, hlen, hmsg]
    rfl
  rw [hreply, hraw] at hwrite
  cases hwrite

/-! ## The form of the answer -/

/-- A message whose header counts the entries of its four sections. -/
structure Sections where
  id : Bytes
  flags : Bytes
  questions : List Bytes
  answers : List Bytes
  authorities : List Bytes
  additionals : List Bytes

def Sections.bytes (m : Sections) : Bytes :=
  m.id ++ m.flags ++ bytes16 m.questions.length ++ bytes16 m.answers.length ++
    bytes16 m.authorities.length ++ bytes16 m.additionals.length ++
    (m.questions.flatten ++ m.answers.flatten ++ m.authorities.flatten ++ m.additionals.flatten)

/-- The bytes `raw` are a response to the datagram `d` with its id, its first AAAA question and one
AAAA answer of the same name. -/
def Answers (d : Bytes) (address : Octets 16) (raw : Bytes) : Prop :=
  ∃ h t ls a b, d = h ++ t ∧ h.length = 12 ∧ Asks (field h 4) t ls a b ∧
    ∃ qr flags x y ttl, 0x80 ≤ qr ∧ ttl.length = 4 ∧
      raw = Sections.bytes {
        id := h.take 2, flags := [qr, flags]
        questions := [wire ls ++ [0] ++ [0, 28, a, b]]
        answers := [wire ls ++ [0] ++ [0, 28, x, y] ++ ttl ++ [0, 16] ++ address.bytes]
        authorities := [], additionals := [] }

/-- A datagram with one question, whose first AAAA question has a name of at least one label that
reads the same as a string, which has at most 233 characters. -/
def Echoes (d : Bytes) : Prop :=
  ∃ ls a b, field d 4 = 1 ∧ Asks 1 (d.drop 12) ls a b ∧ ls ≠ [] ∧
    (∀ l ∈ ls, 0x2e ∉ l ∧ 0 ∉ l) ∧ (dotted ls).length ≤ 233

section Echo
variable {ls : List Bytes}

theorem hostname_eq_iff : hostname ls = dotted ls ↔ ∀ l ∈ ls, (0 : UInt8) ∉ l := by
  have hmem : (0 : UInt8) ∈ dotted ls ↔ ∃ l ∈ ls, 0 ∈ l := mem_intercalate (by decide)
  rw [hostname, List.takeWhile_eq_self_iff]
  constructor
  · intro h l hl hzero
    simpa using h 0 (hmem.mpr ⟨l, hl, hzero⟩)
  · intro h c hc
    refine decide_eq_true fun hzero => ?_
    obtain ⟨l, hl, hzero⟩ := hmem.mp (hzero ▸ hc)
    exact h l hl hzero

/-- Which names are the same as labels and as a string. -/
theorem splitOn_hostname_iff : (hostname ls).splitOn 0x2e = ls ↔
    ls ≠ [] ∧ ∀ l ∈ ls, 0x2e ∉ l ∧ 0 ∉ l := by
  constructor
  · intro h
    have hdotted : hostname ls = dotted ls := by
      conv_rhs => rw [← h]
      exact (List.intercalate_splitOn _).symm
    rw [hdotted] at h
    obtain ⟨hne, hdots⟩ := splitOn_intercalate_iff.mp h
    exact ⟨hne, fun l hl => ⟨hdots l hl, hostname_eq_iff.mp hdotted l hl⟩⟩
  · rintro ⟨hne, hls⟩
    rw [hostname_eq_iff.mpr fun l hl => (hls l hl).2]
    exact splitOn_intercalate_iff.mpr ⟨hne, fun l hl => (hls l hl).1⟩

end Echo

section Form
variable {buffer : Octets 1500} {rc : ℕ} {msg : Message} {h t : Bytes} {ls : List Bytes}
  {a b : UInt8}

theorem bytes16_field {p : ℕ} (hp : p + 2 ≤ h.length) :
    bytes16 (field h p) = (h.drop p).take 2 := by
  have hfirst : p < h.length := by omega
  have hsecond : p + 1 < h.length := by omega
  have hget : ∀ j (hj : j < h.length), h.getD j 0 = h[j] := fun j hj => by
    rw [List.getD_eq_getElem?_getD, List.getElem?_eq_getElem hj]
    rfl
  rw [field, bytes16_be16, hget p hfirst, hget (p + 1) hsecond, List.drop_eq_getElem_cons hfirst,
    List.drop_eq_getElem_cons hsecond]
  rfl

theorem field_eq_one_iff {p : ℕ} (hp : p + 2 ≤ h.length) :
    field h p = 1 ↔ (h.drop p).take 2 = bytes16 1 := by
  rw [← bytes16_field hp]
  refine ⟨fun hone => by rw [hone], fun hbytes => ?_⟩
  rw [field, bytes16_be16, show bytes16 1 = [0, 1] from rfl] at hbytes
  simp only [List.cons.injEq] at hbytes
  rw [field, hbytes.1, hbytes.2.1]
  rfl

/-- A single question stands in the bytes of the datagram. -/
theorem Accepted.asks_datagram (hacc : Accepted buffer rc msg h t ls a b) (hone : field h 4 = 1) :
    ∃ t', buffer.bytes.take rc = h ++ t' ∧ Asks 1 t' ls a b := by
  have hasks := hacc.asks
  have hinside := hacc.inside hone
  rw [hone] at hasks
  cases hasks with
  | skip _ _ hrest => cases hrest
  | @here _ _ _ _ rest hls =>
    have hsplit : buffer.bytes =
        (h ++ (wire ls ++ [0, 0, 28, a, b])) ++ rest := by rw [hacc.split]; simp
    have hlen : (h ++ (wire ls ++ [0, 0, 28, a, b])).length = (wire ls).length + 17 := by
      rw [List.length_append, List.length_append, hacc.header]
      simp only [List.length_cons, List.length_nil]
      omega
    refine ⟨wire ls ++ 0 :: 0 :: 28 :: a :: b :: rest.take (rc - ((wire ls).length + 17)), ?_,
      .here hls⟩
    rw [hsplit, List.take_append, hlen, List.take_of_length_le (by rw [hlen]; exact hinside)]
    simp

/-- The parts of a string that the array has room for are short enough for a length. -/
theorem splitOn_lengths (hls : IsName ls) : ∀ l ∈ (hostname ls).splitOn 0x2e, l.length < 256 := by
  intro l hl
  have hpart := length_lt_wire hl
  have hwire := dotted_length (List.splitOn_ne_nil 0x2e (hostname ls))
  rw [dotted, List.intercalate_splitOn] at hwire
  have hprefix : (hostname ls).length ≤ (dotted ls).length :=
    (List.takeWhile_prefix _).length_le
  have hlt := hls.dotted_lt
  omega

/-- The answer has the right form exactly if the query has one question and the name survives. -/
theorem Accepted.answers_iff (hacc : Accepted buffer rc msg h t ls a b) (address : Octets 16) :
    Answers (buffer.bytes.take rc) address (answer msg (hostname ls) address) ↔
      field h 4 = 1 ∧ (hostname ls).splitOn 0x2e = ls := by
  have hh := hacc.header
  have hbytes : answer msg (hostname ls) address = h.take 2 ++ [0x80, 0] ++ (h.drop 4).take 2 ++
      bytes16 1 ++ bytes16 0 ++ bytes16 0 ++
      ((wire ((hostname ls).splitOn 0x2e) ++ [0] ++ [0, 28, a, b]) ++
        (wire ((hostname ls).splitOn 0x2e) ++ [0] ++ [0, 28, a, b] ++ [0, 0, 0, 0] ++ [0, 16] ++
          address.bytes)) := by
    have hid := bytes16_field (h := h) (p := 0) (by omega)
    have hqd := bytes16_field (h := h) (p := 4) (by omega)
    simp only [answer, entry, hacc.id, hacc.qdCount, hacc.question, bytes16_be16, hid, hqd,
      List.append_assoc]
    rfl
  have hidlen : (h.take 2).length = 2 := by simp [hh]
  have hqdlen : ((h.drop 4).take 2).length = 2 := by simp [hh]
  rw [hbytes]
  constructor
  · rintro ⟨h', t', ms, x', y', hsplit, hh', hasks, qr, flags, x, y, ttl, -, httl, hraw⟩
    -- the header and the question are those of the datagram
    have hmemory : h ++ t = h' ++ (t' ++ buffer.bytes.drop rc) := by
      rw [← hacc.split, ← List.append_assoc, ← hsplit, List.take_append_drop]
    obtain ⟨rfl, rfl⟩ := List.append_inj hmemory (hh.trans hh'.symm)
    obtain ⟨rfl, rfl, rfl⟩ := hacc.asks.unique (hasks.append _)
    simp only [Sections.bytes, List.append_assoc] at hraw
    obtain ⟨-, hraw⟩ := List.append_inj hraw rfl
    obtain ⟨-, hraw⟩ := List.append_inj hraw rfl
    obtain ⟨hcount, hraw⟩ := List.append_inj hraw (by rw [hqdlen]; rfl)
    obtain ⟨-, hraw⟩ := List.append_inj hraw rfl
    obtain ⟨-, hraw⟩ := List.append_inj hraw rfl
    obtain ⟨-, hraw⟩ := List.append_inj hraw rfl
    have hlen := congrArg List.length hraw
    simp only [List.length_append, List.length_cons, List.length_nil, List.flatten_cons,
      List.flatten_nil, httl] at hlen
    have hnames : (wire ((hostname ls).splitOn 0x2e)).length = (wire ls).length := by omega
    simp only [List.flatten_cons, List.append_assoc] at hraw
    obtain ⟨hname, -⟩ := List.append_inj hraw hnames
    exact ⟨(field_eq_one_iff (by omega)).mpr hcount, wire_injective
      (splitOn_lengths hacc.asks.isName) (fun l hl => (hacc.asks.isName.labels l hl).2) hname⟩
  · rintro ⟨hone, hname⟩
    obtain ⟨t', hsplit, hasks⟩ := hacc.asks_datagram hone
    refine ⟨h, t', ls, a, b, hsplit, hh, by rwa [hone], 0x80, 0, a, b, [0, 0, 0, 0],
      by decide, rfl, ?_⟩
    rw [hname, (field_eq_one_iff (by omega)).mp hone]
    simp only [Sections.bytes, List.flatten_cons, List.flatten_nil, List.append_assoc,
      List.append_nil]
    rfl

end Form

/-- The answer to an accepted query is a response to it exactly if the query has one question, its
name has labels without dots and NULs, and the name has at most 233 characters as a string. -/
theorem dnsReply_answers_iff (buffer : Octets 1500) (rc : ℕ) (msg : Message)
    (haccept : dnsAccept buffer rc = .ok (some msg)) (buf : Octets 512) (address : Octets 16) :
    (∃ raw, dnsReply buf msg (some address) = .ok (some raw) ∧
        Answers (buffer.bytes.take rc) address raw) ↔ Echoes (buffer.bytes.take rc) := by
  obtain ⟨h, t, ls, a, b, hacc⟩ := dnsAccept_accepted haccept
  have hq : msg.question.qName = true := by rw [hacc.question]
  have hforms := hacc.answers_iff address
  rw [splitOn_hostname_iff] at hforms
  constructor
  · rintro ⟨raw, hraw, hanswers⟩
    rcases dnsReply_eq hq hacc.name buf address with ⟨hfit, hreply⟩ | ⟨-, off, hreply⟩
    · rw [hreply] at hraw
      obtain rfl := Option.some.inj (Except.ok.inj hraw)
      obtain ⟨hone, hne, hclean⟩ := hforms.mp hanswers
      obtain ⟨t', hsplit, hasks⟩ := hacc.asks_datagram hone
      have hname := hostname_eq_iff.mpr fun l hl => (hclean l hl).2
      rw [hname] at hfit
      refine ⟨ls, a, b, ?_, ?_, hne, hclean, by omega⟩
      · rw [hsplit, field_append _ (by rw [hacc.header]; decide), hone]
      · rwa [hsplit, ← hacc.header, List.drop_left]
    · rw [hreply] at hraw
      cases hraw
  · rintro ⟨ms, x, y, hone, hasks, hne, hclean, hle⟩
    have hsplit : buffer.bytes.take rc = h ++ t.take (rc - 12) := by
      rw [hacc.split, List.take_append, hacc.header,
        List.take_of_length_le (hacc.header.trans_le hacc.size)]
    rw [hsplit, field_append _ (by rw [hacc.header]; decide)] at hone
    rw [hsplit, ← hacc.header, List.drop_left] at hasks
    have hmemory := hasks.append (t.drop (rc - h.length))
    have hall := hacc.asks
    rw [List.take_append_drop] at hmemory
    rw [hone] at hall
    obtain ⟨rfl, -⟩ := hall.unique hmemory
    have hname := hostname_eq_iff.mpr fun l hl => (hclean l hl).2
    rcases dnsReply_eq hq hacc.name buf address with ⟨-, hreply⟩ | ⟨hover, -⟩
    · exact ⟨_, hreply, hforms.mpr ⟨hone, hne, hclean⟩⟩
    · rw [hname] at hover
      omega

/-- The name `a.bc` comes back as it was asked for. -/
theorem dnsReply_answers_plain : ∃ msg raw,
    dnsAccept (received (queryFor 1 [[0x61], [0x62, 0x63]])) 22 = .ok (some msg) ∧
      dnsReply (Octets.replicate 512 0) msg (some (Octets.replicate 16 0)) = .ok (some raw) ∧
      Answers ((received (queryFor 1 [[0x61], [0x62, 0x63]])).bytes.take 22)
        (Octets.replicate 16 0) raw := by
  obtain ⟨msg, hmsg⟩ := exists_accepted
    (show (dnsAccept (received (queryFor 1 [[0x61], [0x62, 0x63]])) 22).map Option.isSome =
      .ok true by decide +kernel)
  have hdatagram : (received (queryFor 1 [[0x61], [0x62, 0x63]])).bytes.take 22 =
      queryFor 1 [[0x61], [0x62, 0x63]] := by decide +kernel
  have hname : IsName [[0x61], [0x62, 0x63]] := by
    refine ⟨fun l hl => ?_, by decide⟩
    simp only [List.mem_cons, List.not_mem_nil, or_false] at hl
    rcases hl with rfl | rfl <;> exact ⟨by decide, by decide⟩
  have hechoes : Echoes (queryFor 1 [[0x61], [0x62, 0x63]]) :=
    ⟨[[0x61], [0x62, 0x63]], 0, 1, by decide, .here hname, by decide, by decide, by decide⟩
  obtain ⟨raw, hraw⟩ := (dnsReply_answers_iff _ _ msg hmsg (Octets.replicate 512 0)
    (Octets.replicate 16 0)).mpr (hdatagram ▸ hechoes)
  exact ⟨msg, raw, hmsg, hraw⟩

/-- Where the query announces two questions, so does the answer. -/
theorem dnsReply_miscounts : ¬ ∀ buffer rc msg, rc ≤ 1500 → dnsAccept buffer rc = .ok (some msg) →
    ∀ buf address, ∃ raw, dnsReply buf msg (some address) = .ok (some raw) ∧
      Answers (buffer.bytes.take rc) address raw := by
  intro hall
  obtain ⟨msg, hmsg⟩ := exists_accepted
    (show (dnsAccept (received (queryFor 2 [[0x61]])) 20).map Option.isSome = .ok true by
      decide +kernel)
  obtain ⟨raw, hraw, hanswers⟩ := hall _ _ msg (by decide) hmsg (Octets.replicate 512 0)
    (Octets.replicate 16 0)
  obtain ⟨h, t, ls, a, b, hacc⟩ := dnsAccept_accepted hmsg
  have hq : msg.question.qName = true := by rw [hacc.question]
  have htwo : field h 4 = 2 := by
    rw [← hacc.field_eq (by decide)]
    decide +kernel
  rcases dnsReply_eq hq hacc.name (Octets.replicate 512 0) (Octets.replicate 16 0) with
    ⟨-, hreply⟩ | ⟨-, off, hreply⟩
  · rw [hreply] at hraw
    obtain rfl := Option.some.inj (Except.ok.inj hraw)
    obtain ⟨hone, -⟩ := (hacc.answers_iff _).mp hanswers
    omega
  · rw [hreply] at hraw
    cases hraw

end Masala.Dns
