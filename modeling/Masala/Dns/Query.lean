import Masala.Dns.Name
import Mathlib.Data.Nat.Init
import Mathlib.Tactic.Ring

/-!
# Reading a query

The decoder of a query takes the names off the bytes that are left, but not the
type and class behind them. Behind `m` questions it believes in `4 * m` bytes
more than there are, and reads them.
-/
namespace Masala.Dns
open Library

/-- Two bytes in network order. -/
def be16 (hi lo : UInt8) : ℕ := (hi.toNat <<< 8) + lo.toNat

/-- A field of the header. -/
def field (h : Bytes) (p : ℕ) : ℕ := be16 (h.getD p 0) (h.getD (p + 1) 0)

/-- The bytes left of a datagram end where the decoder still reads on behind `m` questions: right
behind a label, inside a label, or inside the type and class. -/
inductive Cut (m : ℕ) : Bytes → Prop
  | behind {ls : List Bytes} : IsName ls → Cut m (wire ls)
  | label {ls : List Bytes} {c : UInt8} {part : Bytes} : IsName ls → c ≠ 0 →
      (wire ls).length + 1 + c.toNat ≤ 256 → part.length < c.toNat →
      c.toNat ≤ part.length + 4 * m → Cut m (wire ls ++ c :: part)
  | fields {ls : List Bytes} {part : Bytes} : IsName ls → m ≠ 0 → part.length < 4 →
      Cut m (wire ls ++ 0 :: part)

/-- The bytes behind `m` questions, of which the decoder expects `k` more, are cut at one of them
that stands behind complete ones of other types. -/
inductive Overruns : ℕ → ℕ → Bytes → Prop
  | cut {m k : ℕ} {t : Bytes} : Cut m t → Overruns m (k + 1) t
  | next {m k : ℕ} {ls : List Bytes} {hi lo a b : UInt8} {rest : Bytes} : IsName ls →
      be16 hi lo ≠ AAAA_Resource_RecordType → Overruns (m + 1) k rest →
      Overruns m (k + 1) (wire ls ++ 0 :: hi :: lo :: a :: b :: rest)

/-- How the memory from a name on ends the walk over it with `size` bytes left. -/
inductive Scanned (size : ℤ) : Bytes → Prop
  | behind {ls : List Bytes} : Room size ls → Scanned size (wire ls)
  | ended {ls : List Bytes} {part : Bytes} : Room size ls → Scanned size (wire ls ++ 0 :: part)
  | refused {ls : List Bytes} {c : UInt8} {part : Bytes} : Room size ls → c ≠ 0 →
      ¬ ((wire ls).length + 1 + c.toNat ≤ 256 ∧ ((wire ls).length + 1 + c.toNat : ℤ) ≤ size) →
      Scanned size (wire ls ++ c :: part)
  | label {ls : List Bytes} {c : UInt8} {part : Bytes} : Room size ls → c ≠ 0 →
      (wire ls).length + 1 + c.toNat ≤ 256 → ((wire ls).length + 1 + c.toNat : ℤ) ≤ size →
      part.length < c.toNat → Scanned size (wire ls ++ c :: part)

section Shapes
variable {d : Bytes} {p : ℕ} {size : ℤ}

theorem drop_behind {xs ys : Bytes} (h : d.drop p = xs ++ ys) : d.drop (p + xs.length) = ys := by
  rw [← List.drop_drop, h, List.drop_left]

theorem at_of_drop {xs : Bytes} {c : UInt8} {ys : Bytes} (h : d.drop p = xs ++ c :: ys) :
    At d p (xs ++ [c]) := ⟨ys, by rw [h, List.append_assoc, List.singleton_append]⟩

/-- The memory has one of the four shapes. -/
theorem scanned_from (ls : List Bytes) (rest : Bytes) (h : Room size ls) :
    Scanned size (wire ls ++ rest) := by
  induction hn : rest.length using Nat.strong_induction_on generalizing ls rest with
  | h n ih =>
    cases rest with
    | nil =>
      rw [List.append_nil]
      exact .behind h
    | cons c part =>
      by_cases hc : c = 0
      · subst hc
        exact .ended h
      · by_cases hroom : (wire ls).length + 1 + c.toNat ≤ 256 ∧
          ((wire ls).length + 1 + c.toNat : ℤ) ≤ size
        · by_cases hpart : part.length < c.toNat
          · exact .label h hc hroom.1 hroom.2 hpart
          · -- the label is complete and the walk goes on behind it
            have hlen : (part.take c.toNat).length = c.toNat :=
              List.length_take_of_le (Nat.not_lt.mp hpart)
            have hl : IsLabel (part.take c.toNat) := by
              refine ⟨fun hnil => hc ?_, by rw [hlen]; exact c.toNat_lt⟩
              rw [hnil] at hlen
              exact UInt8.toNat_inj.mp hlen.symm
            have hrow : wire ls ++ c :: part =
                wire (ls ++ [part.take c.toNat]) ++ part.drop c.toNat := by
              have hback : c.toNat.toUInt8 = c := UInt8.ofNat_toNat
              rw [wire_append, wire_singleton, hlen, hback]
              simp
            rw [hrow]
            refine ih _ ?_ _ _ ((h.snoc_iff hl).mpr (by rw [hlen]; exact hroom)) rfl
            rw [← hn, List.length_drop, List.length_cons]
            omega
        · exact .refused h hc hroom

theorem scanned (h : 0 ≤ size) (t : Bytes) : Scanned size t := scanned_from [] t ⟨.nil, h⟩

theorem get16bits_at {hi lo : UInt8} (h : At d p [hi, lo]) : get16bits d p = .ok (be16 hi lo) := by
  rw [get16bits, h.deref, exec_ok_bind, h.tail.deref, exec_ok_bind]
  rfl

end Shapes

/-! ## The questions -/

section Questions
variable {d t : Bytes} {p m k : ℕ} {size : ℤ} {ls : List Bytes} {msg : Message}

/-- The bytes of type and class are read one by one up to the end of the datagram. -/
theorem get16bits_short {part : Bytes} (ht : d.drop p = part) (h : part.length < 2) :
    ∃ off, get16bits d p = .error (.read off) := by
  have hget : ∀ j, d[p + j]? = part[j]? := fun j => by rw [← ht, List.getElem?_drop]
  have hsecond : deref d (p + 1) = .error (.read (p + 1)) := by
    rw [deref, hget, List.getElem?_eq_none (by omega)]
  cases hfirst : deref d p with
  | error e =>
    have hoff : deref d p = .error (.read p) := by
      rw [deref] at hfirst ⊢
      cases hd : d[p]? with
      | none => rfl
      | some c =>
        rw [hd] at hfirst
        cases hfirst
    exact ⟨p, by rw [get16bits, hoff]; rfl⟩
  | ok c => exact ⟨p + 1, by rw [get16bits, hfirst, exec_ok_bind, hsecond]; rfl⟩

/-- Type and class are read where four bytes are left behind the name. -/
theorem decodeQuestions_name (k : ℕ) (msg : Message) (h : Room size ls) {part : Bytes}
    (ht : d.drop p = wire ls ++ 0 :: part) :
    ∃ qName_buffer, qName_buffer.bytes.take ((dotted ls).length + 1) = dotted ls ++ [0] ∧
      decodeQuestions d (k + 1) msg p size =
        if size < (wire ls).length + 5 then .ok ({ msg with qName_buffer }, false)
        else get16bits d (p + (wire ls).length + 1) >>= fun qType =>
          get16bits d (p + (wire ls).length + 1 + 2) >>= fun qClass =>
            if qType = AAAA_Resource_RecordType then
              .ok ({ msg with qName_buffer, question := ⟨true, qType, qClass⟩ }, true)
            else decodeQuestions d k { msg with qName_buffer } (p + (wire ls).length + 1 + 4)
              (size - ((wire ls).length + 1)) := by
  obtain ⟨qName_buffer, hname, htext⟩ := dnsDecodeDomain_end msg.qName_buffer h (at_of_drop ht)
  refine ⟨qName_buffer, htext, ?_⟩
  have hleft :
      size - (((p + (wire ls).length + 1 : ℕ) : ℤ) - p) = size - ((wire ls).length + 1) := by
    push_cast
    ring
  have hfour : size - ((wire ls).length + 1) < 4 ↔ size < (wire ls).length + 5 := by omega
  rw [decodeQuestions, hname, exec_ok_bind]
  dsimp only
  rw [hleft, if_congr hfour rfl rfl]
  rfl

/-- A failed name fails the query. -/
theorem decodeQuestions_error {e : Fault}
    (h : dnsDecodeDomain msg.qName_buffer d p size = .error e) :
    decodeQuestions d (k + 1) msg p size = .error e := by
  rw [decodeQuestions, h]
  rfl

/-- Behind the four bytes the next question is decoded. -/
theorem decodeQuestions_next (k : ℕ) (msg : Message) (h : Room size ls)
    {hi lo a b : UInt8} {rest : Bytes} (ht : d.drop p = wire ls ++ 0 :: hi :: lo :: a :: b :: rest)
    (hsize : (wire ls).length + 5 ≤ size) : ∃ qName_buffer p',
      qName_buffer.bytes.take ((dotted ls).length + 1) = dotted ls ++ [0] ∧ d.drop p' = rest ∧
      decodeQuestions d (k + 1) msg p size =
        if be16 hi lo = AAAA_Resource_RecordType then
          .ok ({ msg with qName_buffer, question := ⟨true, be16 hi lo, be16 a b⟩ }, true)
        else decodeQuestions d k { msg with qName_buffer } p' (size - ((wire ls).length + 1)) := by
  obtain ⟨qName_buffer, htext, hstep⟩ := decodeQuestions_name k msg h ht
  have hfields : d.drop (p + (wire ls).length + 1) = [hi, lo] ++ a :: b :: rest :=
    drop_behind (show _ = [0] ++ hi :: lo :: a :: b :: rest from drop_behind ht)
  have hclass : d.drop (p + (wire ls).length + 1 + 2) = [a, b] ++ rest := drop_behind hfields
  refine ⟨qName_buffer, _, htext, drop_behind hclass, ?_⟩
  rw [hstep, if_neg (Int.not_lt.mpr hsize), get16bits_at ⟨_, hfields.symm⟩, exec_ok_bind,
    get16bits_at ⟨_, hclass.symm⟩, exec_ok_bind]
  rfl

/-- A name in the bytes left of a datagram has room in any number of bytes that is not less. -/
theorem IsName.room (h : IsName ls) {rest : Bytes} :
    Room ((wire ls ++ rest).length + 4 * m) ls := by
  refine ⟨h, ?_⟩
  rw [List.length_append]
  omega

/-- Type or class lies behind the end of the datagram. -/
theorem decodeQuestions_fields (k : ℕ) (msg : Message) (h : Room size ls) {part : Bytes}
    (ht : d.drop p = wire ls ++ 0 :: part) (hpart : part.length < 4)
    (hsize : (wire ls).length + 5 ≤ size) :
    ∃ off, decodeQuestions d (k + 1) msg p size = .error (.read off) := by
  obtain ⟨qName_buffer, -, hstep⟩ := decodeQuestions_name k msg h ht
  have hdrop : d.drop (p + (wire ls).length + 1) = part :=
    drop_behind (show _ = [0] ++ part from drop_behind ht)
  rw [hstep, if_neg (Int.not_lt.mpr hsize)]
  by_cases htwo : part.length < 2
  · obtain ⟨off, hoff⟩ := get16bits_short hdrop htwo
    exact ⟨off, by rw [hoff]; rfl⟩
  · obtain ⟨hi, lo, rest, rfl⟩ : ∃ hi lo rest, part = hi :: lo :: rest := by
      match part, htwo with
      | hi :: lo :: rest, _ => exact ⟨hi, lo, rest, rfl⟩
      | [_], h => exact absurd h (by simp)
      | [], h => exact absurd h (by simp)
    have hfirst : At d (p + (wire ls).length + 1) [hi, lo] := ⟨rest, hdrop.symm⟩
    have hrest : d.drop (p + (wire ls).length + 1 + 2) = rest :=
      drop_behind (show _ = [hi, lo] ++ rest from hdrop)
    obtain ⟨off, hoff⟩ := get16bits_short hrest (by
      rw [List.length_cons, List.length_cons] at hpart
      omega)
    exact ⟨off, by rw [get16bits_at hfirst, exec_ok_bind, hoff]; rfl⟩

/-- A cut datagram is read behind its end. -/
theorem Cut.overread (h : Cut m t) (ht : d.drop p = t) :
    ∃ off, decodeQuestions d (k + 1) msg p (t.length + 4 * m) = .error (.read off) := by
  cases h with
  | @behind ls hls =>
    have hroom : Room ((wire ls).length + 4 * m) ls := ⟨hls, by omega⟩
    exact ⟨_, decodeQuestions_error (dnsDecodeDomain_past _ hroom ht)⟩
  | @label ls c part hls hc hb hpart hover =>
    have hlen := congrArg List.length ht
    rw [List.length_drop, List.length_append, List.length_cons] at hlen
    refine ⟨_, decodeQuestions_error
      (dnsDecodeDomain_cut _ hls.room (at_of_drop ht) hc hb ?_ (by omega))⟩
    rw [List.length_append, List.length_cons]
    push_cast
    omega
  | @fields ls part hls hm hpart =>
    refine decodeQuestions_fields k msg hls.room ht hpart ?_
    rw [List.length_append, List.length_cons]
    push_cast
    omega

theorem decodeQuestions_overread (msg : Message) (h : Overruns m k t) (ht : d.drop p = t) :
    ∃ off, decodeQuestions d k msg p (t.length + 4 * m) = .error (.read off) := by
  induction h generalizing p msg with
  | cut hcut => exact hcut.overread ht
  | @next m k ls hi lo a b rest hls htype _ ih =>
    have hlen : (wire ls ++ 0 :: hi :: lo :: a :: b :: rest).length =
        (wire ls).length + 5 + rest.length := by simp; omega
    obtain ⟨qName_buffer, p', -, hdrop, hstep⟩ :=
      decodeQuestions_next k msg (hls.room (m := m)) ht (by rw [hlen]; omega)
    have hleft : ((wire ls ++ 0 :: hi :: lo :: a :: b :: rest).length + 4 * m -
        ((wire ls).length + 1) : ℤ) = rest.length + 4 * (m + 1 : ℕ) := by
      rw [hlen]
      push_cast
      ring
    rw [hstep, if_neg htype, hleft]
    exact ih _ hdrop

/-- Without such a cut the questions are decoded inside the datagram. -/
theorem decodeQuestions_inside (h : ¬ Overruns m k t) (ht : d.drop p = t) :
    ∃ r, decodeQuestions d k msg p (t.length + 4 * m) = .ok r := by
  induction k generalizing m t p msg with
  | zero => exact ⟨_, rfl⟩
  | succ k ih =>
    have hscan := scanned (show (0 : ℤ) ≤ t.length + 4 * m by omega) t
    generalize hsize : (t.length + 4 * m : ℤ) = size at hscan
    cases hscan with
    | behind hls => exact absurd (.cut (.behind hls.toIsName)) h
    | @ended ls part hls =>
      match part with
      | hi :: lo :: a :: b :: rest =>
        have hlen : (wire ls ++ 0 :: hi :: lo :: a :: b :: rest).length =
            (wire ls).length + 5 + rest.length := by simp; omega
        rw [hlen] at hsize
        obtain ⟨qName_buffer, p', -, hdrop, hstep⟩ :=
          decodeQuestions_next k msg hls ht (by omega)
        have hleft : size - ((wire ls).length + 1) = rest.length + 4 * (m + 1 : ℕ) := by
          push_cast at hsize ⊢
          omega
        rw [hstep, hleft]
        by_cases htype : be16 hi lo = AAAA_Resource_RecordType
        · exact ⟨_, if_pos htype⟩
        · rw [if_neg htype]
          exact ih (fun hrest => h (.next hls.toIsName htype hrest)) hdrop
      | [] | [_] | [_, _] | [_, _, _] =>
        -- too short, which only the first question notices
        by_cases hm : m = 0
        · obtain ⟨qName_buffer, -, hstep⟩ := decodeQuestions_name k msg hls ht
          subst hm
          rw [List.length_append] at hsize
          simp only [List.length_cons, List.length_nil] at hsize
          exact ⟨_, by rw [hstep]; exact if_pos (by omega)⟩
        · exact absurd (.cut (.fields hls.toIsName hm (by simp))) h
    | @refused ls c part hls hc hno =>
      obtain ⟨domain', hname⟩ :=
        dnsDecodeDomain_refused msg.qName_buffer hls (at_of_drop ht) hc hno
      exact ⟨_, by rw [decodeQuestions, hname]; rfl⟩
    | @label ls c part hls hc hb hsz hpart =>
      refine absurd (.cut (.label hls.toIsName hc hb hpart ?_)) h
      rw [← hsize, List.length_append, List.length_cons] at hsz
      push_cast at hsz
      omega

end Questions

/-! ## The accepted question -/

/-- The first question of type AAAA among the first `k` that stand in the memory has the labels
`ls` and the class bytes `a` and `b`. -/
inductive Asks : ℕ → Bytes → List Bytes → UInt8 → UInt8 → Prop
  | here {k : ℕ} {ls : List Bytes} {a b : UInt8} {rest : Bytes} : IsName ls →
      Asks (k + 1) (wire ls ++ 0 :: 0 :: 28 :: a :: b :: rest) ls a b
  | skip {k : ℕ} {ls ms : List Bytes} {hi lo x y a b : UInt8} {rest : Bytes} : IsName ms →
      be16 hi lo ≠ AAAA_Resource_RecordType → Asks k rest ls a b →
      Asks (k + 1) (wire ms ++ 0 :: hi :: lo :: x :: y :: rest) ls a b

section Accepted
variable {d t : Bytes} {p k : ℕ} {size : ℤ} {ls ms : List Bytes} {msg msg' : Message}
  {a b x y : UInt8}

theorem be16_eq_aaaa {hi lo : UInt8} (h : be16 hi lo = AAAA_Resource_RecordType) :
    hi = 0 ∧ lo = 28 := by
  rw [be16, Nat.shiftLeft_eq, AAAA_Resource_RecordType] at h
  have hhi : hi.toNat = 0 := by omega
  have hlo : lo.toNat = 28 := by omega
  exact ⟨UInt8.toNat_inj.mp hhi, UInt8.toNat_inj.mp hlo⟩

theorem Asks.isName (h : Asks k t ls a b) : IsName ls := by
  induction h with
  | here hls => exact hls
  | skip _ _ _ ih => exact ih

theorem Asks.unique (h : Asks k t ls a b) (h' : Asks k t ms x y) : ls = ms ∧ a = x ∧ b = y := by
  induction h with
  | @here k ls a b rest hls =>
    generalize ht : wire ls ++ 0 :: 0 :: 28 :: a :: b :: rest = t at h'
    cases h' with
    | here hms =>
      obtain ⟨rfl, hrest⟩ := wire_unique hls.labels hms.labels ht
      simp only [List.cons.injEq] at hrest
      exact ⟨rfl, hrest.2.2.1, hrest.2.2.2.1⟩
    | skip hms htype _ =>
      obtain ⟨-, hrest⟩ := wire_unique hls.labels hms.labels ht
      simp only [List.cons.injEq] at hrest
      exact absurd (by rw [← hrest.1, ← hrest.2.1]; rfl) htype
  | @skip k ls ns hi lo u v a b rest hns htype _ ih =>
    generalize ht : wire ns ++ 0 :: hi :: lo :: u :: v :: rest = t at h'
    cases h' with
    | here hms =>
      obtain ⟨-, hrest⟩ := wire_unique hns.labels hms.labels ht
      simp only [List.cons.injEq] at hrest
      exact absurd (by rw [hrest.1, hrest.2.1]; rfl) htype
    | skip hms _ hrest' =>
      obtain ⟨-, hrest⟩ := wire_unique hns.labels hms.labels ht
      simp only [List.cons.injEq] at hrest
      exact ih (hrest.2.2.2.2 ▸ hrest')

theorem Asks.append (h : Asks k t ls a b) (more : Bytes) : Asks k (t ++ more) ls a b := by
  induction h with
  | here hls =>
    rw [List.append_assoc]
    exact .here hls
  | skip hms htype _ ih =>
    rw [List.append_assoc]
    exact .skip hms htype ih

/-- The message that the decoder accepts carries the first AAAA question. A query for one question
is accepted only if the question stands in the bytes of the datagram. -/
theorem decodeQuestions_asks (hsize : 0 ≤ size)
    (h : decodeQuestions d k msg p size = .ok (msg', true)) :
    ∃ ls a b qName_buffer, Asks k (d.drop p) ls a b ∧
      qName_buffer.bytes.take ((dotted ls).length + 1) = dotted ls ++ [0] ∧
      msg' = { msg with
        qName_buffer, question := ⟨true, AAAA_Resource_RecordType, be16 a b⟩ } ∧
      (k = 1 → (wire ls).length + 5 ≤ size) := by
  induction k generalizing p msg size with
  | zero => simp [decodeQuestions] at h
  | succ k ih =>
    have hscan := scanned hsize (d.drop p)
    generalize ht : d.drop p = t at hscan ⊢
    cases hscan with
    | behind hls =>
      rw [decodeQuestions_error (dnsDecodeDomain_past _ hls ht)] at h
      cases h
    | @ended ls part hls =>
      obtain ⟨qName_buffer, htext, hstep⟩ := decodeQuestions_name k msg hls ht
      by_cases hfour : size < (wire ls).length + 5
      · rw [hstep, if_pos hfour] at h
        simp at h
      · have hfit := Int.not_lt.mp hfour
        match part with
        | hi :: lo :: a :: b :: rest =>
          obtain ⟨qName_buffer, p', htext, hdrop, hstep⟩ :=
            decodeQuestions_next k msg hls ht hfit
          rw [hstep] at h
          by_cases htype : be16 hi lo = AAAA_Resource_RecordType
          · rw [if_pos htype] at h
            obtain ⟨rfl, rfl⟩ := be16_eq_aaaa htype
            have hmsg := congrArg Prod.fst (Except.ok.inj h)
            exact ⟨ls, a, b, qName_buffer, .here hls.toIsName, htext, hmsg.symm, fun _ => hfit⟩
          · rw [if_neg htype] at h
            obtain ⟨ms, x, y, buf, hasks, hbuf, hmsg, -⟩ := ih (by omega) h
            rw [hdrop] at hasks
            refine ⟨ms, x, y, buf, .skip hls.toIsName htype hasks, hbuf, hmsg, fun hk => ?_⟩
            obtain rfl : k = 0 := by omega
            cases hasks
        | [] | [_] | [_, _] | [_, _, _] =>
          obtain ⟨off, hoff⟩ :=
            decodeQuestions_fields k msg hls ht (by simp) hfit
          rw [hoff] at h
          cases h
    | refused hls hc hno =>
      obtain ⟨domain', hname⟩ :=
        dnsDecodeDomain_refused msg.qName_buffer hls (at_of_drop ht) hc hno
      rw [decodeQuestions, hname] at h
      cases h
    | @label ls c part hls hc hb hsz hpart =>
      have hlen := congrArg List.length ht
      rw [List.length_drop, List.length_append, List.length_cons] at hlen
      rw [decodeQuestions_error
        (dnsDecodeDomain_cut _ hls (at_of_drop ht) hc hb hsz (by omega))] at h
      cases h

end Accepted

/-- A datagram of questions only whose bytes behind the header are cut at one of them. -/
def Truncated (d : Bytes) : Prop :=
  ∃ h t, d = h ++ t ∧ h.length = 12 ∧ field h 6 + field h 8 + field h 10 = 0 ∧
    Overruns 0 (field h 4) t

section Datagram
variable {d h t : Bytes} {msg : Message}

/-- The message with the fields of a header. -/
def Message.headed (msg : Message) (h : Bytes) : Message :=
  { msg with
    id := field h 0, qr := field h 2 &&& QR_MASK, opcode := field h 2 &&& OPCODE_MASK
    aa := field h 2 &&& AA_MASK, tc := field h 2 &&& TC_MASK, rd := field h 2 &&& RD_MASK
    ra := field h 2 &&& RA_MASK, rcode := field h 2 &&& RCODE_MASK
    qdCount := field h 4, anCount := field h 6, nsCount := field h 8, arCount := field h 10 }

theorem get16bits_field {p : ℕ} (hd : d = h ++ t) (hp : p + 2 ≤ h.length) :
    get16bits d p = .ok (field h p) := by
  have hget : ∀ j, j < h.length → deref d j = .ok (h.getD j 0) := fun j hj => by
    rw [deref_eq_ok, hd, List.getElem?_append_left hj, List.getD_eq_getElem?_getD,
      List.getElem?_eq_getElem hj]
    rfl
  rw [get16bits, hget p (by omega), exec_ok_bind, hget (p + 1) (by omega)]
  rfl

/-- A whole header is decoded. -/
theorem dnsDecodeQuery_header (msg : Message) (size : ℤ) (hd : d = h ++ t) (hh : h.length = 12) :
    dnsDecodeQuery msg d size =
      if size < 12 then .ok (msg, false)
      else if field h 6 + field h 8 + field h 10 ≠ 0 then .ok (msg.headed h, false)
      else decodeQuestions d (field h 4) (msg.headed h) 12 (size - 12) := by
  by_cases hshort : size < 12
  · rw [dnsDecodeQuery, dnsDecodeHeader, if_pos hshort, if_pos hshort]
    rfl
  · rw [dnsDecodeQuery, dnsDecodeHeader, if_neg hshort, if_neg hshort]
    simp only [get16bits_field hd (show 0 + 2 ≤ h.length by omega),
      get16bits_field hd (show 2 + 2 ≤ h.length by omega),
      get16bits_field hd (show 4 + 2 ≤ h.length by omega),
      get16bits_field hd (show 6 + 2 ≤ h.length by omega),
      get16bits_field hd (show 8 + 2 ≤ h.length by omega),
      get16bits_field hd (show 10 + 2 ≤ h.length by omega), exec_ok_bind, exec_pure]
    rfl

theorem dnsDecodeQuery_short (msg : Message) (hd : d.length < 12) :
    dnsDecodeQuery msg d d.length = .ok (msg, false) := by
  have hshort : (d.length : ℤ) < 12 := by omega
  rw [dnsDecodeQuery, dnsDecodeHeader, if_pos hshort]
  rfl

end Datagram

/-- The decoder of queries ends and reads no byte behind a datagram exactly if the datagram is not
cut at a question. -/
theorem dnsDecodeQuery_ok_iff (msg : Message) (d : Bytes) :
    (∃ r, dnsDecodeQuery msg d d.length = .ok r) ↔ ¬ Truncated d := by
  by_cases hlen : d.length < 12
  · refine iff_of_true ⟨_, dnsDecodeQuery_short msg hlen⟩ ?_
    rintro ⟨h, t, rfl, hh, -⟩
    rw [List.length_append] at hlen
    omega
  · obtain ⟨h, t, hd, hh⟩ : ∃ h t, d = h ++ t ∧ h.length = 12 :=
      ⟨d.take 12, d.drop 12, (List.take_append_drop 12 d).symm, by rw [List.length_take]; omega⟩
    have hdrop : d.drop 12 = t := by rw [hd, ← hh, List.drop_left]
    have hsize : (d.length - 12 : ℤ) = t.length + 4 * (0 : ℕ) := by
      rw [hd, List.length_append, hh]
      push_cast
      ring
    have hwhole : ¬ (d.length : ℤ) < 12 := by omega
    have hcut : Truncated d ↔ field h 6 + field h 8 + field h 10 = 0 ∧
        Overruns 0 (field h 4) t := by
      refine ⟨?_, fun ⟨hn, ho⟩ => ⟨h, t, hd, hh, hn, ho⟩⟩
      rintro ⟨h', t', hd', hh', hn, ho⟩
      obtain ⟨rfl, rfl⟩ := List.append_inj (hd.symm.trans hd') (hh.trans hh'.symm)
      exact ⟨hn, ho⟩
    rw [dnsDecodeQuery_header msg d.length hd hh, if_neg hwhole, hcut]
    by_cases hn : field h 6 + field h 8 + field h 10 = 0
    · rw [if_neg (not_not.mpr hn), hsize, not_and]
      constructor
      · rintro ⟨r, hr⟩ - ho
        obtain ⟨off, hoff⟩ := decodeQuestions_overread (msg.headed h) ho hdrop
        rw [hoff] at hr
        cases hr
      · intro ho
        exact decodeQuestions_inside (ho hn) hdrop
    · rw [if_pos hn]
      exact iff_of_true ⟨_, rfl⟩ fun ho => hn ho.1

/-- A header that announces a question and has none behind it. -/
def emptyQuery : Bytes := [0, 1, 0, 0, 0, 1, 0, 0, 0, 0, 0, 0]

/-- The name of the missing question is read behind the datagram. -/
theorem dnsDecodeQuery_overread : ¬ ∀ (msg : Message) (d : Bytes), d.length ≤ 1500 →
    ∃ r, dnsDecodeQuery msg d d.length = .ok r := by
  intro hall
  obtain ⟨r, hr⟩ := hall messageInit emptyQuery (by decide)
  have hread : dnsDecodeQuery messageInit emptyQuery emptyQuery.length = .error (.read 12) := by
    decide +kernel
  rw [hread] at hr
  cases hr

end Masala.Dns
