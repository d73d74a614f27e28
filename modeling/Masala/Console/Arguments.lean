import Masala.Library.Buffer
import Masala.Library.CString

/-!
# The arguments of a command

`cmd_to_args` of `masala-cmd.c` cuts a request into strings in place and stores
a pointer to each. Its callers have an `argv` of 16 pointers and pass its size
in bytes, so the test against `max_argv` comes too late. The array of
`cmd_remote_loop` need not hold a NUL.
-/
namespace Masala.Console
open Library

/-- The elements of `char *argv[16]`. -/
def ARGV_LEN : ℕ := 16

/-- `sizeof(argv)` with pointers of eight bytes. -/
def ARGV_SIZE : ℕ := ARGV_LEN * 8

/-- `str[i] <= ' '` -/
def isBlank (signed : Bool) (c : UInt8) : Bool :=
  decide (charVal signed c ≤ charVal signed 0x20)

/-- `argc` and the cells of `argv`. -/
structure Args where
  argv : ℕ → Option ℕ
  argc : ℕ

/-- `argv[*argc] = &str[i]; *argc = *argc + 1` -/
def Args.push (args : Args) (p : ℕ) : Exec Args :=
  if args.argc < ARGV_LEN then
    .ok ⟨Function.update args.argv args.argc (some p), args.argc + 1⟩
  else .error (.write args.argc)

variable {n : ℕ}

/-- Zero out white/control characters, `k` of them from `i` on. -/
def zeroLoop (signed : Bool) : ℕ → ℕ → Octets n → Exec (Octets n)
  | 0, _, str => .ok str
  | k + 1, i, str => do
    let c ← deref str.bytes i
    let str ← if isBlank signed c then str.store i 0 else pure str
    zeroLoop signed k (i + 1) str

/-- Record strings. -/
def recordLoop (str : Bytes) (len max_argv : ℕ) : ℕ → ℕ → Args → Exec Args
  | 0, _, _ => .error .fuel
  | fuel + 1, i, args => do
    if i ≤ len then
      let c ← deref str i
      if c = 0 then recordLoop str len max_argv fuel (i + 1) args
      else if args.argc ≥ max_argv then return args
      else do
        let args ← args.push i
        let size ← strlen str i
        recordLoop str len max_argv fuel (i + size + 1) args
    else return args

/-- `cmd_to_args`. Every round of its second loop moves `i` forward. -/
def cmdToArgs (signed : Bool) (str : Octets n) (max_argv : ℕ) : Exec (Octets n × Args) := do
  let len ← strlen str.bytes 0
  let str ← zeroLoop signed (len + 1) 0 str
  let args ← recordLoop str.bytes len max_argv (len + 2) 0 ⟨fun _ => none, 0⟩
  return (str, args)

/-- The maximal runs of bytes greater than `' '`. -/
def words (signed : Bool) (text : Bytes) : List Bytes :=
  (text.splitOnP (isBlank signed)).filter fun w => w ≠ []

/-- At most 16 pointers are stored, `argc` of them, and these stand for the first words of the
text, in their order. -/
def Recorded (signed : Bool) (text mem : Bytes) (args : Args) : Prop :=
  ∃ ps : List ℕ, (args.argv = fun k => ps[k]?) ∧ args.argc = ps.length ∧ ps.length ≤ 16 ∧
    ps.Pairwise (· < ·) ∧ ps.map (stringAt mem) = (words signed text).take ps.length

/-! ## Words -/

section Words
variable {signed : Bool} {w t : Bytes} {c : UInt8}

theorem blank_zero (signed : Bool) : isBlank signed 0 = true := by cases signed <;> rfl

theorem words_nil : words signed [] = [] := by
  rw [words, List.splitOnP_nil]
  rfl

theorem words_blank (hc : isBlank signed c = true) : words signed (c :: t) = words signed t := by
  rw [words, words, List.splitOnP_cons_eq_if_modifyHead, if_pos hc]
  rfl

/-- A run up to the end of the text. -/
theorem words_run (hne : w ≠ []) (hw : ∀ c ∈ w, isBlank signed c = false) :
    words signed w = [w] := by
  rw [words, List.splitOnP_eq_singleton hw]
  simp [hne]

/-- A run up to a blank. -/
theorem words_run_blank (hne : w ≠ []) (hw : ∀ c ∈ w, isBlank signed c = false)
    (hc : isBlank signed c = true) : words signed (w ++ c :: t) = w :: words signed t := by
  rw [words, words, List.splitOnP_append_cons_of_forall_mem hw c hc]
  simp [hne]

end Words

/-! ## The loops -/

section Loops
variable {signed : Bool} {str : Octets n}

/-- What the first loop leaves of a byte. -/
def cleared (signed : Bool) (c : UInt8) : UInt8 := if isBlank signed c then 0 else c

theorem zeroLoop_eq (signed : Bool) (mid pre post : Bytes)
    (h : str.bytes = pre ++ mid ++ post) :
    ∃ str', zeroLoop signed mid.length pre.length str = .ok str' ∧
      str'.bytes = pre ++ mid.map (cleared signed) ++ post := by
  induction mid generalizing pre str with
  | nil => exact ⟨str, rfl, h⟩
  | cons c mid ih =>
    rw [List.append_assoc, List.cons_append] at h
    have hat : At str.bytes pre.length [c] := ⟨mid ++ post, by rw [h, List.drop_left]; rfl⟩
    rw [List.length_cons, zeroLoop, hat.deref, exec_ok_bind]
    by_cases hc : isBlank signed c = true
    · obtain ⟨str₁, hstore, hbytes⟩ := store_at 0 h
      have hrest : str₁.bytes = (pre ++ [0]) ++ mid ++ post := by simp [hbytes]
      obtain ⟨str', hloop, hbytes'⟩ := ih (pre ++ [0]) hrest
      rw [List.length_append, List.length_singleton] at hloop
      refine ⟨str', by rw [if_pos hc, hstore, exec_ok_bind]; exact hloop, ?_⟩
      rw [hbytes', List.map_cons, cleared, if_pos hc]
      simp
    · have hrest : str.bytes = (pre ++ [c]) ++ mid ++ post := by simp [h]
      obtain ⟨str', hloop, hbytes'⟩ := ih (pre ++ [c]) hrest
      rw [List.length_append, List.length_singleton] at hloop
      refine ⟨str', by rw [if_neg hc, exec_pure, exec_ok_bind]; exact hloop, ?_⟩
      rw [hbytes', List.map_cons, cleared, if_neg hc]
      simp

/-- The arguments after the pointers `ps` have been stored. -/
def argsOf (ps : List ℕ) : Args := ⟨fun k => ps[k]?, ps.length⟩

theorem push_of_lt {ps : List ℕ} (p : ℕ) (h : ps.length < 16) :
    (argsOf ps).push p = .ok (argsOf (ps ++ [p])) := by
  have hroom : (argsOf ps).argc < ARGV_LEN := h
  rw [Args.push, if_pos hroom, argsOf, argsOf, List.length_append, List.length_singleton]
  congr 2
  funext k
  change Function.update (fun k => ps[k]?) ps.length (some p) k = (ps ++ [p])[k]?
  by_cases hk : k = ps.length
  · subst hk
    simp
  · rw [Function.update_of_ne hk, List.getElem?_append]
    split
    · rfl
    · rw [List.getElem?_eq_none (by omega), List.getElem?_eq_none (by simp; omega)]

theorem push_of_full {ps : List ℕ} (p : ℕ) (h : ps.length = 16) :
    (argsOf ps).push p = .error (.write 16) := by
  have hfull : ¬ (argsOf ps).argc < ARGV_LEN := by simp [argsOf, ARGV_LEN, h]
  rw [Args.push, if_neg hfull, argsOf, h]

theorem cleared_blank {c : UInt8} (h : isBlank signed c = true) : cleared signed c = 0 := if_pos h

theorem cleared_other {c : UInt8} (h : isBlank signed c = false) : cleared signed c = c := by
  rw [cleared, h]
  rfl

theorem map_cleared {w : Bytes} (hw : ∀ c ∈ w, isBlank signed c = false) :
    w.map (cleared signed) = w := by
  rw [List.map_congr_left fun c hc => cleared_other (hw c hc), List.map_id']

theorem ne_zero_of_not_blank {c : UInt8} (h : isBlank signed c = false) : c ≠ 0 := by
  rintro rfl
  rw [blank_zero] at h
  cases h

/-- A text that does not begin with a blank begins with a run. -/
theorem exists_run (c : UInt8) (t : Bytes) (hc : isBlank signed c = false) :
    ∃ w, w ≠ [] ∧ (∀ d ∈ w, isBlank signed d = false) ∧ (c :: t = w ∨
      ∃ b t', isBlank signed b = true ∧ c :: t = w ++ b :: t') := by
  induction t generalizing c with
  | nil => exact ⟨[c], by simp, by simpa using hc, .inl rfl⟩
  | cons d t ih =>
    by_cases hd : isBlank signed d = true
    · exact ⟨[c], by simp, by simpa using hc, .inr ⟨d, t, hd, rfl⟩⟩
    · obtain ⟨w, hne, hw, hsplit⟩ := ih d (by simpa using hd)
      refine ⟨c :: w, by simp, by simpa using ⟨hc, hw⟩, ?_⟩
      rcases hsplit with hall | ⟨b, t', hb, hsplit⟩
      · exact .inl (congrArg (c :: ·) hall)
      · exact .inr ⟨b, t', hb, congrArg (c :: ·) hsplit⟩

end Loops

/-! ## The second loop -/

section Record
variable {signed : Bool} {text rest mem pre suf w : Bytes} {len fuel i : ℕ} {ps : List ℕ}

theorem drop_cleared (hmem : mem = text.map (cleared signed) ++ 0 :: rest)
    (htext : text = pre ++ suf) :
    mem.drop pre.length = suf.map (cleared signed) ++ 0 :: rest := by
  rw [hmem, htext, List.map_append, List.append_assoc, List.drop_left' (List.length_map _)]

/-- Of a run the memory keeps the bytes, with a zero in place of the blank behind it. -/
theorem run_at (hdrop : mem.drop i = suf.map (cleared signed) ++ 0 :: rest)
    (hw : ∀ d ∈ w, isBlank signed d = false)
    (hsplit : suf = w ∨ ∃ b t', isBlank signed b = true ∧ suf = w ++ b :: t') :
    At mem i (w ++ [0]) := by
  rw [At, hdrop]
  rcases hsplit with rfl | ⟨b, t', hb, rfl⟩
  · rw [map_cleared hw]
    exact ⟨rest, by simp⟩
  · rw [List.map_append, map_cleared hw, List.map_cons, cleared_blank hb]
    exact ⟨t'.map (cleared signed) ++ 0 :: rest, by simp⟩

theorem recordLoop_done {args : Args} (h : len < i) :
    recordLoop mem len ARGV_SIZE (fuel + 1) i args = .ok args := by
  rw [recordLoop, if_neg (Nat.not_le.mpr h), exec_pure]

theorem recordLoop_skip {args : Args} (h : i ≤ len) (hat : At mem i [0]) :
    recordLoop mem len ARGV_SIZE (fuel + 1) i args =
      recordLoop mem len ARGV_SIZE fuel (i + 1) args := by
  rw [recordLoop, if_pos h, hat.deref, exec_ok_bind, if_pos rfl]

/-- The pointer to a run is stored, if there is room, and the run is jumped over. -/
theorem recordLoop_store (h : i ≤ len) (hps : ps.length ≤ 16) (hat : At mem i (w ++ [0]))
    (hne : w ≠ []) (hw : ∀ c ∈ w, isBlank signed c = false) :
    recordLoop mem len ARGV_SIZE (fuel + 1) i (argsOf ps) =
      if ps.length < 16 then
        recordLoop mem len ARGV_SIZE fuel (i + w.length + 1) (argsOf (ps ++ [i]))
      else .error (.write 16) := by
  obtain ⟨c, w, rfl⟩ := List.exists_cons_of_ne_nil hne
  have hzero : (0 : UInt8) ∉ c :: w := fun hmem => ne_zero_of_not_blank (hw 0 hmem) rfl
  have hc : c ≠ 0 := ne_zero_of_not_blank (hw c List.mem_cons_self)
  have hmax : ¬ (argsOf ps).argc ≥ ARGV_SIZE := by
    simp only [argsOf, ARGV_SIZE, ARGV_LEN]
    omega
  rw [recordLoop, if_pos h, hat.deref, exec_ok_bind, if_neg hc, if_neg hmax]
  by_cases hlt : ps.length < 16
  · rw [push_of_lt i hlt, exec_ok_bind, strlen_at hat hzero, exec_ok_bind, if_pos hlt]
  · rw [push_of_full i (Nat.le_antisymm hps (Nat.not_lt.mp hlt)), exec_error_bind, if_neg hlt]

/-- From `i` on the loop stores pointers to the words `ws` behind the pointers `ps`, or it runs out
of room for them. -/
def Records (mem : Bytes) (i : ℕ) (ps : List ℕ) (ws : List Bytes) (r : Exec Args) : Prop :=
  (ps.length + ws.length ≤ 16 ∧ ∃ qs, r = .ok (argsOf (ps ++ qs)) ∧
    qs.map (stringAt mem) = ws ∧ qs.Pairwise (· < ·) ∧ ∀ q ∈ qs, i ≤ q) ∨
  (16 < ps.length + ws.length ∧ r = .error (.write 16))

section Records
variable {ws : List Bytes} {r : Exec Args} {j : ℕ}

theorem Records.nil (hps : ps.length ≤ 16) : Records mem i ps [] (.ok (argsOf ps)) :=
  .inl ⟨hps, [], by rw [List.append_nil], rfl, .nil, by simp⟩

theorem Records.full (hps : 16 ≤ ps.length) (hws : 0 < ws.length) :
    Records mem i ps ws (.error (.write 16)) := .inr ⟨by omega, rfl⟩

theorem Records.before (h : Records mem j ps ws r) (hij : i ≤ j) : Records mem i ps ws r := by
  refine h.imp_left (And.imp_right ?_)
  rintro ⟨qs, hr, hstrings, hsorted, hge⟩
  exact ⟨qs, hr, hstrings, hsorted, fun q hq => Nat.le_trans hij (hge q hq)⟩

theorem Records.cons (h : Records mem j (ps ++ [i]) ws r) (hij : i < j)
    (hword : stringAt mem i = w) : Records mem i ps (w :: ws) r := by
  rw [Records, List.length_append, List.length_singleton] at h
  rw [Records, List.length_cons, Nat.add_comm ws.length, ← Nat.add_assoc]
  refine h.imp_left (And.imp_right ?_)
  rintro ⟨qs, hr, hstrings, hsorted, hge⟩
  have hgt : ∀ q ∈ qs, i < q := fun q hq => Nat.lt_of_lt_of_le hij (hge q hq)
  refine ⟨i :: qs, ?_, ?_, List.pairwise_cons.mpr ⟨hgt, hsorted⟩,
    List.forall_mem_cons.mpr ⟨Nat.le_refl _, fun q hq => Nat.le_of_lt (hgt q hq)⟩⟩
  · rw [hr, List.append_assoc, List.singleton_append]
  · rw [List.map_cons, hword, hstrings]

end Records

/-- The loop stands behind `pre` and has stored `ps`. It stores the words that are left, as far as
there is room for them. -/
theorem recordLoop_eq (hmem : mem = text.map (cleared signed) ++ 0 :: rest) (fuel : ℕ)
    (pre suf : Bytes) (ps : List ℕ) (htext : text = pre ++ suf)
    (hfuel : suf.length + 2 ≤ fuel) (hps : ps.length ≤ 16) :
    Records mem pre.length ps (words signed suf)
      (recordLoop mem text.length ARGV_SIZE fuel pre.length (argsOf ps)) := by
  induction fuel generalizing pre suf ps with
  | zero => omega
  | succ fuel ih =>
    obtain ⟨k, rfl⟩ : ∃ k, fuel = k + 1 := Nat.exists_eq_add_one_of_ne_zero (by omega)
    have hdrop := drop_cleared hmem htext
    have hle : pre.length ≤ text.length := by simp [htext]
    cases suf with
    | nil =>
      have hat : At mem pre.length [0] := ⟨rest, by rw [hdrop]; rfl⟩
      rw [recordLoop_skip hle hat, recordLoop_done (by simp [htext]), words_nil]
      exact .nil hps
    | cons c t =>
      by_cases hc : isBlank signed c = true
      · have hat : At mem pre.length [0] :=
          ⟨t.map (cleared signed) ++ 0 :: rest, by rw [hdrop, List.map_cons, cleared_blank hc]; rfl⟩
        have hnext := ih (pre ++ [c]) t ps (by simp [htext]) (Nat.le_of_succ_le_succ hfuel) hps
        rw [List.length_append, List.length_singleton] at hnext
        rw [recordLoop_skip hle hat, words_blank hc]
        exact hnext.before (Nat.le_succ _)
      · rw [Bool.not_eq_true] at hc
        obtain ⟨w, hne, hw, hsplit⟩ := exists_run c t hc
        have hat : At mem pre.length (w ++ [0]) := run_at hdrop hw hsplit
        have hword : stringAt mem pre.length = w :=
          stringAt_at hat fun hmem => ne_zero_of_not_blank (hw 0 hmem) rfl
        have hbehind : pre.length < pre.length + w.length + 1 := by omega
        rw [recordLoop_store hle hps hat hne hw]
        rcases hsplit with hall | ⟨b, t', hb, hsplit⟩
        · -- The run is the last one, and the loop ends behind it.
          rw [hall, words_run hne hw]
          by_cases hlt : ps.length < 16
          · have hend : text.length < pre.length + w.length + 1 := by
              rw [htext, hall, List.length_append]
              omega
            rw [if_pos hlt, recordLoop_done hend]
            exact (Records.nil (by rw [List.length_append]; exact hlt)).cons hbehind hword
          · rw [if_neg hlt]
            exact .full (Nat.not_lt.mp hlt) Nat.one_pos
        · rw [hsplit, words_run_blank hne hw hb]
          by_cases hlt : ps.length < 16
          · have hlen : (pre ++ w ++ [b]).length = pre.length + w.length + 1 := by simp; omega
            have hshort : t'.length + 2 ≤ k + 1 := by
              rw [hsplit, List.length_append, List.length_cons] at hfuel
              omega
            have hnext := ih (pre ++ w ++ [b]) t' (ps ++ [pre.length]) (by simp [htext, hsplit])
              hshort (by rw [List.length_append, List.length_singleton]; exact hlt)
            rw [hlen] at hnext
            rw [if_pos hlt]
            exact hnext.cons hbehind hword
          · rw [if_neg hlt]
            exact .full (Nat.not_lt.mp hlt) (Nat.succ_pos _)

end Record

/-- A string is cut into its words, as far as there is room for them. -/
theorem cmdToArgs_string {text : Bytes} {str : Octets n} (htext : 0 ∉ text)
    (hstr : At str.bytes 0 (text ++ [0])) :
    (∃ str' args, cmdToArgs signed str ARGV_SIZE = .ok (str', args) ∧
        Recorded signed text str'.bytes args) ↔ (words signed text).length ≤ 16 := by
  obtain ⟨rest, hrest⟩ := hstr
  rw [List.drop_zero] at hrest
  obtain ⟨str', hzero, hbytes⟩ := zeroLoop_eq signed (text ++ [0]) [] rest
    (by rw [← hrest, List.nil_append])
  have hmem : str'.bytes = text.map (cleared signed) ++ 0 :: rest := by
    rw [hbytes, List.map_append, List.map_singleton, cleared_blank (blank_zero signed)]
    simp
  rw [List.length_append, List.length_singleton, List.length_nil] at hzero
  have hrun : cmdToArgs signed str ARGV_SIZE =
      recordLoop str'.bytes text.length ARGV_SIZE (text.length + 2) 0 (argsOf []) >>=
        fun args => .ok (str', args) := by
    rw [cmdToArgs, strlen_at ⟨rest, hrest⟩ htext, exec_ok_bind, hzero, exec_ok_bind]
    rfl
  have hloop := recordLoop_eq hmem (text.length + 2) [] text [] rfl (Nat.le_refl _) (Nat.zero_le _)
  rw [Records, List.length_nil, List.length_nil, Nat.zero_add] at hloop
  rw [hrun]
  rcases hloop with ⟨hle, qs, hloop, hstrings, hsorted, -⟩ | ⟨hgt, hloop⟩
  · refine iff_of_true ⟨str', argsOf qs, by rw [hloop]; rfl, qs, rfl, rfl, ?_, hsorted, ?_⟩ hle
    · rwa [← List.length_map (stringAt str'.bytes), hstrings]
    · rw [hstrings, ← List.length_map (stringAt str'.bytes), hstrings, List.take_length]
  · refine iff_of_false ?_ (Nat.not_le.mpr hgt)
    rintro ⟨str₁, args, hok, -⟩
    rw [hloop] at hok
    cases hok

/-- A request is cut into its words exactly if it ends inside the array, which `recvfrom` does not
see to, and has at most 16 of them. -/
theorem cmdToArgs_recorded_iff (signed : Bool) (str : Octets n) :
    (∃ str' args, cmdToArgs signed str ARGV_SIZE = .ok (str', args) ∧
        Recorded signed (stringAt str.bytes 0) str'.bytes args) ↔
      0 ∈ str.bytes ∧ (words signed (stringAt str.bytes 0)).length ≤ 16 := by
  by_cases hzero : 0 ∈ str.bytes
  · obtain ⟨text, htext, hat⟩ := exists_string (p := 0) hzero
    rw [stringAt_at hat htext, cmdToArgs_string htext hat]
    exact (and_iff_right hzero).symm
  · refine iff_of_false ?_ fun h => hzero h.1
    rintro ⟨str', args, hok, -⟩
    rw [cmdToArgs, strlen_missing (p := 0) hzero] at hok
    cases hok

/-- A line of the console, with what is behind it in the buffer. -/
def request (text : Bytes) (h : text.length < 512) : Octets 512 :=
  ⟨text ++ 0 :: List.replicate (511 - text.length) 0, by simp; omega⟩

/-- The line `ping x`. -/
example : (cmdToArgs true (request [0x70, 0x69, 0x6e, 0x67, 0x20, 0x78, 0x0a] (by decide))
    ARGV_SIZE).map (fun x => (x.2.argc, x.2.argv 0, x.2.argv 1)) = .ok (2, some 0, some 5) := by
  decide +kernel

/-- A request that fills the array of `cmd_remote_loop` is not terminated. -/
example : (cmdToArgs true (.replicate 1500 0x61) ARGV_SIZE).map (fun x => x.2.argc) =
    .error (.read 1500) := by decide +kernel

/-- Seventeen words overflow `argv`. -/
theorem cmdToArgs_overflow : ¬ ∀ (signed : Bool) (text rest : Bytes), 0 ∉ text →
    ∀ str : Octets 512, str.bytes = text ++ 0 :: rest →
      ∃ str' args, cmdToArgs signed str ARGV_SIZE = .ok (str', args) ∧
        Recorded signed text str'.bytes args := by
  intro hall
  let text : Bytes := (List.replicate 17 [0x61, 0x20]).flatten
  obtain ⟨str', args, hok, -⟩ := hall true text _ (by decide) (request text (by decide)) rfl
  have hover : (cmdToArgs true (request text (by decide)) ARGV_SIZE).map (fun x => x.2.argc) =
      .error (.write 16) := by
    decide +kernel
  rw [hok] at hover
  cases hover

end Masala.Console
