import Masala.Library.Buffer
import Mathlib.Algebra.Group.Int.Defs
import Mathlib.Data.List.Infix

/-!
# The reply of the command interface

`r_init` and `r_printf` of `masala-cmd.c`. The size of the reply grows by what
a call wanted to write, not by what it wrote, and the room that is left is
computed from it without a check.
-/
namespace Masala.Console
open Library

/-- `REPLY`. The size is a `ssize_t`. -/
structure Reply where
  data : Octets 1500
  size : ℕ

/-- The value of a signed expression as a `size_t`. -/
def toSizeT (x : ℤ) : ℕ := (x % 2 ^ 64).toNat

def rInit (r : Reply) : Exec Reply := do
  let data ← r.data.store 0 0
  return ⟨data, 0⟩

/-- `vsnprintf` to `data + size` with room for `n` bytes: the text and a NUL, cut off at `n`. It
returns the length of the whole text. -/
def vsnprintf (data : Octets 1500) (size n : ℕ) (text : Bytes) : Exec (Octets 1500 × ℕ) :=
  if n = 0 then .ok (data, text.length)
  else do
    let data ← data.copyTo size (text.take (n - 1) ++ [0])
    return (data, text.length)

/-- `r_printf`, given the text that the format and its arguments stand for. -/
def rPrintf (r : Reply) (text : Bytes) : Exec Reply := do
  let (data, written) ← vsnprintf r.data r.size (toSizeT (1500 - r.size)) text
  if written > 0 then return ⟨data, r.size + written⟩
  else
    let data ← data.store r.size 0
    return ⟨data, r.size⟩

/-- The calls that build one reply. -/
def rPrintfs (r : Reply) (texts : List Bytes) : Exec Reply := do
  let r ← rInit r
  texts.foldlM rPrintf r

/-- Every call writes inside the reply, whose size is at most 1500 after it. -/
def StaysInside (r : Reply) (texts : List Bytes) : Prop :=
  ∀ pre, pre <+: texts → ∃ r', rPrintfs r pre = .ok r' ∧ r'.size ≤ 1500

section Printf
variable {r : Reply} {text : Bytes}

theorem toSizeT_of_le {size : ℕ} (h : size ≤ 1500) : toSizeT (1500 - size) = 1500 - size := by
  rw [toSizeT]
  omega

theorem rInit_ok (r : Reply) : ∃ r', rInit r = .ok r' ∧ r'.size = 0 := by
  obtain ⟨data, hdata, -⟩ := store_of_lt (a := r.data) (c := 0) (show 0 < 1500 by omega)
  exact ⟨_, by rw [rInit, hdata]; rfl, rfl⟩

/-- Inside the reply `vsnprintf` itself keeps to its room. -/
theorem vsnprintf_ok (text : Bytes) (h : r.size ≤ 1500) : ∃ data,
    vsnprintf r.data r.size (toSizeT (1500 - r.size)) text = .ok (data, text.length) := by
  rw [toSizeT_of_le h, vsnprintf]
  by_cases hn : 1500 - r.size = 0
  · exact ⟨r.data, if_pos hn⟩
  · have hroom : r.size + (text.take (1500 - r.size - 1) ++ [0]).length ≤ 1500 := by
      rw [List.length_append, List.length_take, List.length_singleton]
      omega
    obtain ⟨data, hdata, -⟩ := copyTo_of_le (a := r.data) hroom
    exact ⟨data, by rw [if_neg hn, hdata]; rfl⟩

theorem rPrintf_text (h : r.size ≤ 1500) (hne : text ≠ []) :
    ∃ r', rPrintf r text = .ok r' ∧ r'.size = r.size + text.length := by
  obtain ⟨data, hdata⟩ := vsnprintf_ok text h
  refine ⟨⟨data, r.size + text.length⟩, ?_, rfl⟩
  rw [rPrintf, hdata, exec_ok_bind]
  exact if_pos (List.length_pos_iff.mpr hne)

/-- A call without output writes a NUL at the end of the text. -/
theorem rPrintf_nil (h : r.size ≤ 1500) :
    (r.size < 1500 ∧ ∃ r', rPrintf r [] = .ok r' ∧ r'.size = r.size) ∨
      (r.size = 1500 ∧ rPrintf r [] = .error (.write 1500)) := by
  obtain ⟨data, hdata⟩ := vsnprintf_ok [] h
  have hcall : rPrintf r [] = data.store r.size 0 >>= fun data => .ok ⟨data, r.size⟩ := by
    rw [rPrintf, hdata]
    rfl
  rw [hcall]
  by_cases hlt : r.size < 1500
  · obtain ⟨data', hdata', -⟩ := store_of_lt (a := data) (c := 0) hlt
    exact .inl ⟨hlt, ⟨data', r.size⟩, by rw [hdata', exec_ok_bind], rfl⟩
  · have hsize : r.size = 1500 := by omega
    refine .inr ⟨hsize, ?_⟩
    rw [hsize]
    rfl

/-- One call stays inside exactly if its whole text fits and it does not put a NUL behind a full
reply. -/
theorem rPrintf_inside_iff (h : r.size ≤ 1500) :
    (∃ r', rPrintf r text = .ok r' ∧ r'.size ≤ 1500) ↔
      r.size + text.length ≤ 1500 ∧ (text = [] → r.size < 1500) := by
  by_cases hne : text = []
  · subst hne
    rcases rPrintf_nil h with ⟨hlt, r', hr', hsize⟩ | ⟨hsize, herr⟩
    · exact iff_of_true ⟨r', hr', hsize.trans_le h⟩ ⟨by simpa using h, fun _ => hlt⟩
    · refine iff_of_false ?_ fun hno => (hno.2 rfl).ne hsize
      rintro ⟨r', hr', -⟩
      rw [herr] at hr'
      cases hr'
  · obtain ⟨r₁, hr₁, hsize⟩ := rPrintf_text h hne
    constructor
    · rintro ⟨r', hr', hle⟩
      obtain rfl := Except.ok.inj (hr₁.symm.trans hr')
      exact ⟨hsize ▸ hle, fun he => absurd he hne⟩
    · rintro ⟨hle, -⟩
      exact ⟨r₁, hr₁, hsize.trans_le hle⟩

theorem rPrintf_size (h : r.size ≤ 1500) {r' : Reply} (hr : rPrintf r text = .ok r') :
    r'.size = r.size + text.length := by
  by_cases hne : text = []
  · subst hne
    rcases rPrintf_nil h with ⟨-, r₁, hr₁, hsize⟩ | ⟨-, herr⟩
    · obtain rfl := Except.ok.inj (hr₁.symm.trans hr)
      exact hsize
    · rw [herr] at hr
      cases hr
  · obtain ⟨r₁, hr₁, hsize⟩ := rPrintf_text h hne
    obtain rfl := Except.ok.inj (hr₁.symm.trans hr)
    exact hsize

theorem rPrintfs_snoc (r : Reply) (texts : List Bytes) (text : Bytes) :
    rPrintfs r (texts ++ [text]) = rPrintfs r texts >>= fun r => rPrintf r text := by
  rw [rPrintfs, rPrintfs, bind_assoc]
  congr 1
  funext r
  exact foldlM_snoc rPrintf r texts text

end Printf

/-- The texts have at most 1500 bytes together, and none that is empty comes when the reply is
full. -/
def Fits (texts : List Bytes) : Prop :=
  texts.flatten.length ≤ 1500 ∧ ∀ pre post, texts = pre ++ [] :: post → pre.flatten.length < 1500

theorem fits_snoc {texts : List Bytes} {text : Bytes} : Fits (texts ++ [text]) ↔
    Fits texts ∧ texts.flatten.length + text.length ≤ 1500 ∧
      (text = [] → texts.flatten.length < 1500) := by
  have hlen : (texts ++ [text]).flatten.length = texts.flatten.length + text.length := by simp
  rw [Fits, Fits, hlen]
  constructor
  · rintro ⟨hsum, hempty⟩
    refine ⟨⟨by omega, ?_⟩, hsum, ?_⟩
    · rintro pre post rfl
      exact hempty pre (post ++ [text]) (by simp)
    · rintro rfl
      exact hempty texts [] rfl
  · rintro ⟨⟨-, hempty⟩, hsum, hlast⟩
    refine ⟨hsum, fun pre post he => ?_⟩
    rcases List.eq_nil_or_concat' post with rfl | ⟨post, t, rfl⟩
    · obtain ⟨rfl, ht⟩ := List.append_inj' he rfl
      exact hlast (List.cons.inj ht).1
    · rw [← List.cons_append, ← List.append_assoc] at he
      obtain ⟨rfl, -⟩ := List.append_inj' he rfl
      exact hempty pre post rfl

theorem Fits.prefix {pre texts : List Bytes} (h : Fits texts) (hpre : pre <+: texts) :
    Fits pre := by
  obtain ⟨post, rfl⟩ := hpre
  refine ⟨?_, ?_⟩
  · have hsum := h.1
    rw [List.flatten_append, List.length_append] at hsum
    omega
  · rintro as bs rfl
    exact h.2 as (bs ++ post) (by simp)

/-- Texts that fit are all written, and the size counts their bytes. -/
theorem rPrintfs_of_fits (r : Reply) {texts : List Bytes} (h : Fits texts) :
    ∃ r', rPrintfs r texts = .ok r' ∧ r'.size = texts.flatten.length := by
  induction texts using List.reverseRecOn with
  | nil =>
    obtain ⟨r₀, hr₀, hsize⟩ := rInit_ok r
    exact ⟨r₀, by rw [rPrintfs, hr₀]; rfl, hsize⟩
  | append_singleton texts text ih =>
    obtain ⟨hfits, hroom⟩ := fits_snoc.mp h
    obtain ⟨r₁, hr₁, hsize₁⟩ := ih hfits
    rw [← hsize₁] at hroom
    have hle : r₁.size ≤ 1500 := hsize₁.trans_le hfits.1
    obtain ⟨r', hr', -⟩ := (rPrintf_inside_iff hle).mpr hroom
    refine ⟨r', by rw [rPrintfs_snoc, hr₁, exec_ok_bind, hr'], ?_⟩
    rw [rPrintf_size hle hr', hsize₁]
    simp

/-- Any number of calls after `r_init` stays inside the reply exactly if the texts fit. -/
theorem rPrintfs_staysInside_iff (r : Reply) (texts : List Bytes) :
    StaysInside r texts ↔ Fits texts := by
  constructor
  · intro h
    induction texts using List.reverseRecOn with
    | nil => exact ⟨Nat.zero_le _, by simp⟩
    | append_singleton texts text ih =>
      have hfits := ih fun pre hpre => h pre (hpre.trans (List.prefix_append _ _))
      obtain ⟨r₁, hr₁, hsize⟩ := rPrintfs_of_fits r hfits
      obtain ⟨r', hr', hle⟩ := h _ List.prefix_rfl
      rw [rPrintfs_snoc, hr₁, exec_ok_bind] at hr'
      have hroom := (rPrintf_inside_iff (hsize.trans_le hfits.1)).mp ⟨r', hr', hle⟩
      rw [hsize] at hroom
      exact fits_snoc.mpr ⟨hfits, hroom⟩
  · intro h pre hpre
    have hfits := h.prefix hpre
    obtain ⟨r', hr', hsize⟩ := rPrintfs_of_fits r hfits
    exact ⟨r', hr', hsize.trans_le hfits.1⟩

/-- One text of 1501 bytes makes the reply larger than its data. -/
theorem rPrintfs_overflow : ¬ ∀ r texts, StaysInside r texts := by
  intro hall
  let text : Bytes := List.replicate 1501 0x20
  obtain ⟨r₀, hr₀, hsize₀⟩ := rInit_ok ⟨Octets.replicate 1500 0, 0⟩
  obtain ⟨r', hr', hle⟩ := hall ⟨Octets.replicate 1500 0, 0⟩ [text] [text] List.prefix_rfl
  have hcall : rPrintf r₀ text = .ok r' := by
    rw [← hr', ← List.nil_append [text], rPrintfs_snoc, rPrintfs, hr₀]
    rfl
  have hsize := rPrintf_size (hsize₀ ▸ Nat.zero_le 1500) hcall
  rw [hsize₀, List.length_replicate] at hsize
  omega

end Masala.Console
