import Masala.Bencode.Tree

/-!
# The encoder

`ben_enc` first measures the tree with `ben_enc_size`, allocates exactly that
much and lets `ben_enc_rec` write. The buffer is its capacity together with the
bytes written so far; a write past the capacity is a fault.
-/
namespace Masala.Bencode
open Library

/-- The allocated buffer behind the write cursor of `ben_enc_rec`. -/
structure WriteBuffer where
  cap : ℕ
  data : Bytes

/-- `memcpy` at the write cursor, which then moves behind the copied bytes. -/
def WriteBuffer.put (w : WriteBuffer) (bs : Bytes) : Exec WriteBuffer :=
  if w.data.length + bs.length ≤ w.cap then .ok { w with data := w.data ++ bs }
  else .error (.write w.cap)

/-- The string branch of `ben_enc_size`, also used for the keys of a dictionary. -/
def benEncSizeStr (s : Bytes) : ℕ := (decimal s.length ++ [ch ':']).length + s.length

mutual
def benEncSize : ObjBen → ℕ
  | .dict d => 2 + benEncSizeD d
  | .list l => 2 + benEncSizeL l
  | .int i => (ch 'i' :: signedDecimal i ++ [ch 'e']).length
  | .str s => benEncSizeStr s

def benEncSizeL : List ObjBen → ℕ
  | [] => 0
  | x :: xs => benEncSize x + benEncSizeL xs

def benEncSizeD : List (Bytes × ObjBen) → ℕ
  | [] => 0
  | (k, v) :: d => benEncSizeStr k + benEncSize v + benEncSizeD d
end

/-- The string branch of `ben_enc_rec`, also used for the keys of a dictionary. -/
def benEncStr (s : Bytes) (w : WriteBuffer) : Exec WriteBuffer := do
  let w ← w.put (decimal s.length ++ [ch ':'])
  w.put s

mutual
def benEncRec : ObjBen → WriteBuffer → Exec WriteBuffer
  | .dict d, w => do
    let w ← w.put [ch 'd']
    let w ← benEncRecD d w
    w.put [ch 'e']
  | .list l, w => do
    let w ← w.put [ch 'l']
    let w ← benEncRecL l w
    w.put [ch 'e']
  | .int i, w => w.put (ch 'i' :: signedDecimal i ++ [ch 'e'])
  | .str s, w => benEncStr s w

def benEncRecL : List ObjBen → WriteBuffer → Exec WriteBuffer
  | [], w => .ok w
  | x :: xs, w => do
    let w ← benEncRec x w
    benEncRecL xs w

def benEncRecD : List (Bytes × ObjBen) → WriteBuffer → Exec WriteBuffer
  | [], w => .ok w
  | (k, v) :: d, w => do
    let w ← benEncStr k w
    let w ← benEncRec v w
    benEncRecD d w
end

/-- A finished buffer: `code` with its `size`. -/
structure ObjRaw where
  code : Bytes
  size : ℕ

/-- `ben_enc`; the result `none` is the NULL of an empty or badly filled buffer. -/
def benEnc (node : ObjBen) : Exec (Option ObjRaw) :=
  let size := benEncSize node
  if size = 0 then .ok none
  else do
    let w ← benEncRec node ⟨size, []⟩
    return if w.data.length = size then some ⟨w.data, size⟩ else none

/-! ## The encoding as a byte string -/

def encodeStr (s : Bytes) : Bytes := decimal s.length ++ ch ':' :: s

mutual
/-- The bytes that stand for a tree. -/
def encode : ObjBen → Bytes
  | .dict d => ch 'd' :: (encodeD d ++ [ch 'e'])
  | .list l => ch 'l' :: (encodeL l ++ [ch 'e'])
  | .int i => ch 'i' :: (signedDecimal i ++ [ch 'e'])
  | .str s => encodeStr s

def encodeL : List ObjBen → Bytes
  | [] => []
  | x :: xs => encode x ++ encodeL xs

def encodeD : List (Bytes × ObjBen) → Bytes
  | [] => []
  | (k, v) :: d => encodeStr k ++ (encode v ++ encodeD d)
end

theorem benEncSizeStr_eq (s : Bytes) : benEncSizeStr s = (encodeStr s).length := by
  simp [benEncSizeStr, encodeStr]
  omega

mutual
/-- The measuring pass counts exactly the bytes of the encoding. -/
theorem benEncSize_eq : (t : ObjBen) → benEncSize t = (encode t).length
  | .dict d => by
    rw [benEncSize, encode, benEncSizeD_eq d]
    simp only [List.length_cons, List.length_append, List.length_nil]
    omega
  | .list l => by
    rw [benEncSize, encode, benEncSizeL_eq l]
    simp only [List.length_cons, List.length_append, List.length_nil]
    omega
  | .int i => by simp [benEncSize, encode]
  | .str s => by rw [benEncSize, encode, benEncSizeStr_eq]

theorem benEncSizeL_eq : (l : List ObjBen) → benEncSizeL l = (encodeL l).length
  | [] => by simp [benEncSizeL, encodeL]
  | x :: xs => by
    rw [benEncSizeL, encodeL, benEncSize_eq x, benEncSizeL_eq xs, List.length_append]

theorem benEncSizeD_eq : (d : List (Bytes × ObjBen)) → benEncSizeD d = (encodeD d).length
  | [] => by simp [benEncSizeD, encodeD]
  | (k, v) :: d => by
    rw [benEncSizeD, encodeD, benEncSizeStr_eq, benEncSize_eq v, benEncSizeD_eq d,
      List.length_append, List.length_append, Nat.add_assoc]
end

theorem WriteBuffer.put_fits {w : WriteBuffer} {bs : Bytes}
    (h : w.data.length + bs.length ≤ w.cap) :
    w.put bs = .ok ⟨w.cap, w.data ++ bs⟩ := by simp [WriteBuffer.put, h]

theorem benEncStr_eq (s : Bytes) (w : WriteBuffer)
    (h : w.data.length + (encodeStr s).length ≤ w.cap) :
    benEncStr s w = .ok ⟨w.cap, w.data ++ encodeStr s⟩ := by
  simp only [encodeStr, List.length_append, List.length_cons] at h
  rw [benEncStr,
    WriteBuffer.put_fits (by simp only [List.length_append, List.length_singleton]; omega),
    exec_ok_bind,
    WriteBuffer.put_fits (by simp only [List.length_append, List.length_singleton]; omega)]
  simp [encodeStr]

mutual
/-- With room for the encoding, the writer appends exactly the encoding. -/
theorem benEncRec_eq : (t : ObjBen) → (w : WriteBuffer) →
    w.data.length + (encode t).length ≤ w.cap →
    benEncRec t w = .ok ⟨w.cap, w.data ++ encode t⟩
  | .dict d, w, h => by
    simp only [encode, List.length_cons, List.length_append, List.length_nil] at h
    rw [benEncRec, WriteBuffer.put_fits (by simp only [List.length_singleton]; omega), exec_ok_bind,
      benEncRecD_eq d _ (by simp only [List.length_append, List.length_singleton]; omega),
      exec_ok_bind, WriteBuffer.put_fits (by
        simp only [List.length_append, List.length_singleton]; omega)]
    simp [encode]
  | .list l, w, h => by
    simp only [encode, List.length_cons, List.length_append, List.length_nil] at h
    rw [benEncRec, WriteBuffer.put_fits (by simp only [List.length_singleton]; omega), exec_ok_bind,
      benEncRecL_eq l _ (by simp only [List.length_append, List.length_singleton]; omega),
      exec_ok_bind, WriteBuffer.put_fits (by
        simp only [List.length_append, List.length_singleton]; omega)]
    simp [encode]
  | .int i, w, h => by
    rw [benEncRec, encode]
    exact WriteBuffer.put_fits h
  | .str s, w, h => by
    rw [benEncRec, encode]
    exact benEncStr_eq s w h

theorem benEncRecL_eq : (l : List ObjBen) → (w : WriteBuffer) →
    w.data.length + (encodeL l).length ≤ w.cap →
    benEncRecL l w = .ok ⟨w.cap, w.data ++ encodeL l⟩
  | [], w, _ => by simp [benEncRecL, encodeL]
  | x :: xs, w, h => by
    rw [encodeL, List.length_append] at h
    rw [benEncRecL, benEncRec_eq x w (by omega), exec_ok_bind,
      benEncRecL_eq xs _ (by simp only [List.length_append]; omega)]
    simp [encodeL]

theorem benEncRecD_eq : (d : List (Bytes × ObjBen)) → (w : WriteBuffer) →
    w.data.length + (encodeD d).length ≤ w.cap →
    benEncRecD d w = .ok ⟨w.cap, w.data ++ encodeD d⟩
  | [], w, _ => by simp [benEncRecD, encodeD]
  | (k, v) :: d, w, h => by
    rw [encodeD, List.length_append, List.length_append] at h
    rw [benEncRecD, benEncStr_eq k w (by omega), exec_ok_bind,
      benEncRec_eq v _ (by simp only [List.length_append]; omega), exec_ok_bind,
      benEncRecD_eq d _ (by simp only [List.length_append]; omega)]
    simp [encodeD]
end

theorem encodeStr_ne_nil (s : Bytes) : encodeStr s ≠ [] := by simp [encodeStr]

theorem encode_ne_nil (t : ObjBen) : encode t ≠ [] := by
  cases t with
  | dict d => simp [encode]
  | list l => simp [encode]
  | int i => simp [encode]
  | str s => simpa [encode] using encodeStr_ne_nil s

/-- The two passes agree: the buffer has the measured size and is filled exactly. -/
theorem benEnc_eq (t : ObjBen) : benEnc t = .ok (some ⟨encode t, benEncSize t⟩) := by
  have hpos : (encode t).length ≠ 0 := by
    simpa using encode_ne_nil t
  rw [benEnc, benEncSize_eq, if_neg hpos, benEncRec_eq t _ (by simp)]
  simp

end Masala.Bencode
