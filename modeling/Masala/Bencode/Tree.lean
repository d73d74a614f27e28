import Masala.Library.Decimal

/-!
# Bencode trees

The node of `ben.h` with the checks of its constructors. A string node holds
its bytes, so its size is the length, and a tuple of a dictionary has a string
key because `ben_dict` refuses any other. Limits are those of a 64-bit build.
-/
namespace Masala.Bencode
open Library

def BEN_STR_MAXLEN : ℕ := 10
def BEN_STR_MAXSIZE : ℕ := 33554432
def BEN_INT_MAXLEN : ℕ := 19
def BEN_INT_MAXSIZE : ℕ := 9223372036854775807

inductive ObjBen
  | str (s : Bytes)
  | int (i : ℤ)
  | list (l : List ObjBen)
  | dict (d : List (Bytes × ObjBen))

/-- `ben_str` copies `len` bytes from a cursor; an empty string ends the process. -/
def benStr (code : Bytes) (p : ℕ) (len : ℤ) : Exec ObjBen :=
  if len ≤ 0 then .error (.fatal "ben_str( 4)")
  else do
    let s ← copyFrom code p len.toNat
    return .str s

/-- `ben_list` appends a value; `none` is the NULL pointer. -/
def benList (node : ObjBen) (val : Option ObjBen) : Exec ObjBen :=
  match node with
  | .list l =>
    match val with
    | none => .error (.fatal "ben_list( 4)")
    | some v => .ok (.list (l ++ [v]))
  | _ => .error (.fatal "ben_list( 2)")

/-- `ben_dict` appends a tuple without looking for an equal key. -/
def benDict (node : ObjBen) (key val : Option ObjBen) : Exec ObjBen :=
  match node with
  | .dict d =>
    match key with
    | none => .error (.fatal "ben_dict( 4)")
    | some (.str k) =>
      match val with
      | none => .error (.fatal "ben_dict( 6)")
      | some v => .ok (.dict (d ++ [(k, v)]))
    | some _ => .error (.fatal "ben_dict( 5)")
  | _ => .error (.fatal "ben_dict( 2)")

@[simp] theorem benList_list (l : List ObjBen) (v : ObjBen) :
    benList (.list l) (some v) = .ok (.list (l ++ [v])) := rfl

@[simp] theorem benDict_dict (d : List (Bytes × ObjBen)) (k : Bytes) (v : ObjBen) :
    benDict (.dict d) (some (.str k)) (some v) = .ok (.dict (d ++ [(k, v)])) := rfl

def benIsDict : Option ObjBen → Bool
  | some (.dict _) => true
  | _ => false

/-- The walk of `ben_searchDictKey`: the first tuple whose key has the same size and bytes. -/
def searchTuple (key : Bytes) : List (Bytes × ObjBen) → Option ObjBen
  | [] => none
  | (thiskey, val) :: d => if thiskey = key then some val else searchTuple key d

def benSearchDictKey (node : Option ObjBen) (key : Bytes) : Option ObjBen :=
  match node with
  | some (.dict d) => searchTuple key d
  | _ => none

/-- `ben_searchDictStr` for the one-letter keys of the protocol. -/
def benSearchDictStr (node : ObjBen) (c : Char) : Option ObjBen :=
  benSearchDictKey (some node) [ch c]

end Masala.Bencode
