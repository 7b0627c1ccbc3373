import Mathlib.Data.BitVec

namespace TaoDag

/-- A JSON number: a `u64`, a negative integer, or the bits of a double. -/
inductive JsonNumber where
  | u64 (n : BitVec 64)
  | negative (n : Int)
  | double (bits : BitVec 64)
  deriving DecidableEq

/-- A JSON value. The keys of an object are distinct. -/
inductive Json where
  | null
  | bool (b : Bool)
  | number (n : JsonNumber)
  | string (s : String)
  | array (items : List Json)
  | object (fields : List (String × Json))

namespace Json

/-- The value under a key of an object. -/
def get (key : String) : Json → Option Json
  | object fields => fields.lookup key
  | _ => none

/-- An item of an array. -/
def item (i : Nat) : Json → Option Json
  | array items => items[i]?
  | _ => none

def asStr : Json → Option String
  | string s => some s
  | _ => none

def asU64 : Json → Option (BitVec 64)
  | number (.u64 n) => some n
  | _ => none

def asArray : Json → Option (List Json)
  | array items => some items
  | _ => none

def isNull : Json → Bool
  | null => true
  | _ => false

def u64 (n : BitVec 64) : Json := number (.u64 n)

@[simp] theorem get_cons_self (key : String) (value : Json) (fields : List (String × Json)) :
    get key (object ((key, value) :: fields)) = some value := by
  simp [get]

@[simp] theorem get_cons_of_ne {key other : String} (h : key ≠ other) (value : Json)
    (fields : List (String × Json)) :
    get key (object ((other, value) :: fields)) = get key (object fields) := by
  simp [get, List.lookup_cons, beq_false_of_ne h]

@[simp] theorem get_nil (key : String) : get key (object []) = none := rfl

@[simp] theorem item_array (i : Nat) (items : List Json) : item i (array items) = items[i]? := rfl

@[simp] theorem asStr_string (s : String) : asStr (string s) = some s := rfl

@[simp] theorem asU64_u64 (n : BitVec 64) : asU64 (u64 n) = some n := rfl

@[simp] theorem asArray_array (items : List Json) : asArray (array items) = some items := rfl

@[simp] theorem isNull_null : isNull null = true := rfl

@[simp] theorem isNull_object (fields : List (String × Json)) : isNull (object fields) = false :=
  rfl

@[simp] theorem isNull_string (s : String) : isNull (string s) = false := rfl

end Json

end TaoDag
