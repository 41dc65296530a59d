import Mathlib

/-!
# JSON values

The document tree recipes are written in, with the total accessors the checker reads it by: indexing
anything that is not there gives `null`, and a conversion of the wrong kind gives nothing.
-/

namespace Hashdex

/-- The three representations a parsed number has. -/
inductive JsonNum where
  | posInt (n : UInt64)
  /-- A negative integer. -/
  | negInt (i : Int)
  /-- The bits of a double. -/
  | float (bits : UInt64)
  deriving DecidableEq

inductive Json where
  | null
  | bool (b : Bool)
  | num (n : JsonNum)
  | str (s : String)
  | arr (items : List Json)
  | obj (fields : List (String × Json))

namespace Json

/-- `value[key]`: the field, or `null`. -/
def index : Json → String → Json
  | obj fields, key => (fields.lookup key).getD null
  | _, _ => null

instance : GetElem Json String Json fun _ _ => True where
  getElem j key _ := j.index key

def isObject : Json → Bool
  | obj _ => true
  | _ => false

def asStr : Json → Option String
  | str s => some s
  | _ => none

def asU64 : Json → Option UInt64
  | num (.posInt n) => some n
  | _ => none

def asI64 : Json → Option Int
  | num (.posInt n) => if n.toNat < 2 ^ 63 then some n.toNat else none
  | num (.negInt i) => some i
  | _ => none

def asArray : Json → Option (List Json)
  | arr items => some items
  | _ => none

/-- `value == json!(b)`. -/
def isBool : Json → Bool → Bool
  | bool b, b' => b == b'
  | _, _ => false

/-- `value == json!(s)`. -/
def isStr : Json → String → Bool
  | str s, s' => s == s'
  | _, _ => false

/-- `json!(n)` of an unsigned number. -/
def ofU64 (n : UInt64) : Json := num (.posInt n)

@[simp] theorem obj_getElem (fields : List (String × Json)) (key : String) :
    (obj fields)[key] = (fields.lookup key).getD null := rfl

@[simp] theorem null_getElem (key : String) : null[key] = null := rfl

@[simp] theorem isObject_null : null.isObject = false := rfl

@[simp] theorem isObject_obj (fields : List (String × Json)) : (obj fields).isObject = true := rfl

@[simp] theorem asU64_ofU64 (n : UInt64) : (ofU64 n).asU64 = some n := rfl

/-- Only an object has fields. -/
theorem getElem_of_not_isObject {j : Json} (h : j.isObject = false) (key : String) :
    j[key] = null := by
  cases j with
  | obj fields => cases h
  | _ => rfl

end Json

end Hashdex
