import Mathlib

/-!
# JSON values

A parsed value and its readers, each `none` on a value of another shape. An object keeps its fields in order;
`get` finds the first of a name, on a value that is no object it finds nothing.
-/

/-- A number as a reader keeps it: an unsigned or a negative integer, or the bits of a double. -/
inductive JsonNumber where
  | posInt (n : Nat)
  | negInt (n : Int)
  | float (bits : BitVec 64)
deriving DecidableEq, Repr

inductive Json where
  | null
  | bool (b : Bool)
  | num (n : JsonNumber)
  | str (s : String)
  | arr (items : List Json)
  | obj (fields : List (String × Json))

namespace Json

def get (key : String) : Json → Option Json
  | obj fields => (fields.find? fun f => f.1 = key).map Prod.snd
  | _ => none

def asStr : Json → Option String
  | str s => some s
  | _ => none

def asArray : Json → Option (List Json)
  | arr items => some items
  | _ => none

def asObject : Json → Option (List (String × Json))
  | obj fields => some fields
  | _ => none

def asBool : Json → Option Bool
  | bool b => some b
  | _ => none

def asNumber : Json → Option JsonNumber
  | num n => some n
  | _ => none

/-- An integer of 64 bits with a sign. -/
def asI64 : Json → Option Int
  | num (.posInt n) => if n < 2 ^ 63 then some n else none
  | num (.negInt n) => some n
  | _ => none

def asU64 : Json → Option Nat
  | num (.posInt n) => some n
  | _ => none

/-- The text of the field `key`. -/
def strField (key : String) (v : Json) : Option String := (v.get key).bind asStr

mutual

/-- The equality of values: two objects are equal when they have as many fields and each of the one is in the other. -/
def same : Json → Json → Bool
  | null, null => true
  | bool a, bool b => a = b
  | num a, num b => a = b
  | str a, str b => a = b
  | arr as, arr bs => sameItems as bs
  | obj fs, obj gs => fs.length = gs.length && sameFields fs gs
  | _, _ => false

def sameItems : List Json → List Json → Bool
  | [], [] => true
  | a :: as, b :: bs => same a b && sameItems as bs
  | _, _ => false

def sameFields : List (String × Json) → List (String × Json) → Bool
  | [], _ => true
  | (key, v) :: fs, gs =>
    (match (obj gs).get key with
      | some w => same v w
      | none => false) && sameFields fs gs

end

/-- A field is found under its name when no name stands twice. -/
theorem get_of_mem {fields : List (String × Json)} {key : String} {v : Json} (h : (fields.map Prod.fst).Nodup)
    (hmem : (key, v) ∈ fields) : (obj fields).get key = some v := by
  have hfind : fields.find? (fun f => f.1 = key) = some (key, v) := by
    cases hf : fields.find? fun f => f.1 = key with
    | none => simpa using List.find?_eq_none.1 hf _ hmem
    | some f =>
      have hkey : f.1 = key := by simpa using List.find?_some hf
      rw [List.inj_on_of_nodup_map h (List.mem_of_find?_eq_some hf) hmem hkey]
  rw [get, hfind]
  rfl

end Json
