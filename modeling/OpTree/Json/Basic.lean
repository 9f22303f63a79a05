/-!
# JSON documents

The document type of the wire forms and of configurations. Whole numbers within 64 bits and all
other numbers are kept apart, because operator numbers and limits must be whole; a number with a
fraction or an exponent is a double even if its value is whole.
-/

namespace OpTree

/-- A JSON document. A reader delivers the fields of an object in ascending order of their names,
each name once. -/
inductive Json where
  | null
  | bool (value : Bool)
  | int (value : Int)
  | float (value : Float)
  | str (value : String)
  | arr (items : List Json)
  | obj (fields : List (String × Json))
deriving Inhabited

namespace Json

/-- The value of a field of an object. -/
def field? (name : String) : Json → Option Json
  | .obj fields => fields.lookup name
  | _ => none

/-- The value of a whole number that fits 64 bits without a sign. -/
def unsigned? : Json → Option Nat
  | .int n => if 0 ≤ n ∧ n.toNat < UInt64.size then some n.toNat else none
  | _ => none

/-- Adds a field in order, replacing the value of a field with that name. -/
def insertField (name : String) (value : Json) : List (String × Json) → List (String × Json)
  | [] => [(name, value)]
  | (key, old) :: rest =>
    if name = key then (name, value) :: rest
    else if name < key then (name, value) :: (key, old) :: rest
    else (key, old) :: insertField name value rest

/-- The object with the given fields; of two with one name the later stays. -/
def ofFields (fields : List (String × Json)) : Json :=
  .obj (fields.foldl (fun read (name, value) => insertField name value read) [])

end Json

end OpTree
