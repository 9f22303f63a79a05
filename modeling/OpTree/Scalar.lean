import OpTree.Json.Basic
import OpTree.Number.Layout
import OpTree.Text.Quoted

/-!
# Scalars

The only values of the language: null, a double, a string or a boolean. Every expression evaluates
to one of them. A number that is infinite or not a number can be written down but is not valid, and
no evaluation returns one.
-/

namespace OpTree

/-- A value of the language. -/
inductive Scalar where
  | null
  | num (value : Float)
  | str (value : String)
  | bool (value : Bool)
deriving DecidableEq, Inhabited

/-- The types of scalars. -/
inductive ScalarType where
  | null
  | number
  | string
  | boolean
deriving DecidableEq, Repr

/-- The name of a type, as the language spells it. -/
def ScalarType.name : ScalarType → String
  | null => "null"
  | number => "number"
  | string => "string"
  | boolean => "boolean"

namespace Scalar

/-- Whether the scalar is null. -/
def isNull : Scalar → Bool
  | .null => true
  | _ => false

/-- Whether the scalar may be the value of an expression: a number has to be finite. -/
def isValid : Scalar → Bool
  | .num x => x.isFinite
  | _ => true

/-- The number, of a number. -/
def num? : Scalar → Option Float
  | .num x => some x
  | _ => none

/-- The string, of a string. -/
def str? : Scalar → Option String
  | .str s => some s
  | _ => none

/-- The truth value, of a boolean. -/
def bool? : Scalar → Option Bool
  | .bool b => some b
  | _ => none

/-- The scalar's type. -/
def type : Scalar → ScalarType
  | .null => .null
  | .num _ => .number
  | .str _ => .string
  | .bool _ => .boolean

/-- The truth of a scalar: numbers are true unless they are zero and strings unless they are empty;
null is neither true nor false. -/
def truth? : Scalar → Option Bool
  | .null => none
  | .bool b => some b
  | .num x => some (!Number.isZero x)
  | .str s => some (s != "")

/-- Whether a scalar is true, null counting as false. -/
def isTrue (s : Scalar) : Bool :=
  s.truth?.getD false

/-- The number of characters that the scalar's string holds. -/
def charCount : Scalar → Nat
  | .str s => s.length
  | _ => 0

/-- Equality as the language decides it: numbers are equal by value, so that the two zeros are one
and a number that is not a number differs from itself; scalars of different types differ. -/
def equals : Scalar → Scalar → Bool
  | .null, .null => true
  | .num x, .num y => x == y
  | .str s, .str t => s == t
  | .bool b, .bool c => b == c
  | _, _ => false

/-- The scalar that a document consists of, unless it is an array or an object. -/
def ofJson? : Json → Option Scalar
  | .null => some .null
  | .bool b => some (.bool b)
  | .int n => let x := Number.ofInt n; if x.isFinite then some (.num x) else none
  | .float x => if x.isFinite then some (.num x) else none
  | .str s => some (.str s)
  | .arr _ | .obj _ => none

/-- The document of a scalar. A number is written as a whole number where that loses nothing, and
one that is not finite as null. -/
def toJson : Scalar → Json
  | .null => .null
  | .bool b => .bool b
  | .str s => .str s
  | .num x =>
    match Number.toSafeInt? x with
    | some n => .int n
    | none => if x.isFinite then .float x else .null

/-- The text of a scalar in messages. -/
def display : Scalar → String
  | .null => "null"
  | .num x => Number.Layout.message.render x
  | .str s => Text.quote s
  | .bool b => if b then "true" else "false"

end Scalar

end OpTree
