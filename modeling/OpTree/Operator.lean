/-!
# Operators

The operators of the language with their names, the numbers that stand for them in array documents,
and the operand counts they accept.
-/

namespace OpTree

/-- An operator. -/
inductive Operator where
  | expression | add | sub | mul | div | mod | not | or | and | eq | ne | lt | le | ge | gt
  | condition | call | lookup | scope | coalesce | isNull | typeOf | lambda
deriving DecidableEq, Repr, Inhabited

/-- The operand counts that an operator accepts. -/
inductive Arity where
  | exactly (count : Nat)
  | atLeast (count : Nat)
  /-- Pairs and one more operand. -/
  | odd
  | any
deriving DecidableEq, Repr

namespace Arity

/-- Whether a number of operands is accepted. -/
def accepts : Arity → Nat → Bool
  | exactly n, count => count == n
  | atLeast n, count => n ≤ count
  | odd, count => count % 2 == 1
  | any, _ => true

/-- The arity in messages. -/
def display : Arity → String
  | exactly n => s!"exactly {n}"
  | atLeast n => s!"at least {n}"
  | odd => "an odd number of"
  | any => "any number of"

end Arity

/-- A number or a name that belongs to no operator. -/
inductive OperatorError where
  | unknownNumber (number : Nat)
  | unknownName (name : String)
deriving DecidableEq, Repr

/-- The text of the error. -/
def OperatorError.message : OperatorError → String
  | unknownNumber number => s!"Unknown op number #{number}"
  | unknownName name => s!"Unknown op name \"{name}\""

namespace Operator

/-- Every operator, in the order of their numbers. -/
def all : List Operator :=
  [expression, add, sub, mul, div, mod, not, or, and, eq, ne, lt, le, ge, gt, condition, call,
    lookup, scope, coalesce, isNull, typeOf, lambda]

/-- The number that stands for the operator in array documents. -/
def number : Operator → Nat
  | expression => 0
  | add => 1
  | sub => 2
  | mul => 3
  | div => 4
  | mod => 5
  | not => 6
  | or => 7
  | and => 8
  | eq => 9
  | ne => 10
  | lt => 11
  | le => 12
  | ge => 13
  | gt => 14
  | condition => 15
  | call => 16
  | lookup => 17
  | scope => 18
  | coalesce => 19
  | isNull => 20
  | typeOf => 21
  | lambda => 22

/-- The name of the operator. -/
def name : Operator → String
  | expression => "expression"
  | add => "add"
  | sub => "sub"
  | mul => "mul"
  | div => "div"
  | mod => "mod"
  | not => "not"
  | or => "or"
  | and => "and"
  | eq => "eq"
  | ne => "ne"
  | lt => "lt"
  | le => "le"
  | ge => "ge"
  | gt => "gt"
  | condition => "condition"
  | call => "call"
  | lookup => "lookup"
  | scope => "scope"
  | coalesce => "coalesce"
  | isNull => "isnull"
  | typeOf => "typeof"
  | lambda => "lambda"

/-- The operator with a number. -/
def ofNumber (number : Nat) : Except OperatorError Operator :=
  match all.find? fun op => op.number = number with
  | some op => .ok op
  | none => .error (.unknownNumber number)

/-- The operator with a name. -/
def ofName (name : String) : Except OperatorError Operator :=
  match all.find? fun op => op.name = name with
  | some op => .ok op
  | none => .error (.unknownName name)

/-- The operand counts that the operator accepts. -/
def arity : Operator → Arity
  | expression | not | lookup | isNull | typeOf => .exactly 1
  | div | mod | eq | ne | lt | le | ge | gt => .exactly 2
  | add | mul | or | and | call | lambda => .atLeast 1
  | sub => .atLeast 2
  | condition | scope => .odd
  | coalesce => .any

theorem mem_all (op : Operator) : op ∈ all := by
  cases op <;> decide

/-- Reading an operator's number gives the operator back. -/
theorem ofNumber_number (op : Operator) : ofNumber op.number = .ok op := by
  cases op <;> rfl

/-- Reading an operator's name gives the operator back. -/
theorem ofName_name (op : Operator) : ofName op.name = .ok op := by
  cases op <;> rfl

end Operator

end OpTree
