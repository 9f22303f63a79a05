import OpTree.Expr.Basic
import OpTree.Graph.Basic
import OpTree.Host.Call
import OpTree.Limits.Duration
import OpTree.Limits.Usage

/-!
# Evaluation errors

Why an expression has no value. An error names the node to blame by its label, if there is one to
blame; `EvalError.map` relabels it. The same errors are reported by the static check.
-/

namespace OpTree

/-- Constants and lambdas have names of their own. -/
inductive Namespace where
  | constant
  | lambda
deriving DecidableEq, Repr

/-- The name of a namespace in messages. -/
def Namespace.name : Namespace → String
  | constant => "constant"
  | lambda => "lambda"

/-- What sort of fault an error is. -/
inductive ErrorKind where
  /-- The expression is malformed. -/
  | structural
  /-- A well-formed node has no value. -/
  | semantic
  /-- A counter or a time budget is used up. -/
  | resource
  | call
  | uninitialized
deriving DecidableEq, Repr

/-- The name of a kind. -/
def ErrorKind.name : ErrorKind → String
  | structural => "Structural"
  | semantic => "Semantic"
  | resource => "Resource"
  | call => "Call"
  | uninitialized => "Uninitialized"

/-- Why an expression has no value, its nodes being labelled from `α`. -/
inductive EvalError (α : Type) where
  | invalidArity (node : α) (code : Operator) (expected : Arity) (got : Nat)
  | invalidName (node : α) (code : Operator)
  | duplicateName (node : α) (name : String) (space : Namespace)
  | misplacedLambda (node : α)
  | invalidOperand (node : α) (code : Operator) (found : ScalarType)
  | zeroDivision (node : α)
  | overflow (node : α)
  | limitExceeded (excess : Usage.Excess)
  | timeout (budget : Nat)
  | callTimeout (node : α) (name : String) (budget : Nat)
  | undefinedCall (node : α) (name : String)
  | callNotAllowed (node : α) (name : String)
  | callFailed (node : α) (name : String) (cause : CallError)
  | invalidCallReturn (node : α) (name : String)
  | lambdaArity (node : α) (name : String) (expected got : Nat)
  | recursion (node : α) (name : String)
  | uninitializedVariable (node : α) (name : String)
  /-- The evaluation has no end: it waits for a call that never answers and no budget cuts it off,
  or it is nested more deeply than it was allowed to be. -/
  | unfinished
deriving DecidableEq, Repr

namespace EvalError

variable {α β : Type}

/-- The label of the node to blame. -/
def node? : EvalError α → Option α
  | invalidArity node .. | invalidName node _ | duplicateName node .. | misplacedLambda node
  | invalidOperand node .. | zeroDivision node | overflow node | callTimeout node ..
  | undefinedCall node _ | callNotAllowed node _ | callFailed node .. | invalidCallReturn node _
  | lambdaArity node .. | recursion node _ | uninitializedVariable node _ => some node
  | limitExceeded _ | timeout _ | unfinished => none

/-- The kind of the error. -/
def kind : EvalError α → ErrorKind
  | invalidArity .. | invalidName .. | duplicateName .. | misplacedLambda _ => .structural
  | invalidOperand .. | zeroDivision _ | overflow _ => .semantic
  | limitExceeded _ | timeout _ | callTimeout .. | unfinished => .resource
  | undefinedCall .. | callNotAllowed .. | callFailed .. | invalidCallReturn .. | lambdaArity ..
  | recursion .. => .call
  | uninitializedVariable .. => .uninitialized

/-- Relabels the node to blame. -/
def map (f : α → β) : EvalError α → EvalError β
  | invalidArity node code expected got => invalidArity (f node) code expected got
  | invalidName node code => invalidName (f node) code
  | duplicateName node name space => duplicateName (f node) name space
  | misplacedLambda node => misplacedLambda (f node)
  | invalidOperand node code found => invalidOperand (f node) code found
  | zeroDivision node => zeroDivision (f node)
  | overflow node => overflow (f node)
  | limitExceeded excess => limitExceeded excess
  | timeout budget => timeout budget
  | callTimeout node name budget => callTimeout (f node) name budget
  | undefinedCall node name => undefinedCall (f node) name
  | callNotAllowed node name => callNotAllowed (f node) name
  | callFailed node name cause => callFailed (f node) name cause
  | invalidCallReturn node name => invalidCallReturn (f node) name
  | lambdaArity node name expected got => lambdaArity (f node) name expected got
  | recursion node name => recursion (f node) name
  | uninitializedVariable node name => uninitializedVariable (f node) name
  | unfinished => unfinished

/-- The name of the error. -/
def name : EvalError α → String
  | invalidArity .. => "InvalidArity"
  | invalidName .. => "InvalidName"
  | duplicateName .. => "DuplicateName"
  | misplacedLambda .. => "MisplacedLambda"
  | invalidOperand .. => "InvalidOperand"
  | zeroDivision .. => "ZeroDivision"
  | overflow .. => "Overflow"
  | limitExceeded .. => "LimitExceeded"
  | timeout .. => "Timeout"
  | callTimeout .. => "CallTimeout"
  | undefinedCall .. => "UndefinedCall"
  | callNotAllowed .. => "CallNotAllowed"
  | callFailed .. => "CallFailed"
  | invalidCallReturn .. => "InvalidCallReturn"
  | lambdaArity .. => "LambdaArity"
  | recursion .. => "Recursion"
  | uninitializedVariable .. => "UninitializedVariable"
  | unfinished => "Unfinished"

/-- The text of the error. -/
def message : EvalError NodeId → String
  | invalidArity node code expected got =>
    s!"Invalid number of operands for \"{code.name}\" at {node.display}, " ++
      s!"expected {expected.display}, got {got}"
  | invalidName node code => s!"Invalid name in \"{code.name}\" at {node.display} (string required)"
  | duplicateName node name space =>
    s!"Duplicate {space.name} name \"{name}\" in scope at {node.display}"
  | misplacedLambda node =>
    s!"Lambda at {node.display} can only be declared as a scope binding value"
  | invalidOperand node code found =>
    s!"Invalid operand for \"{code.name}\" at {node.display}, got {found.name}"
  | zeroDivision node => s!"Divided by 0 at {node.display}"
  | overflow node => s!"Expression overflow at {node.display}"
  | limitExceeded excess =>
    s!"Expression evaluation limit exceeded ({excess.counter.name}: " ++
      s!"{excess.value} > {excess.bound})"
  | timeout budget => s!"Expression evaluation timed out ({displayDuration budget})"
  | callTimeout node name budget =>
    s!"Call \"{name}\" at {node.display} timed out ({displayDuration budget})"
  | undefinedCall node name => s!"Undefined expression call \"{name}\" at {node.display}"
  | callNotAllowed node name => s!"Call \"{name}\" at {node.display} is not allowed"
  | callFailed node name cause => s!"Call \"{name}\" at {node.display} failed: {cause.message}"
  | invalidCallReturn node name =>
    s!"Invalid return value from call \"{name}\" at {node.display}"
  | lambdaArity node name expected got =>
    s!"Invalid number of arguments for lambda \"{name}\" at {node.display}, " ++
      s!"expected {expected}, got {got}"
  | recursion node name => s!"Recursive call to lambda \"{name}\" at {node.display}"
  | uninitializedVariable node name => s!"Uninitialized variable \"{name}\" at {node.display}"
  | unfinished => "Expression evaluation does not end"

end EvalError

end OpTree
