import OpTree.Document.Decode
import OpTree.EvalError
import OpTree.Limits.Config

/-!
# Failures

Everything that can go wrong between a document and its value, in one type: a `Failure` has a cause
and may tell the expression that was being worked on.
-/

namespace OpTree

/-- What went wrong. -/
inductive Cause where
  | operator (error : OperatorError)
  | document (rejection : Document.Rejection)
  | evaluation (error : EvalError NodeId)
  | config (error : ConfigError)
deriving DecidableEq

namespace Cause

/-- The text of the cause. -/
def message : Cause → String
  | operator error => error.message
  | document rejection => rejection.message
  | evaluation error => error.message
  | config error => error.message

/-- The code of an unknown operator. -/
private def operatorCode : OperatorError → String
  | .unknownNumber _ => "OpError::UnknownOpId"
  | .unknownName _ => "OpError::UnknownOpName"

/-- The code of a refused document. -/
private def documentCode (rejection : Document.Rejection) : String :=
  match rejection.form, rejection.defect with
  | .tree, .unknownOperator _ => "IrError::Op"
  | .tree, _ => "IrError::InvalidNode"
  | .mixed, .unknownOperator _ => "LinearizeError::Op"
  | .mixed, _ => "LinearizeError::InvalidInput"

/-- The code of a refused configuration. -/
private def configCode : ConfigError → String
  | .invalidLimits => "ConfigError::InvalidLimits"
  | .invalidLimit _ => "ConfigError::InvalidLimit"
  | .notJson => "ConfigError::InvalidJson"
  | .invalidCallName _ => "ConfigError::InvalidCallName"

/-- The code of the cause, for diagnostics. -/
def code : Cause → String
  | operator error => operatorCode error
  | document rejection => documentCode rejection
  | evaluation error => "EvalError::" ++ error.name
  | config error => configCode error

/-- The address of the node to blame. -/
def node? : Cause → Option NodeId
  | evaluation error => error.node?
  | _ => none

/-- The kind of an evaluation error. -/
def kind? : Cause → Option ErrorKind
  | evaluation error => some error.kind
  | _ => none

/-- What can be done about it, where there is advice to give. -/
def help? : Cause → Option String
  | evaluation (.limitExceeded excess) =>
    some s!"Raise or disable the \"{excess.counter.name}\" limit, or simplify the expression"
  | evaluation (.recursion ..) => some "Lambdas cannot call themselves, directly or indirectly"
  | evaluation (.misplacedLambda _) => some "Declare lambdas as binding values of a scope"
  | _ => none

end Cause

/-- A cause with the text of the expression that was being worked on. -/
structure Failure where
  cause : Cause
  expression : Option String
deriving DecidableEq

namespace Failure

/-- A failure that concerns no expression. -/
def ofCause (cause : Cause) : Failure := ⟨cause, none⟩

/-- The failure of an expression. -/
def ofEval (error : EvalError NodeId) (e : Expr NodeId) : Failure :=
  ⟨.evaluation error, some e.display⟩

end Failure

end OpTree
