import OpTree.Check.Basic
import OpTree.Document.Decode
import OpTree.Eval.Basic
import OpTree.Failure
import OpTree.Fold

/-!
# The engine

An engine evaluates expressions against one configuration: limits, a default call table, and the
options that say whether expressions are checked and folded before they are evaluated.
-/

namespace OpTree

/-- What an engine does with an expression before it evaluates it. -/
structure EngineOptions where
  check : Bool
  optimize : Bool
  /-- The host calls that a checked expression may make, if they are restricted. -/
  allowedCalls : Option (List String)
deriving DecidableEq, Repr

/-- Expressions are checked, against no list, and not folded. -/
def EngineOptions.default : EngineOptions := ⟨true, false, none⟩

/-- A configuration for evaluating expressions. -/
structure Engine where
  limits : Limits
  calls : CallTable
  options : EngineOptions

/-- What comes of evaluating a graph: the outcome, and the host calls made, in order. -/
structure EngineRun where
  outcome : Except Failure Evaluation
  calls : List Invocation

namespace Engine

/-- An engine with the default options. -/
def new (limits : Limits) (calls : CallTable) : Engine := ⟨limits, calls, .default⟩

/-- The engine of an environment, which has no host calls. -/
def ofVariable (text : Option String) : Except ConfigError Engine := do
  return new (← Limits.ofVariable text) .empty

/-- The version of the language that engines evaluate. -/
def version : String := "0.3.0"

/-- Checks a graph with the engine's list of allowed calls. -/
def check (engine : Engine) (g : Graph) : Except Failure (Report NodeId) :=
  (g.tree.check engine.options.allowedCalls).mapError (Failure.ofEval · g.tree)

/-- Checks and folds a graph, as far as the options ask for it. -/
def prepare (engine : Engine) (g : Graph) : Except Failure Graph := do
  if engine.options.check then
    let _ ← engine.check g
  if engine.options.optimize then
    g.tree.optimize.mapError (Failure.ofEval · g.tree)
  else
    return g

/-- Prepares a graph and evaluates it. An error of the evaluation shows the prepared expression. -/
def run (engine : Engine) (g : Graph) (overrides : Option CallTable) (lookups : Lookups)
    (executor : Executor) : EngineRun :=
  match engine.prepare g with
  | .error failure => ⟨.error failure, []⟩
  | .ok prepared =>
    let setting : Setting := ⟨engine.limits, ⟨engine.calls, overrides, lookups⟩, executor⟩
    let run := prepared.run setting
    ⟨run.outcome.mapError (Failure.ofEval · prepared.tree), run.calls⟩

/-- Decodes a document in tree or array form and evaluates it. -/
def runJson (engine : Engine) (doc : Json) (lookups : Lookups) (executor : Executor) :
    EngineRun :=
  match Document.Form.mixed.decode doc with
  | .error rejection => ⟨.error (.ofCause (.document rejection)), []⟩
  | .ok e => engine.run (.ofExpr e) none lookups executor

end Engine

end OpTree
