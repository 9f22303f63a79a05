import OpTree.Eval.Basic

/-!
# Lexical scoping

A reference semantics without a stack of scopes. An expression is evaluated in an *environment*, the
scopes that enclose it with the innermost first; an environment is never changed. The bindings of a
scope are evaluated in the enclosing environment. A lambda is a closure over the environment that
ends with the scope that declares it: a call evaluates its arguments where the call stands, and the
body in the environment of the closure with one more scope for the parameters.

Every entry into a scope declares its lambdas anew. The entries are told apart by the number of
scopes that have been counted before, so that a closure has an `Instance` of its own, and no two
calls of one instance are in progress at once. The instances in progress are handed down like the
environment.

All else an evaluation does is taken from `Eval`: nodes, variables and strings are counted, host
calls made and events noted in a state whose scopes are neither read nor changed.
-/

namespace OpTree.Lexical

open Eval EvalM

variable {α : Type}

/-! ### Environments -/

/-- A scope that has been entered: what it declares, and which entry it is. -/
structure Scope (α : Type) where
  number : Nat
  frame : Frame α

/-- The scopes that enclose an expression, the innermost first. -/
abbrev Env (α : Type) := List (Scope α)

/-- A lambda of one entry into a scope. -/
structure Instance where
  scope : Nat
  name : String
deriving DecidableEq

/-- A lambda with the environment that its body is evaluated in, the parameters apart. -/
structure Closure (α : Type) where
  id : Instance
  lambda : Lambda α
  env : Env α

/-- The value of a constant: the innermost declaration of the name counts. -/
def constant? (env : Env α) (name : String) : Option Scalar :=
  env.findSome? fun scope => scope.frame.constants.find? name

/-- The closure of a name: the innermost declaration of the name counts, and what is inside of its
scope is not part of the closure. -/
def closure? (name : String) : Env α → Option (Closure α)
  | [] => none
  | scope :: outer =>
    match scope.frame.lambdas.find? name with
    | some lambda => some ⟨⟨scope.number, name⟩, lambda, scope :: outer⟩
    | none => closure? name outer

/-! ### Evaluation -/

/-- Evaluates something in one more scope. -/
def inScope (frame : Frame α) (body : Scope α → EvalM α Scalar) : EvalM α Scalar := do
  let number := (← state).usage.stats.scopeCount
  modifyUsage Usage.openScope
  (body ⟨number, frame⟩).andFinally fun state =>
    { state with usage := state.usage.closeScope }

section

variable (visit : Env α → List Instance → Expr α → EvalM α Scalar) (env : Env α)
  (active : List Instance) (node : α)

/-- The value of a constant of the environment. -/
def lookUp (operand : Expr α) : EvalM α Scalar := do
  let name ← nameOf (visit env active) node .lookup operand
  match constant? env name with
  | some value =>
    countString value
    return value
  | none => fail (.uninitializedVariable node name)

/-- Declares pairs of a name and a bound value, evaluated in the enclosing environment, and
evaluates the last operand in the environment with one more scope. -/
def evalScope : Frame α → List (Expr α) → EvalM α Scalar
  | _, [] => return .null
  | frame, [body] => inScope frame fun scope => visit (scope :: env) active body
  | frame, name :: value :: rest => do
    let name ← nameOf (visit env active) node .scope name
    countVar
    let frame ← declare (visit env active) node frame name value
    evalScope frame rest

/-- Calls a closure that is not in progress. Until the call is over it is, the evaluation of the
arguments included. -/
def callClosure (name : String) (closure : Closure α) (args : List (Expr α)) :
    EvalM α Scalar := do
  if closure.lambda.params.length ≠ args.length then
    fail (.lambdaArity node name closure.lambda.params.length args.length)
  else if closure.id ∈ active then
    fail (.recursion node name)
  else
    note (.enter node closure.lambda.label)
    let run : EvalM α Scalar := do
      let frame ← bindParams (visit env (closure.id :: active)) node .empty
        closure.lambda.params args
      inScope frame fun scope =>
        visit (scope :: closure.env) (closure.id :: active) closure.lambda.body
    run.andFinally (·.note .leave)

/-- Calls the closure of a name, or the host call of that name if there is no such closure. -/
def evalCall (operand : Expr α) (args : List (Expr α)) : EvalM α Scalar := do
  let name ← nameOf (visit env active) node .call operand
  match closure? name env with
  | some closure => callClosure visit env active node name closure args
  | none =>
    note (.external node name)
    match (← setting).host.find? name with
    | some call => invoke node name call (← arguments (visit env active) args)
    | none => fail (.undefinedCall node name)

/-- Applies an operator to operands of an accepted number. -/
def apply : Operator → List (Expr α) → EvalM α Scalar
  | .call, operand :: args => evalCall visit env active node operand args
  | .lookup, [operand] => lookUp visit env active node operand
  | .scope, operands => evalScope visit env active node .empty operands
  | code, operands => Eval.apply (visit env active) node code operands

end

/-- Evaluates an expression in an environment, some instances being in progress, in at most `depth`
nested steps. -/
def eval : Nat → Env α → List Instance → Expr α → EvalM α Scalar
  | 0, _, _, _ => fail .unfinished
  | depth + 1, env, active, e => do
    tick e.label
    match e with
    | .lit node value =>
      if value.isValid then
        countString value
        return value
      else
        fail (.overflow node)
    | .op node code operands =>
      if code.arity.accepts operands.length then
        apply (eval depth) env active node code operands
      else
        fail (.invalidArity node code code.arity operands.length)

/-- Runs an expression. -/
def run (setting : Setting) (e : Expr α) : Run α :=
  let (result, state) := eval e.extent.nesting [] [] e setting .start
  { outcome := result.map fun value => ⟨value, state.usage.stats⟩
    calls := state.history.reverse
    trace := state.trace.reverse }

end OpTree.Lexical
