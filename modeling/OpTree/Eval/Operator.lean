import OpTree.Eval.Monad

/-!
# The operators

What each operator does with its operands. The operands are expressions, and `visit` stands for
their evaluation: an operator visits the operands that it needs, from left to right, and no other.
Null is an answer of most operators as soon as one of their operands is null.
-/

namespace OpTree.Eval

open EvalM

variable {α : Type}

/-! ### Limits and names -/

/-- Fails if a counter is above its bound. -/
def checkLimits : EvalM α Unit := do
  match (← state).usage.exceeded? (← setting).limits with
  | some excess => fail (.limitExceeded excess)
  | none => return

/-- Fails if the time for the whole evaluation is used up. -/
def checkTime : EvalM α Unit := do
  match (← setting).limits.bound .evaluationTime with
  | some budget => if budget ≤ (← state).clock then fail (.timeout budget)
  | none => return

/-- Counts a node, which may be one too many or too late. -/
def tick (node : α) : EvalM α Unit := do
  note (.visit node)
  modifyUsage Usage.countOp
  checkTime
  checkLimits

/-- Counts a variable. -/
def countVar : EvalM α Unit := do
  modifyUsage Usage.countVar
  checkLimits

/-- Counts a scalar that appears, if it is a string. -/
def countString (value : Scalar) : EvalM α Unit :=
  match value with
  | .str s => do
    modifyUsage (Usage.countString · s.length)
    checkLimits
  | _ => return

section

variable (visit : Expr α → EvalM α Scalar) (node : α) (code : Operator)

/-- The name that an operand gives. A string literal is taken as it is, without being visited; any
other operand has to have a string as its value. -/
def nameOf (operand : Expr α) : EvalM α String :=
  match operand.name? with
  | some name => return name
  | none => do
    match ← visit operand with
    | .str name => return name
    | _ => fail (.invalidName node code)

/-! ### Arithmetic, logic and choice -/

/-- The number that an operand gives, or null. -/
def numberOf (operand : Expr α) : EvalM α (Option Float) := do
  match ← visit operand with
  | .null => return none
  | .num x => return some x
  | other => fail (.invalidOperand node code other.type)

/-- A number, if it is finite. -/
def finite (x : Float) : EvalM α Scalar :=
  if x.isFinite then return .num x else fail (.overflow node)

/-- Combines numbers from left to right; `total` is what has been combined so far. No intermediate
result may be infinite. -/
def accumulate (combine : Float → Float → Float) : Option Float → List (Expr α) → EvalM α Scalar
  | total, [] => return total.elim .null .num
  | total, operand :: rest => do
    match ← numberOf visit node code operand with
    | none => return .null
    | some x =>
      let total := total.elim x (combine · x)
      if total.isFinite then accumulate combine (some total) rest else fail (.overflow node)

/-- Applies a function to the numbers that two operands give. -/
def withNumbers (left right : Expr α) (f : Float → Float → EvalM α Scalar) : EvalM α Scalar := do
  match ← numberOf visit node code left with
  | none => return .null
  | some x =>
    match ← numberOf visit node code right with
    | none => return .null
    | some y => f x y

/-- Divides, unless by zero. -/
def divide (quotient : Float → Float → Float) (x y : Float) : EvalM α Scalar :=
  if Number.isZero y then fail (.zeroDivision node) else finite node (quotient x y)

/-- Combines the truth of all operands from left to right. -/
def connect (combine : Bool → Bool → Bool) : Bool → List (Expr α) → EvalM α Scalar
  | result, [] => return .bool result
  | result, operand :: rest => do
    match (← visit operand).truth? with
    | none => return .null
    | some b => connect combine (combine result b) rest

/-- Compares two operands for equality. -/
def compareEqual (left right : Expr α) (expected : Bool) : EvalM α Scalar := do
  let x ← visit left
  if x.isNull then
    return .null
  else
    let y ← visit right
    if y.isNull then return .null else return .bool (x.equals y == expected)

/-- The value that belongs to the first true guard; the last operand, without a guard, is the
default. -/
def choose : List (Expr α) → EvalM α Scalar
  | [] => return .null
  | [default] => visit default
  | guard :: value :: rest => do
    if (← visit guard).isTrue then visit value else choose rest

/-- The first operand that is not null. -/
def firstNonNull : List (Expr α) → EvalM α Scalar
  | [] => return .null
  | operand :: rest => do
    let value ← visit operand
    if value.isNull then firstNonNull rest else return value

/-- The value of a visible constant. -/
def lookUp (operand : Expr α) : EvalM α Scalar := do
  let name ← nameOf visit node .lookup operand
  match (← state).scopes.constant? name with
  | some value =>
    countString value
    return value
  | none => fail (.uninitializedVariable node name)

/-! ### Scopes -/

/-- Evaluates something inside one more scope. -/
def inScope (frame : Frame α) (body : EvalM α Scalar) : EvalM α Scalar := do
  modifyUsage Usage.openScope
  modifyScopes (·.push frame)
  body.andFinally fun state =>
    { state with scopes := state.scopes.pop, usage := state.usage.closeScope }

/-- Declares a name in a frame: as a lambda if the bound value is a lambda node, else as a constant
with the value of the expression. -/
def declare (frame : Frame α) (name : String) (value : Expr α) : EvalM α (Frame α) := do
  match value with
  | .op label .lambda operands =>
    let lambda ← ofExcept (Lambda.declare label operands)
    match frame.bindLambda? name lambda with
    | some frame => return frame
    | none => fail (.duplicateName node name .lambda)
  | value =>
    let value ← visit value
    match frame.bindConstant? name value with
    | some frame => return frame
    | none => fail (.duplicateName node name .constant)

/-- Declares pairs of a name and a bound value, outside of the new scope, and evaluates the last
operand inside of it. -/
def evalScope : Frame α → List (Expr α) → EvalM α Scalar
  | _, [] => return .null
  | frame, [body] => inScope frame (visit body)
  | frame, name :: value :: rest => do
    let name ← nameOf visit node .scope name
    countVar
    let frame ← declare visit node frame name value
    evalScope frame rest

/-! ### Calls -/

/-- The values of arguments. -/
def arguments : List (Expr α) → EvalM α (List Scalar)
  | [] => return []
  | arg :: rest => do
    let value ← visit arg
    let values ← arguments rest
    return value :: values

/-- The frame of a lambda's parameters, each a constant with the value of its argument. -/
def bindParams : Frame α → List String → List (Expr α) → EvalM α (Frame α)
  | frame, param :: params, arg :: args => do
    let value ← visit arg
    countVar
    match frame.bindConstant? param value with
    | some frame => bindParams frame params args
    | none => fail (.duplicateName node param .constant)
  | frame, _, _ => return frame

/-- Calls a lambda that is declared in the visible frame at some depth. The arguments are evaluated
where the call stands and the body where the lambda is declared. A lambda cannot be called again
before it is done. -/
def callLambda (name : String) (depth : Nat) (lambda : Lambda α) (args : List (Expr α)) :
    EvalM α Scalar := do
  if lambda.params.length ≠ args.length then
    fail (.lambdaArity node name lambda.params.length args.length)
  else if lambda.busy then
    fail (.recursion node name)
  else
    -- the arguments may call any lambda but this one
    note (.enter node lambda.label)
    modifyScopes (·.mark depth name true)
    let run : EvalM α Scalar := do
      let frame ← bindParams visit node .empty lambda.params args
      modifyScopes (·.narrow depth)
      (inScope frame (visit lambda.body)).andFinally fun state =>
        { state with scopes := state.scopes.widen }
    run.andFinally fun state =>
      { state with scopes := state.scopes.mark depth name false }.note .leave

end

/-- The time that a host call may take, and what it means to take longer. -/
structure Allowance (α : Type) where
  milliseconds : Nat
  expired : EvalError α

/-- The time for a host call that starts now: its own budget, or what is left of the budget for the
whole evaluation if that is less. Without budgets there is no bound. -/
def allowance? (limits : Limits) (clock : Nat) (node : α) (name : String) :
    Option (Allowance α) :=
  match limits.bound .callTime, limits.bound .evaluationTime with
  | none, none => none
  | some own, none => some ⟨own, .callTimeout node name own⟩
  | none, some total => some ⟨total - clock, .timeout total⟩
  | some own, some total =>
    if total - clock < own then some ⟨total - clock, .timeout total⟩
    else some ⟨own, .callTimeout node name own⟩

/-- Lets some milliseconds pass. -/
def pass (milliseconds : Nat) : EvalM α Unit :=
  modify fun state => { state with clock := state.clock + milliseconds }

/-- Waits for a reply. A call that answers is never cut off, because it does not let the timer run
while it works; without a timer its answer comes too late if it took as long as it was allowed. -/
def await (node : α) (name : String) (reply : Reply) : EvalM α Scalar := do
  let setting ← setting
  let allowance := allowance? setting.limits (← state).clock node name
  match reply with
  | .answer delay result =>
    pass delay
    match result, setting.executor, allowance with
    | .error cause, _, _ => fail (.callFailed node name cause)
    | .ok value, .untimed, some allowance =>
      if delay < allowance.milliseconds then return value else fail allowance.expired
    | .ok value, _, _ => return value
  | .never =>
    match setting.executor, allowance with
    | .timed, some allowance =>
      pass allowance.milliseconds
      fail allowance.expired
    | _, _ => fail .unfinished

/-- Invokes a host call and waits for its value, which has to be valid. -/
def invoke (node : α) (name : String) (call : HostCall) (args : List Scalar) :
    EvalM α Scalar := do
  let history := (← state).history
  modify fun state => { state with history := ⟨name, args⟩ :: history }
  let value ← await node name (call.reply (← setting).host.lookups history args)
  if value.isValid then
    countString value
    return value
  else
    fail (.invalidCallReturn node name)

section

variable (visit : Expr α → EvalM α Scalar) (node : α)

/-- Calls the innermost visible lambda of a name, or the host call of that name if there is no such
lambda. -/
def evalCall (operand : Expr α) (args : List (Expr α)) : EvalM α Scalar := do
  let name ← nameOf visit node .call operand
  match (← state).scopes.lambda? name with
  | some (depth, lambda) => callLambda visit node name depth lambda args
  | none =>
    note (.external node name)
    match (← setting).host.find? name with
    -- a call that does not exist is blamed before any argument is visited
    | some call => invoke node name call (← arguments visit args)
    | none => fail (.undefinedCall node name)

/-- Applies an operator to operands of an accepted number. -/
def apply : Operator → List (Expr α) → EvalM α Scalar
  | .expression, [operand] => visit operand
  | .add, operands => accumulate visit node .add (· + ·) none operands
  | .sub, operands => accumulate visit node .sub (· - ·) none operands
  | .mul, operands => accumulate visit node .mul (· * ·) none operands
  | .div, [left, right] => withNumbers visit node .div left right (divide node (· / ·))
  | .mod, [left, right] => withNumbers visit node .mod left right (divide node Number.remainder)
  | .not, [operand] => do return ((← visit operand).truth?).elim .null fun b => .bool !b
  | .or, operands => connect visit (· || ·) false operands
  | .and, operands => connect visit (· && ·) true operands
  | .eq, [left, right] => compareEqual visit left right true
  | .ne, [left, right] => compareEqual visit left right false
  | .lt, [left, right] =>
    withNumbers visit node .lt left right fun x y => return .bool (decide (x < y))
  | .le, [left, right] =>
    withNumbers visit node .le left right fun x y => return .bool (decide (x ≤ y))
  | .ge, [left, right] =>
    withNumbers visit node .ge left right fun x y => return .bool (decide (y ≤ x))
  | .gt, [left, right] =>
    withNumbers visit node .gt left right fun x y => return .bool (decide (y < x))
  | .condition, operands => choose visit operands
  | .call, operand :: args => evalCall visit node operand args
  | .lookup, [operand] => lookUp visit node operand
  | .scope, operands => evalScope visit node .empty operands
  | .coalesce, operands => firstNonNull visit operands
  | .isNull, [operand] => do return .bool (← visit operand).isNull
  | .typeOf, [operand] => do return .str (← visit operand).type.name
  | .lambda, _ => fail (.misplacedLambda node)
  | code, operands => fail (.invalidArity node code code.arity operands.length)

end

end OpTree.Eval
