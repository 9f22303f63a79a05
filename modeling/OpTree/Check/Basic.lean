import OpTree.Check.Report
import OpTree.ScopeStack

/-!
# The static check

The check walks an expression without evaluating it. It keeps, for every enclosing scope, the names
declared there; a scope with a computed name may declare any name, so that beyond it a name can no
longer be said to be missing. The binding values of a scope are checked outside of it, then the
bodies of its lambdas and at last its own body inside of it.
-/

namespace OpTree

namespace Check

/-- What is known of the declarations of a scope. -/
structure StaticFrame where
  constants : List String
  /-- The lambdas with the numbers of their parameters. -/
  lambdas : List (String × Nat)
  /-- Whether there are declarations whose names are computed. -/
  dynamic : Bool
deriving DecidableEq, Repr

/-- The frame without declarations. -/
def StaticFrame.empty : StaticFrame := ⟨[], [], false⟩

/-- The frame of a lambda's parameters. -/
def StaticFrame.ofParams (params : List String) : StaticFrame := ⟨params, [], false⟩

/-- What a name refers to. -/
inductive Standing (β : Type) where
  | declared (value : β)
  /-- A declaration with a computed name may be meant. -/
  | undecided
  | undeclared
deriving DecidableEq, Repr

/-- Looks a name up in frames, the innermost first. -/
def standing {β : Type} (find : StaticFrame → Option β) : List StaticFrame → Standing β
  | [] => .undeclared
  | frame :: outer =>
    match find frame with
    | some value => .declared value
    | none => if frame.dynamic then .undecided else standing find outer

/-- A step of a check: it adds to the report, or fails. -/
abbrev CheckM (α β : Type) := StateT (Report α) (Except (EvalError α)) β

variable {α : Type}

/-- Adds to the report. -/
def record (change : Report α → Report α) : CheckM α Unit := modify change

/-- The name that an operand gives, if it is a literal. An operator is checked by `visit`, and its
value is a computed name. -/
def nameOf (node : α) (code : Operator) (operand : Expr α) (visit : CheckM α Unit) :
    CheckM α (Option String) :=
  match operand with
  | .lit _ (.str name) => return some name
  | .lit .. => throw (.invalidName node code)
  | .op .. => do
    visit
    record (·.warn (.dynamicName node code))
    return none

/-- Checks the reference of a lookup. -/
def checkLookup (frames : List StaticFrame) (node : α) : Option String → CheckM α Unit
  | none => return
  | some name =>
    match standing (fun frame => if name ∈ frame.constants then some () else none) frames with
    | .declared () => return
    | .undecided => record (·.warn (.unresolvedLookup node name))
    | .undeclared => throw (.uninitializedVariable node name)

/-- Checks the reference of a call with some number of arguments. What is not a lambda is a host
call, which has to be among the allowed ones if they are given. -/
def checkCall (allowed : Option (List String)) (frames : List StaticFrame) (node : α)
    (args : Nat) : Option String → CheckM α Unit
  | none => return
  | some name =>
    let permitted := allowed.all (name ∈ ·)
    match standing (fun frame => frame.lambdas.lookup name) frames with
    | .declared params =>
      if params = args then return else throw (.lambdaArity node name params args)
    | .undeclared =>
      if permitted then record (·.addCall name) else throw (.callNotAllowed node name)
    | .undecided =>
      if permitted then record (·.addCall name) else record (·.warn (.unresolvedCall node name))

/-- Declares a name for a binding value in a frame. A lambda node is not visited here. -/
def declare (node : α) (frame : StaticFrame) (name : Option String) (value : Expr α)
    (visit : CheckM α Unit) : CheckM α StaticFrame :=
  match value with
  | .op label .lambda operands => do
    record Report.countOp
    let lambda ← liftM (Lambda.declare label operands)
    match name with
    | none => return { frame with dynamic := true }
    | some name =>
      if (frame.lambdas.lookup name).isSome then
        throw (.duplicateName node name .lambda)
      else
        return { frame with lambdas := (name, lambda.params.length) :: frame.lambdas }
  | _ => do
    visit
    match name with
    | none => return { frame with dynamic := true }
    | some name =>
      if name ∈ frame.constants then
        throw (.duplicateName node name .constant)
      else
        return { frame with constants := name :: frame.constants }

variable (allowed : Option (List String))

mutual

/-- Checks an expression inside of some scopes. -/
def check (frames : List StaticFrame) : Expr α → CheckM α Unit
  | .lit .. => return
  | .op node code operands => do
    record Report.countOp
    if code.arity.accepts operands.length then
      match code with
      | .lambda => throw (.misplacedLambda node)
      | .lookup =>
        let name ← checkHeadName frames node .lookup operands
        checkLookup frames node name
      | .call =>
        let name ← checkHeadName frames node .call operands
        checkCall allowed frames node (operands.length - 1) name
        checkTail frames operands
      | .scope =>
        -- lambdas may use everything that their scope declares, also what follows them
        let frame ← checkBindings frames node .empty operands
        checkLambdas (frame :: frames) operands
        checkLast (frame :: frames) operands
      | _ => checkAll frames operands
    else
      throw (.invalidArity node code code.arity operands.length)

/-- Checks operands from left to right. -/
def checkAll (frames : List StaticFrame) : List (Expr α) → CheckM α Unit
  | [] => return
  | e :: rest => do
    check frames e
    checkAll frames rest

/-- Checks all operands but the first. -/
def checkTail (frames : List StaticFrame) : List (Expr α) → CheckM α Unit
  | [] => return
  | _ :: rest => checkAll frames rest

/-- Checks the last operand. -/
def checkLast (frames : List StaticFrame) : List (Expr α) → CheckM α Unit
  | [] => return
  | [e] => check frames e
  | _ :: e :: rest => checkLast frames (e :: rest)

/-- Checks the first operand as a name. -/
def checkHeadName (frames : List StaticFrame) (node : α) (code : Operator) :
    List (Expr α) → CheckM α (Option String)
  | [] => return none
  | e :: _ => nameOf node code e (check frames e)

/-- Checks the bindings of a scope, all operands but the last, and collects their names. -/
def checkBindings (frames : List StaticFrame) (node : α) (frame : StaticFrame) :
    List (Expr α) → CheckM α StaticFrame
  | name :: value :: rest => do
    let name ← nameOf node .scope name (check frames name)
    let frame ← declare node frame name value (check frames value)
    checkBindings frames node frame rest
  | _ => return frame

/-- Checks the bodies of the lambdas that the bindings of a scope declare. -/
def checkLambdas (frames : List StaticFrame) : List (Expr α) → CheckM α Unit
  | _ :: value :: rest => do
    checkBody frames value
    checkLambdas frames rest
  | _ => return

/-- Checks the body of a lambda; any other expression has none. -/
def checkBody (frames : List StaticFrame) : Expr α → CheckM α Unit
  | .op _ .lambda operands =>
    checkLast (.ofParams (operands.dropLast.filterMap Expr.name?) :: frames) operands
  | _ => return

end

end Check

/-- Checks an expression. If a list of allowed host calls is given, every call that does not refer
to a lambda has to be on it. -/
def Expr.check {α : Type} (e : Expr α) (allowed : Option (List String)) :
    Except (EvalError α) (Report α) := do
  let ((), report) ← (Check.check allowed [] e).run .empty
  return report

end OpTree
