import OpTree.EvalError
import OpTree.NameMap

/-!
# Scopes

A frame holds the constants and the lambdas that one scope declares. The scope stack holds the
frames of the scopes being evaluated. While the body of a lambda is evaluated only the frame that
declares the lambda and those outside of it are visible, below the frame of its parameters; the
frames inside of it are hidden until the body is done.

A lambda is marked busy from the start of a call until its end, the arguments included.
-/

namespace OpTree

variable {α : Type}

/-- A declared lambda. -/
structure Lambda (α : Type) where
  /-- The label of the lambda node. -/
  label : α
  params : List String
  body : Expr α
  /-- Whether a call of the lambda is in progress. -/
  busy : Bool

namespace Lambda

/-- The names of parameters, which have to be string literals, each different from the ones `seen`
before it. -/
def paramNames (node : α) : List String → List (Expr α) → Except (EvalError α) (List String)
  | _, [] => .ok []
  | seen, param :: rest =>
    match param.name? with
    | none => .error (.invalidName node .lambda)
    | some name =>
      if name ∈ seen then
        .error (.duplicateName node name .constant)
      else do
        let names ← paramNames node (name :: seen) rest
        return name :: names

/-- The lambda that a lambda node with these operands declares: the last one is the body, the
others are the parameters. -/
def declare (node : α) (operands : List (Expr α)) : Except (EvalError α) (Lambda α) :=
  match operands.getLast? with
  | none => .error (.invalidArity node .lambda Operator.lambda.arity 0)
  | some body => do
    let params ← paramNames node [] operands.dropLast
    return ⟨node, params, body, false⟩

end Lambda

/-- The declarations of one scope. -/
structure Frame (α : Type) where
  constants : NameMap Scalar
  lambdas : NameMap (Lambda α)

namespace Frame

/-- The frame without declarations. -/
def empty : Frame α := ⟨.empty, .empty⟩

/-- Declares a constant, unless the frame has one of that name. -/
def bindConstant? (frame : Frame α) (name : String) (value : Scalar) : Option (Frame α) :=
  if frame.constants.contains name then none
  else some { frame with constants := frame.constants.insert name value }

/-- Declares a lambda, unless the frame has one of that name. -/
def bindLambda? (frame : Frame α) (name : String) (lambda : Lambda α) : Option (Frame α) :=
  if frame.lambdas.contains name then none
  else some { frame with lambdas := frame.lambdas.insert name lambda }

end Frame

/-- The frames of the scopes being evaluated. -/
structure ScopeStack (α : Type) where
  /-- The visible frames, the innermost first. -/
  visible : List (Frame α)
  /-- What each lambda body being evaluated has hidden, the innermost body first. -/
  hidden : List (List (Frame α))

namespace ScopeStack

/-- No scope is being evaluated. -/
def empty : ScopeStack α := ⟨[], []⟩

/-- Puts a frame on top. -/
def push (stack : ScopeStack α) (frame : Frame α) : ScopeStack α :=
  { stack with visible := frame :: stack.visible }

/-- Takes the top frame away. -/
def pop (stack : ScopeStack α) : ScopeStack α :=
  { stack with visible := stack.visible.tail }

/-- The value of a constant: the innermost visible declaration of the name counts. -/
def constant? (stack : ScopeStack α) (name : String) : Option Scalar :=
  stack.visible.findSome? fun frame => frame.constants.find? name

/-- The innermost lambda of a name among frames, with the number of frames from its own outward. -/
def lambdaIn? (name : String) : List (Frame α) → Option (Nat × Lambda α)
  | [] => none
  | frame :: outer =>
    match frame.lambdas.find? name with
    | some lambda => some (outer.length + 1, lambda)
    | none => lambdaIn? name outer

/-- The innermost visible lambda of a name, with the number of frames from its own outward. -/
def lambda? (stack : ScopeStack α) (name : String) : Option (Nat × Lambda α) :=
  lambdaIn? name stack.visible

/-- Marks the lambda of a name in the frame at some depth as busy, or as free again. -/
def mark (stack : ScopeStack α) (depth : Nat) (name : String) (busy : Bool) : ScopeStack α :=
  { stack with
    visible := stack.visible.modify (stack.visible.length - depth) fun frame =>
      { frame with
        lambdas := frame.lambdas.modify name fun lambda => { lambda with busy := busy } } }

/-- Hides all but the outer `depth` frames. -/
def narrow (stack : ScopeStack α) (depth : Nat) : ScopeStack α :=
  let inner := stack.visible.length - depth
  { visible := stack.visible.drop inner, hidden := stack.visible.take inner :: stack.hidden }

/-- Shows again what was hidden last. -/
def widen (stack : ScopeStack α) : ScopeStack α :=
  match stack.hidden with
  | [] => stack
  | inner :: hidden => { visible := inner ++ stack.visible, hidden := hidden }

end ScopeStack

end OpTree
