import OpTree.Eval.Operator

/-!
# Evaluation

`eval` evaluates an expression, nesting at most as deep as it is told to. The nesting of the
expression's extent always suffices. `Graph.run` takes the extent that the graph keeps, so that
only the nodes that are visited cost anything.

Main statement: `Graph.run_eq`, a graph runs as its expression does.
-/

namespace OpTree

variable {α : Type}

namespace Eval

open EvalM

/-- Evaluates an expression in at most `depth` nested steps. -/
def eval : Nat → Expr α → EvalM α Scalar
  | 0, _ => fail .unfinished
  | depth + 1, e => do
    tick e.label
    match e with
    | .lit node value =>
      if value.isValid then
        countString value
        return value
      else
        fail (.overflow node)
    | .op node code operands =>
      if code.arity.accepts operands.length then
        apply (eval depth) node code operands
      else
        fail (.invalidArity node code code.arity operands.length)

end Eval

/-- The value of an expression and what it has used up. -/
structure Evaluation where
  result : Scalar
  stats : Stats
deriving DecidableEq

/-- What comes of running an expression: the outcome, the host calls made and all that happened,
both in order. -/
structure Run (α : Type) where
  outcome : Except (EvalError α) Evaluation
  calls : List Invocation
  trace : List (Event α)

namespace Expr

/-- Runs an expression in at most `depth` nested steps. -/
def runWithin (depth : Nat) (setting : Setting) (e : Expr α) : Run α :=
  let (result, state) := Eval.eval depth e setting .start
  { outcome := result.map fun value => ⟨value, state.usage.stats⟩
    calls := state.history.reverse
    trace := state.trace.reverse }

/-- Runs an expression. -/
def run (setting : Setting) (e : Expr α) : Run α :=
  e.runWithin e.extent.nesting setting

/-- Evaluates an expression. -/
def evaluate (setting : Setting) (e : Expr α) : Except (EvalError α) Evaluation :=
  (e.run setting).outcome

end Expr

/-- Runs the expression of a graph. -/
def Graph.run (setting : Setting) (g : Graph) : Run NodeId :=
  g.tree.runWithin g.extent.nesting setting

/-- A graph runs as its expression does, however its store is laid out. -/
theorem Graph.run_eq (setting : Setting) (g : Graph) : g.run setting = g.tree.run setting := by
  rw [Graph.run, Expr.run, g.extent_eq]

end OpTree
