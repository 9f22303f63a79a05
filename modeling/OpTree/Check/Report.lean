import OpTree.EvalError

/-!
# Check reports

What the static check finds out about an expression: how many operators it has, which host calls it
may make, and which of its names could not be decided without evaluating it.
-/

namespace OpTree

/-- Something the check could not confirm. -/
inductive Warning (α : Type) where
  /-- A name is computed. -/
  | dynamicName (node : α) (code : Operator)
  /-- A constant is not declared, unless a computed name of an enclosing scope turns out to be
  it. -/
  | unresolvedLookup (node : α) (name : String)
  /-- A call is not allowed, unless a computed name of an enclosing scope turns out to be it. -/
  | unresolvedCall (node : α) (name : String)
deriving DecidableEq, Repr

namespace Warning

variable {α β : Type}

/-- The label of the node concerned. -/
def node : Warning α → α
  | dynamicName node _ | unresolvedLookup node _ | unresolvedCall node _ => node

/-- The name of the kind of warning. -/
def kind : Warning α → String
  | dynamicName .. => "DynamicName"
  | unresolvedLookup .. => "UnresolvedLookup"
  | unresolvedCall .. => "UnresolvedCall"

/-- Relabels the node concerned. -/
def map (f : α → β) : Warning α → Warning β
  | dynamicName node code => dynamicName (f node) code
  | unresolvedLookup node name => unresolvedLookup (f node) name
  | unresolvedCall node name => unresolvedCall (f node) name

/-- The text of the warning. -/
def message : Warning NodeId → String
  | dynamicName node code =>
    s!"Node {node.display}:{code.name} name is not a constant and is therefore not checked"
  | unresolvedLookup node name =>
    s!"Node {node.display}:lookup unknown constant name \"{name}\", " ++
      "but an enclosing scope declares dynamic names that may satisfy it"
  | unresolvedCall node name =>
    s!"Node {node.display}:call \"{name}\" is not an allowed call, " ++
      "but an enclosing scope declares dynamic names that may satisfy it"

end Warning

/-- What a successful check reports. -/
structure Report (α : Type) where
  /-- The number of operators, literals not counted. -/
  opCount : Nat
  /-- The names of the host calls, each once, in the order in which the check met them. -/
  calls : List String
  warnings : List (Warning α)
deriving DecidableEq, Repr

namespace Report

variable {α : Type}

/-- The report at the start of a check. -/
def empty : Report α := ⟨0, [], []⟩

/-- Counts an operator. -/
def countOp (report : Report α) : Report α :=
  { report with opCount := report.opCount + 1 }

/-- Lists a host call, unless it is listed already. -/
def addCall (report : Report α) (name : String) : Report α :=
  if name ∈ report.calls then report else { report with calls := report.calls ++ [name] }

/-- Adds a warning. -/
def warn (report : Report α) (warning : Warning α) : Report α :=
  { report with warnings := report.warnings ++ [warning] }

end Report

end OpTree
