import OpTree.Operator
import OpTree.Scalar

/-!
# Expressions

An expression is a tree of operators with literals at its leaves. Every node carries a label: the
address of the node in a graph, or nothing. What an expression means does not depend on the labels;
they only say where an error arose.

Main statements: `map_id` and `map_map` say that relabelling is functorial.
-/

namespace OpTree

/-- An expression whose nodes carry labels from `α`. -/
inductive Expr (α : Type) where
  | lit (label : α) (value : Scalar)
  | op (label : α) (code : Operator) (operands : List (Expr α))
deriving Inhabited

namespace Expr

variable {α β γ : Type}

/-- Induction on expressions: a statement about an operator may use the statement about each of its
operands. -/
@[induction_eliminator]
theorem induct {motive : Expr α → Prop} (lit : ∀ a s, motive (lit a s))
    (op : ∀ a c es, (∀ e ∈ es, motive e) → motive (op a c es)) : ∀ e, motive e :=
  @Expr.rec α motive (fun es => ∀ e ∈ es, motive e) lit op
    (fun e he => by cases he)
    (fun _ _ he hes e h => by
      rcases List.mem_cons.1 h with rfl | h
      · exact he
      · exact hes e h)

/-- The label of the root. -/
def label : Expr α → α
  | lit a _ => a
  | op a _ _ => a

/-- The value of a literal. -/
def literal? : Expr α → Option Scalar
  | lit _ s => some s
  | op .. => none

/-- The name that a string literal spells. -/
def name? (e : Expr α) : Option String :=
  e.literal?.bind Scalar.str?

mutual

/-- Replaces every label. -/
def map (f : α → β) : Expr α → Expr β
  | lit a s => lit (f a) s
  | op a c es => op (f a) c (mapAll f es)

/-- Replaces every label of a list of expressions. -/
def mapAll (f : α → β) : List (Expr α) → List (Expr β)
  | [] => []
  | e :: es => map f e :: mapAll f es

end

/-- The expression without its labels. -/
def erase (e : Expr α) : Expr Unit :=
  e.map fun _ => ()

mutual

/-- The number of nodes. -/
def size : Expr α → Nat
  | lit .. => 1
  | op _ _ es => sizeAll es + 1

/-- The number of nodes of a list of expressions. -/
def sizeAll : List (Expr α) → Nat
  | [] => 0
  | e :: es => size e + sizeAll es

end

mutual

/-- The number of edges on the longest path from the root to a leaf. -/
def height : Expr α → Nat
  | lit .. => 0
  | op _ _ [] => 0
  | op _ _ (e :: es) => heightAll (e :: es) + 1

/-- The greatest height in a list of expressions. -/
def heightAll : List (Expr α) → Nat
  | [] => 0
  | e :: es => max (height e) (heightAll es)

end

mutual

/-- The number of lambda nodes. -/
def lambdaCount : Expr α → Nat
  | lit .. => 0
  | op _ c es => lambdaCountAll es + if c = .lambda then 1 else 0

/-- The number of lambda nodes in a list of expressions. -/
def lambdaCountAll : List (Expr α) → Nat
  | [] => 0
  | e :: es => lambdaCount e + lambdaCountAll es

end

mutual

/-- Equality of expressions, whatever their labels, literals being compared as the language
compares scalars. -/
def equals : Expr α → Expr β → Bool
  | lit _ s, lit _ t => s.equals t
  | op _ c es, op _ d fs => c == d && es.length == fs.length && equalsAll es fs
  | _, _ => false

/-- Equality of two lists of expressions, item by item. -/
def equalsAll : List (Expr α) → List (Expr β) → Bool
  | [], [] => true
  | e :: es, f :: fs => equals e f && equalsAll es fs
  | _, _ => false

end

mutual

/-- The text of an expression: a literal as in messages, an operator with its operands in
parentheses. -/
def display : Expr α → String
  | lit _ s => s.display
  | op _ c es => c.name ++ "(" ++ ", ".intercalate (displayAll es) ++ ")"

/-- The texts of a list of expressions. -/
def displayAll : List (Expr α) → List String
  | [] => []
  | e :: es => display e :: displayAll es

end

/-! ### Lists of expressions -/

theorem mapAll_eq (f : α → β) (es : List (Expr α)) : mapAll f es = es.map (map f) := by
  induction es with
  | nil => rfl
  | cons e es ih => simp [mapAll, ih]

theorem displayAll_eq (es : List (Expr α)) : displayAll es = es.map display := by
  induction es with
  | nil => rfl
  | cons e es ih => simp [displayAll, ih]

/-! ### Relabelling -/

theorem map_op (f : α → β) (a : α) (c : Operator) (es : List (Expr α)) :
    (op a c es).map f = op (f a) c (es.map (map f)) := by
  rw [map, mapAll_eq]

/-- A literal keeps its value. -/
@[simp]
theorem literal?_map (f : α → β) (e : Expr α) : (e.map f).literal? = e.literal? := by
  cases e <;> rfl

/-- So names that are spelled out stay as they are. -/
@[simp]
theorem name?_map (f : α → β) (e : Expr α) : (e.map f).name? = e.name? := by
  rw [name?, name?, literal?_map]

mutual

/-- Labels may be replaced by themselves. -/
theorem map_id : (e : Expr α) → e.map id = e
  | lit a s => by simp [map]
  | op a c es => by simp [map, mapAll_id es]

theorem mapAll_id : (es : List (Expr α)) → mapAll id es = es
  | [] => rfl
  | e :: es => by simp [mapAll, map_id e, mapAll_id es]

end

/-- Without labels an operator is the operator over its operands without labels. -/
theorem erase_op (a : α) (c : Operator) (es : List (Expr α)) :
    (op a c es).erase = op () c (es.map erase) := by
  rw [erase, map, mapAll_eq]
  rfl

@[simp]
theorem literal?_erase (e : Expr α) : e.erase.literal? = e.literal? := by
  cases e <;> rfl

end Expr

end OpTree
