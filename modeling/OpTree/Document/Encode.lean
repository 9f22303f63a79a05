import OpTree.Expr.Basic

/-!
# Writing documents

An expression has two wire forms. The tree form spells an operator as an object with the operator's
name and the operands; the array form as an array of the operator's number and the operands. In both
a literal is written as itself.
-/

namespace OpTree.Expr

variable {α : Type}

mutual

/-- The tree form. -/
def toTree : Expr α → Json
  | lit _ s => s.toJson
  | op _ c es => .obj [("op", .str c.name), ("operands", .arr (toTreeAll es))]

/-- The tree forms of a list of expressions. -/
def toTreeAll : List (Expr α) → List Json
  | [] => []
  | e :: es => toTree e :: toTreeAll es

end

mutual

/-- The array form. -/
def toArray : Expr α → Json
  | lit _ s => s.toJson
  | op _ c es => .arr (.int c.number :: toArrayAll es)

/-- The array forms of a list of expressions. -/
def toArrayAll : List (Expr α) → List Json
  | [] => []
  | e :: es => toArray e :: toArrayAll es

end

end OpTree.Expr
