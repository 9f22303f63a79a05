import OpTree.Expr.Basic

/-!
# The extent of an expression

The height of an expression and the number of its lambdas together bound how deep its evaluation
can be nested. The extent of an operator depends on its operands only through their extents, so
that it can be computed bottom-up where parts are shared and a walk over the whole tree would take
too long.

Main statement: `extent_op` is this rule.
-/

namespace OpTree

/-- The quantities that bound the nesting of an evaluation. -/
structure Extent where
  height : Nat
  lambdas : Nat
deriving DecidableEq, Repr

namespace Extent

/-- The extent of an operator over operands of the given extents. -/
def ofOperands (code : Operator) (operands : List Extent) : Extent where
  height := if operands.isEmpty then 0 else (operands.map height).foldr max 0 + 1
  lambdas := (operands.map lambdas).foldr (· + ·) 0 + if code = .lambda then 1 else 0

/-- How deep an evaluation can be nested: a chain of nested steps passes through each lambda at most
once, since a lambda cannot be called while it is busy, and between two lambdas it only goes down
the tree. -/
def nesting (extent : Extent) : Nat :=
  (extent.lambdas + 1) * (extent.height + 1)

end Extent

namespace Expr

variable {α : Type}

/-- The extent of an expression. -/
def extent (e : Expr α) : Extent := ⟨e.height, e.lambdaCount⟩

theorem heightAll_eq (es : List (Expr α)) : heightAll es = (es.map height).foldr max 0 := by
  induction es with
  | nil => rfl
  | cons e es ih => simp [heightAll, ih]

theorem lambdaCountAll_eq (es : List (Expr α)) :
    lambdaCountAll es = (es.map lambdaCount).foldr (· + ·) 0 := by
  induction es with
  | nil => rfl
  | cons e es ih => simp [lambdaCountAll, ih]

theorem heightAll_le {n : Nat} {es : List (Expr α)} (h : ∀ e ∈ es, e.height ≤ n) :
    heightAll es ≤ n := by
  induction es with
  | nil => exact Nat.zero_le n
  | cons e es ih =>
    rw [List.forall_mem_cons] at h
    exact Nat.max_le.2 ⟨h.1, ih h.2⟩

/-- Every operand is less high than the operator. -/
theorem height_lt_of_mem {a : α} {code : Operator} {e : Expr α} {es : List (Expr α)}
    (he : e ∈ es) : e.height < (op a code es).height := by
  have hall : e.height ≤ heightAll es := by
    induction es with
    | nil => cases he
    | cons f fs ih =>
      rw [heightAll]
      rcases List.mem_cons.1 he with rfl | he
      · exact Nat.le_max_left _ _
      · exact Nat.le_trans (ih he) (Nat.le_max_right _ _)
  cases es with
  | nil => cases he
  | cons f fs =>
    rw [height]
    omega

/-- An operator is at most one higher than its operands. -/
theorem height_op_lt {n : Nat} {a : α} {code : Operator} {es : List (Expr α)} (hn : 0 < n)
    (h : ∀ e ∈ es, e.height + 1 < n) : (op a code es).height < n := by
  cases es with
  | nil => exact hn
  | cons e es =>
    have hfirst := h e List.mem_cons_self
    have hall : heightAll (e :: es) ≤ n - 2 := heightAll_le fun e he => by
      have := h e he
      omega
    rw [height]
    omega

theorem extent_lit (a : α) (s : Scalar) : (lit a s).extent = ⟨0, 0⟩ := rfl

/-- The extent of an operator comes from the extents of its operands. -/
theorem extent_op (a : α) (code : Operator) (es : List (Expr α)) :
    (op a code es).extent = .ofOperands code (es.map extent) := by
  have hmap : es.map (Extent.height ∘ extent) = es.map height := rfl
  have lmap : es.map (Extent.lambdas ∘ extent) = es.map lambdaCount := rfl
  cases es with
  | nil => simp [extent, Extent.ofOperands, height, lambdaCount, lambdaCountAll]
  | cons e es =>
    simp only [extent, Extent.ofOperands, height, lambdaCount, heightAll_eq, lambdaCountAll_eq,
      List.map_map, hmap, lmap]
    simp

end Expr

end OpTree
