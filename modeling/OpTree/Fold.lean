import OpTree.Check.Basic
import OpTree.Eval.Basic

/-!
# Folding

Folding replaces every part of an expression that has a value of its own, without host calls and
enclosing scopes, by that value. What remains is simplified: a scope without bindings is its body,
and a condition loses the pairs whose guard is a literal that is not true and everything after a
literal that is.

The folded expression is built in a new store. Nodes that turn out not to be needed stay there.
Main statement: `unfolds_fold` says that the store unfolds to the expression that `fold` returns,
so that `optimize` returns a graph.
-/

namespace OpTree

namespace Fold

open Store

variable {α : Type}

/-- How parts are evaluated: without host calls, and with a bound on the work spent on one part. -/
def setting : Setting where
  limits := Limits.unlimited.set (.counter .opCount) (some 10000)
  host := .empty
  executor := .timed

/-- The value that an expression has anywhere, as far as it is found. -/
def constant? (e : Expr α) : Option Scalar :=
  (e.evaluate setting).toOption.map Evaluation.result

/-- The operands of a condition that can still matter. -/
def prune : List (Expr α) → List (Expr α)
  | guard :: value :: rest =>
    match guard.literal? with
    | some s => if s.isTrue then [value] else prune rest
    | none => guard :: value :: prune rest
  | rest => rest

/-- Adds an operator over folded operands, or the operand that it comes down to. -/
def simplify (code : Operator) (operands : List (Expr NodeId)) : StateM Store (Expr NodeId) :=
  match code, operands with
  | .scope, [body] => return body
  | .condition, operands =>
    match prune operands with
    | [value] => return value
    | live => addOp .condition live
  | code, operands => addOp code operands

mutual

/-- Adds the folded form of an expression to a store. -/
def fold : Expr α → StateM Store (Expr NodeId)
  | .lit _ s => addLit s
  | .op a code operands =>
    match constant? (.op a code operands) with
    | some s => addLit s
    | none => do
      let folded ← foldAll operands
      simplify code folded

/-- Adds the folded forms of several expressions, one after the other. -/
def foldAll : List (Expr α) → StateM Store (List (Expr NodeId))
  | [] => return []
  | e :: es => do
    let folded ← fold e
    let rest ← foldAll es
    return folded :: rest

end

/-- Adds the folded form of a whole expression. A literal is wrapped, so that the root is an
operator. -/
def foldRoot (e : Expr α) : StateM Store (Expr NodeId) := do
  let folded ← fold e
  match folded with
  | .lit .. => addOp .expression [folded]
  | .op .. => return folded

/-! ### The store unfolds to the folded expression -/

theorem mem_of_mem_prune {x : Expr α} : {es : List (Expr α)} → x ∈ prune es → x ∈ es
  | [], h => h
  | [_], h => h
  | guard :: value :: rest, h => by
    have ih : x ∈ prune rest → x ∈ rest := mem_of_mem_prune
    rw [prune] at h
    grind

/-- Running `x` on a store only adds nodes, and the store then unfolds to the expression that `x`
returns. -/
private def Builds (x : StateM Store (Expr NodeId)) (store : Store) : Prop :=
  Grows store (x store).2 ∧ Unfolds (x store).2 (x store).1

private theorem builds_addLit (s : Scalar) (store : Store) : Builds (addLit s) store :=
  ⟨grows_push _ _, unfolds_addLit s store⟩

private theorem builds_addOp (code : Operator) {operands : List (Expr NodeId)} {store : Store}
    (h : ∀ e ∈ operands, Unfolds store e) : Builds (addOp code operands) store :=
  ⟨grows_push _ _, unfolds_addOp code h⟩

private theorem builds_pure {e : Expr NodeId} {store : Store} (h : Unfolds store e) :
    Builds (pure e) store :=
  ⟨.refl _, h⟩

private theorem builds_simplify (code : Operator) {operands : List (Expr NodeId)} {store : Store}
    (h : ∀ e ∈ operands, Unfolds store e) : Builds (simplify code operands) store := by
  unfold simplify
  split
  · exact builds_pure (h _ (.head _))
  · have hp : ∀ e ∈ prune operands, Unfolds store e := fun e he => h e (mem_of_mem_prune he)
    split
    · rename_i value hv
      exact builds_pure (hp value (by simp [hv]))
    · exact builds_addOp _ hp
  · exact builds_addOp _ h

mutual

private theorem builds_fold : (e : Expr α) → (store : Store) → Builds (fold e) store
  | .lit _ s, store => builds_addLit s store
  | .op a code operands, store => by
    rw [fold]
    split
    · exact builds_addLit _ store
    · obtain ⟨hg, hu⟩ := foldAll_spec operands store
      obtain ⟨hg', hu'⟩ := builds_simplify code hu
      exact ⟨hg.trans hg', hu'⟩

private theorem foldAll_spec : (es : List (Expr α)) → (store : Store) →
    Grows store (foldAll es store).2 ∧
      ∀ e ∈ (foldAll es store).1, Unfolds (foldAll es store).2 e
  | [], store => ⟨.refl _, fun e he => by cases he⟩
  | e :: es, store => by
    obtain ⟨hg, hu⟩ := builds_fold e store
    obtain ⟨hgs, hus⟩ := foldAll_spec es (fold e store).2
    refine ⟨hg.trans hgs, fun x hx => ?_⟩
    rcases List.mem_cons.1 hx with rfl | hx
    · exact hu.mono hgs
    · exact hus x hx

end

/-- The store unfolds to the folded expression. -/
theorem unfolds_fold (e : Expr α) (store : Store) :
    Unfolds (fold e store).2 (fold e store).1 :=
  (builds_fold e store).2

/-- The store unfolds to each of the folded expressions. -/
theorem unfolds_foldAll (es : List (Expr α)) (store : Store) :
    ∀ e ∈ (foldAll es store).1, Unfolds (foldAll es store).2 e :=
  (foldAll_spec es store).2

/-- The store unfolds to the folded expression, also where it is wrapped. -/
theorem unfolds_foldRoot (e : Expr α) (store : Store) :
    Unfolds (foldRoot e store).2 (foldRoot e store).1 := by
  have h := unfolds_fold e store
  simp only [foldRoot, bind, StateT.bind]
  generalize fold e store = r at h ⊢
  obtain ⟨e, store⟩ := r
  cases e with
  | lit a s =>
    exact unfolds_addOp _ fun x hx => by
      rw [List.mem_singleton] at hx
      exact hx ▸ h
  | op a c es => exact h

end Fold

/-- Checks an expression and folds it. -/
def Expr.optimize {α : Type} (e : Expr α) : Except (EvalError α) Graph := do
  let _ ← e.check none
  return .ofBuilt (Fold.foldRoot e #[]) (Fold.unfolds_foldRoot e #[])

end OpTree
