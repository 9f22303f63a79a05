import OpTree.Fold
import OpTree.Proofs.Document.RoundTrip
import OpTree.Proofs.Labels.Check

/-!
# The layout of a store cannot be observed

What is read off a graph is read off the expression that its store unfolds to, and does not depend
on the labels of the expression but for naming nodes by them. The labels are all that is left of the
store in the expression. So two graphs that unfold to the same expression cannot be told apart but
by the addresses of the nodes that are blamed: not by the order of the nodes in the store, nor by
nodes that the root does not reach, nor by nodes that are shared in the one and repeated in the
other.

Main statement: `Graph.indistinguishable_of_erase_eq`.
-/

namespace OpTree

variable {α β γ : Type}

/-! ### Folding -/

namespace Expr

variable (f : α → β)

/-- A relabelled expression evaluates to the same value, or fails at the relabelled node. -/
theorem evaluate_map (e : Expr α) (setting : Setting) :
    (e.map f).evaluate setting = (e.evaluate setting).mapError (EvalError.map f) :=
  congrArg Run.outcome (e.run_map f setting)

end Expr

namespace Fold

variable (f : α → β)

/-- A literal remains one. -/
@[simp]
theorem constant?_map (e : Expr α) : constant? (e.map f) = constant? e := by
  rw [constant?, constant?, e.evaluate_map]
  cases e.evaluate setting <;> rfl

mutual

/-- **Folding does not look at labels.** -/
theorem fold_map : (e : Expr α) → fold (e.map f) = fold e
  | .lit .. => rfl
  | .op a code es => by
    have hconstant := constant?_map f (.op a code es)
    rw [Expr.map] at hconstant
    rw [Expr.map, fold, fold, hconstant, foldAll_mapAll es]

private theorem foldAll_mapAll : (es : List (Expr α)) → foldAll (Expr.mapAll f es) = foldAll es
  | [] => rfl
  | e :: es => by rw [Expr.mapAll, foldAll, foldAll, fold_map e, foldAll_mapAll es]

end

/-- Folding takes no label over from the expression: it lays the folded expression out anew. -/
theorem foldRoot_map (e : Expr α) : foldRoot (e.map f) = foldRoot e := by
  rw [foldRoot, foldRoot, fold_map]

end Fold

namespace Expr

variable (f : α → β)

/-- An optimized graph is the same graph, whatever the labels. -/
theorem optimize_map (e : Expr α) :
    (e.map f).optimize = e.optimize.mapError (EvalError.map f) := by
  rw [optimize, optimize, e.check_map f none]
  cases e.check none with
  | error err => rfl
  | ok r =>
    have hbuilt {b b' : Expr NodeId × Store} (h : b' = b) (hu : b.2.Unfolds b.1)
        (hu' : b'.2.Unfolds b'.1) : Graph.ofBuilt b' hu' = .ofBuilt b hu := by
      subst h
      rfl
    exact congrArg Except.ok (hbuilt (congrFun (Fold.foldRoot_map f e) #[]) _ _)

/-! ### Texts -/

/-- The tree form has no labels. -/
@[simp]
theorem toTree_map (e : Expr α) : (e.map f).toTree = e.toTree := by
  induction e with
  | lit => rfl
  | op a code es ih =>
    rw [map_op, toTree, toTree, toTreeAll_eq, toTreeAll_eq, List.map_map]
    exact congrArg (fun docs => Json.obj [("op", .str code.name), ("operands", .arr docs)])
      (List.map_congr_left ih)

/-- Nor has the array form. -/
@[simp]
theorem toArray_map (e : Expr α) : (e.map f).toArray = e.toArray := by
  induction e with
  | lit => rfl
  | op a code es ih =>
    rw [map_op, toArray, toArray, toArrayAll_eq, toArrayAll_eq, List.map_map]
    exact congrArg (fun docs => Json.arr (.int code.number :: docs)) (List.map_congr_left ih)

/-- Nor has the display. -/
@[simp]
theorem display_map (e : Expr α) : (e.map f).display = e.display := by
  induction e with
  | lit => rfl
  | op a code es ih =>
    rw [map_op, display, display, displayAll_eq, displayAll_eq, List.map_map]
    exact congrArg (fun texts => code.name ++ "(" ++ ", ".intercalate texts ++ ")")
      (List.map_congr_left ih)

mutual

/-- Nor does equality look at them. -/
theorem equals_map : (e : Expr α) → (e' : Expr γ) → (e.map f).equals e' = e.equals e'
  | lit .., lit .. | lit .., op .. | op .., lit .. => rfl
  | op _ c es, op _ d fs => by
    rw [map, equals, equals, equalsAll_mapAll es fs, mapAll_eq, List.length_map]

private theorem equalsAll_mapAll : (es : List (Expr α)) → (fs : List (Expr γ)) →
    equalsAll (mapAll f es) fs = equalsAll es fs
  | [], [] | [], _ :: _ | _ :: _, [] => rfl
  | e :: es, e' :: fs => by
    rw [mapAll, equalsAll, equalsAll, equals_map e e', equalsAll_mapAll es fs]

end

end Expr

/-! ### Two graphs of one expression -/

/-- **The layout of a store cannot be observed.** Two graphs that unfold to the same expression run
alike under any limits and any host: they give the same value, have used the same and have made the
same host calls, or they fail for the same reason, but for the address of the node to blame. The
check reports the same but for the addresses of nodes, and both are optimized to the same graph.
They are written the same in either form and as a text, and equal the same graphs. -/
theorem Graph.indistinguishable_of_erase_eq {g h : Graph} (heq : g.tree.erase = h.tree.erase) :
    (∀ setting,
      (g.run setting).outcome.mapError (EvalError.map fun _ => ())
          = (h.run setting).outcome.mapError (EvalError.map fun _ => ()) ∧
        (g.run setting).calls = (h.run setting).calls ∧
        (g.run setting).trace.map (Event.map fun _ => ())
          = (h.run setting).trace.map (Event.map fun _ => ())) ∧
      (∀ allowed,
        ((g.tree.check allowed).map (Report.map fun _ => ())).mapError (EvalError.map fun _ => ())
          = ((h.tree.check allowed).map (Report.map fun _ => ())).mapError
            (EvalError.map fun _ => ())) ∧
      g.tree.optimize.mapError (EvalError.map fun _ => ())
        = h.tree.optimize.mapError (EvalError.map fun _ => ()) ∧
      (g.tree.toArray = h.tree.toArray ∧ g.tree.toTree = h.tree.toTree ∧
        g.tree.display = h.tree.display) ∧
      ∀ k, g.equals k = h.equals k := by
  -- all of it is the same for the expression without its labels
  have hrun (setting : Setting) : (g.run setting).map (fun _ => ())
      = (h.run setting).map fun _ => () := by
    rw [g.run_eq, h.run_eq, ← Expr.run_map, ← Expr.run_map]
    exact congrArg (Expr.run setting) heq
  refine ⟨fun setting => Run.mk.inj (hrun setting), fun allowed => ?_, ?_, ⟨?_, ?_, ?_⟩,
    fun k => ?_⟩
  · rw [← Expr.check_map, ← Expr.check_map]
    exact congrArg (Expr.check · allowed) heq
  · rw [← Expr.optimize_map, ← Expr.optimize_map]
    exact congrArg Expr.optimize heq
  · rw [← g.tree.toArray_map fun _ => (), ← h.tree.toArray_map fun _ => ()]
    exact congrArg Expr.toArray heq
  · rw [← g.tree.toTree_map fun _ => (), ← h.tree.toTree_map fun _ => ()]
    exact congrArg Expr.toTree heq
  · rw [← g.tree.display_map fun _ => (), ← h.tree.display_map fun _ => ()]
    exact congrArg Expr.display heq
  · rw [Graph.equals, Graph.equals, ← g.tree.equals_map fun _ => (),
      ← h.tree.equals_map fun _ => ()]
    exact congrArg (Expr.equals · k.tree) heq

/-- A call of the host whose result is compared with itself: a node that is an operand twice. -/
def Graph.sharing : Graph where
  nodes := #[.lit (.str "now"), .op .call [⟨0⟩], .op .eq [⟨1⟩, ⟨1⟩]]
  tree := .op ⟨2⟩ .eq [.op ⟨1⟩ .call [.lit ⟨0⟩ (.str "now")], .op ⟨1⟩ .call [.lit ⟨0⟩ (.str "now")]]
  unfolds := by
    have hcall : Store.Unfolds #[.lit (.str "now"), .op .call [⟨0⟩], .op .eq [⟨1⟩, ⟨1⟩]]
        (.op ⟨1⟩ .call [.lit ⟨0⟩ (.str "now")]) :=
      .op rfl (List.forall_mem_singleton.2 (.lit rfl))
    exact .op rfl (List.forall_mem_cons.2 ⟨hcall, List.forall_mem_singleton.2 hcall⟩)

/-- Two calls, the later one first, the name being shared, and a node that nothing refers to. -/
def Graph.repeating : Graph where
  nodes := #[.lit .null, .lit (.str "now"), .op .call [⟨1⟩], .op .call [⟨1⟩], .op .eq [⟨3⟩, ⟨2⟩]]
  tree := .op ⟨4⟩ .eq [.op ⟨3⟩ .call [.lit ⟨1⟩ (.str "now")], .op ⟨2⟩ .call [.lit ⟨1⟩ (.str "now")]]
  unfolds :=
    .op rfl (List.forall_mem_cons.2 ⟨.op rfl (List.forall_mem_singleton.2 (.lit rfl)),
      List.forall_mem_singleton.2 (.op rfl (List.forall_mem_singleton.2 (.lit rfl)))⟩)

/-- The host cannot tell one shared node from two. -/
theorem Graph.indistinguishable_of_erase_eq_sharing :
    sharing.tree.erase = repeating.tree.erase ∧ sharing.nodes ≠ repeating.nodes ∧
      ∀ setting, (sharing.run setting).calls = (repeating.run setting).calls := by
  have heq : sharing.tree.erase = repeating.tree.erase := rfl
  exact ⟨heq, by decide, fun setting =>
    ((Graph.indistinguishable_of_erase_eq heq).1 setting).2.1⟩

end OpTree
