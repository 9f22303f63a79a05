import OpTree.Document.Normalize
import OpTree.Engine
import OpTree.Proofs.Document.RoundTrip

/-!
# The forms of a document are interchangeable

What is decoded has finite literals only (`Form.isFinite_of_decodeAt`), since a number that is not
finite is no scalar of a document. So nothing is lost when it is written again: both normal forms
are decoded to the expression that the document itself is decoded to. All that is read off this
expression is therefore the same for the three documents, the addresses of the nodes included.

Main statement: `Document.interchangeable_of_decode`.
-/

namespace OpTree

variable {doc : Json} {e : Expr Unit}

theorem Scalar.isValid_of_ofJson? {s : Scalar} (h : Scalar.ofJson? doc = some s) : s.isValid := by
  cases doc with
  | null | bool | str => cases h; rfl
  | arr | obj => simp [ofJson?] at h
  | int | float =>
    simp only [ofJson?, Option.ite_none_right_eq_some, Option.some.injEq] at h
    obtain ⟨hx, rfl⟩ := h
    exact hx

namespace Expr

/-- Without labels there is nothing to erase. -/
theorem erase_unit (e : Expr Unit) : e.erase = e :=
  e.map_id

end Expr

namespace Document

variable {form : Form} {path : List Step}

/-! ### What is decoded -/

/-- Every number that is decoded is finite. -/
theorem Form.isFinite_of_decodeAt (h : form.decodeAt path doc = .ok e) : e.IsFinite := by
  induction path, doc using Form.decodeAt_induction form generalizing e with
  | defect path doc defect hview =>
    rw [decodeAt_of_defect hview] at h
    cases h
  | literal path doc s hview =>
    rw [decodeAt_of_literal hview] at h
    cases h
    intro s' hs'
    rw [Expr.literals, List.mem_singleton] at hs'
    rw [hs']
    exact Scalar.isValid_of_ofJson? (ofJson?_of_view hview)
  | op path doc code operands hview ih =>
    rw [decodeAt_op hview] at h
    cases hes : operands.mapM fun o => form.decodeAt (path ++ [o.1]) o.2 with
    | error err => rw [hes] at h; cases h
    | ok es =>
      rw [hes] at h
      cases h
      refine Expr.isFinite_op fun e he => ?_
      obtain ⟨⟨step, item⟩, ho, hitem⟩ := exists_of_mem_right (mapM_eq_ok_iff.1 hes) e he
      exact ih step item ho hitem

/-! ### What is written again -/

section

variable (h : Form.mixed.decode doc = .ok e)
include h

/-- A document loses nothing to decoding: what was decoded is read back from the tree form. -/
theorem Form.decode_toTree_of_decode (form : Form) : form.decode e.toTree = .ok e := by
  rw [decode, decodeAt_toTree, Expr.written_of_isFinite (isFinite_of_decodeAt h), e.erase_unit]

/-- What was decoded is read back from the array form. -/
theorem Form.decode_toArray_of_decode : Form.mixed.decode e.toArray = .ok e := by
  rw [decode, decodeAt_toArray, Expr.written_of_isFinite (isFinite_of_decodeAt h), e.erase_unit]

end

/-- Whatever is a function of the decoded expression is the same for the two normal forms of a
document as for the document: the normal forms themselves, so that normalizing twice is normalizing
once; the graph, with every node at the same address; and the outcome of evaluating it, with the
usage and the node at which it failed, under any engine and any host. The tree form has the same
graph where only the tree form is admitted. -/
theorem interchangeable_of_decode (h : Form.mixed.decode doc = .ok e) :
    (arrayForm doc = .ok e.toArray ∧ treeForm doc = .ok e.toTree) ∧
      (arrayForm e.toArray = .ok e.toArray ∧ treeForm e.toArray = .ok e.toTree) ∧
      (arrayForm e.toTree = .ok e.toArray ∧ treeForm e.toTree = .ok e.toTree) ∧
      (Form.mixed.graph doc = .ok (.ofExpr e) ∧ Form.mixed.graph e.toArray = .ok (.ofExpr e) ∧
        Form.mixed.graph e.toTree = .ok (.ofExpr e) ∧ Form.tree.graph e.toTree = .ok (.ofExpr e)) ∧
      ∀ (engine : Engine) (lookups : Lookups) (executor : Executor),
        engine.runJson e.toArray lookups executor = engine.runJson doc lookups executor ∧
        engine.runJson e.toTree lookups executor = engine.runJson doc lookups executor ∧
        engine.run (.ofExpr e) none lookups executor = engine.runJson doc lookups executor := by
  have harray := Form.decode_toArray_of_decode h
  have htree := Form.decode_toTree_of_decode h
  refine ⟨?_, ?_, ?_, ?_, fun engine lookups executor => ?_⟩
  all_goals
    simp only [arrayForm, treeForm, Form.graph, Engine.runJson, h, harray, htree, Except.map,
      and_self]

/-- An array as an operand of an object, under the other name of the operand list, and a number
with a point that is a whole number. -/
theorem interchangeable_of_decode_mixed :
    Form.mixed.decode (.obj [("op", .str "coalesce"), ("av", .arr [.arr [.int 19], .float 1.0])])
      = .ok (.op () .coalesce [.op () .coalesce [], .lit () (.num 1.0)]) ∧
    arrayForm (.obj [("op", .str "coalesce"), ("av", .arr [.arr [.int 19], .float 1.0])])
      = .ok (.arr [.int 19, .arr [.int 19], .int 1]) ∧
    arrayForm (.arr [.int 19, .arr [.int 19], .int 1])
      = .ok (.arr [.int 19, .arr [.int 19], .int 1]) ∧
    Form.mixed.graph (.obj [("op", .str "coalesce"), ("av", .arr [.arr [.int 19], .float 1.0])])
      = Form.mixed.graph (.arr [.int 19, .arr [.int 19], .int 1]) := by
  have hdoc : Form.mixed.decode
      (.obj [("op", .str "coalesce"), ("av", .arr [.arr [.int 19], .float 1.0])])
      = .ok (.op () .coalesce [.op () .coalesce [], .lit () (.num 1.0)]) := by
    have hempty : ∀ path, Form.mixed.decodeAt path (.arr [.int 19]) = .ok (.op () .coalesce []) :=
      fun _ => Form.decodeAt_of_op rfl rfl
    have hone : ∀ path, Form.mixed.decodeAt path (.float 1.0) = .ok (.lit () (.num 1.0)) :=
      fun _ => Form.decodeAt_of_literal (Form.view_of_ofJson? (by decide +kernel))
    refine Form.decodeAt_of_op rfl ?_
    simp only [List.zipIdx_cons, List.map_cons, List.mapM_cons, hempty, hone]
    rfl
  have harray : (Expr.op () .coalesce [.op () .coalesce [], .lit () (.num 1.0)]).toArray
      = .arr [.int 19, .arr [.int 19], .int 1] := by
    have hone : Number.toSafeInt? 1.0 = some 1 := by decide +kernel
    simp only [Expr.toArray, Expr.toArrayAll, Scalar.toJson, hone]
    rfl
  obtain ⟨⟨hform, -⟩, ⟨hagain, -⟩, -, ⟨hgraph, hsame, -⟩, -⟩ := interchangeable_of_decode hdoc
  rw [harray] at hform hagain hsame
  exact ⟨hdoc, hform, hagain, hgraph.trans hsame.symm⟩

end Document

end OpTree
