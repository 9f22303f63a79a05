import OpTree.Document.Normalize
import OpTree.Failure
import OpTree.Proofs.Document.RoundTrip

/-!
# The two forms agree on documents without arrays

The forms part only where an array stands for a node: the tree form refuses it, the mixed form reads
an operator in it. Where no node is an array (`IsNode`), every node is the same thing to both, so
both decode the same expression, or stop at the same node for the same defect
(`Form.decodeAt_mixed`). They do not say the same about it: only the tree form tells the reason.

A document that the tree form decodes has no array for a node (`Form.not_isNode_arr_of_decodeAt`).
The mixed form therefore decodes it to the same expression.

Main statement: `Document.decode_tree_mixed`.
-/

namespace OpTree.Document

variable {form : Form} {path : List Step} {doc node item : Json} {items : List Json}
  {code : Operator} {operands : List (Step × Json)} {defect : Defect} {e : Expr Unit}

/-! ### Nodes -/

/-- What stands in node position in a document: the document itself, and the operands of the objects
that stand in node position. The operands of an array do not count. -/
inductive IsNode (doc : Json) : Json → Prop where
  | root : IsNode doc doc
  | operand {node item : Json} {items : List Json} : IsNode doc node →
      operandList? node = some items → item ∈ items → IsNode doc item

namespace IsNode

theorem trans {doc' : Json} (h : IsNode doc doc') (hnode : IsNode doc' node) : IsNode doc node := by
  induction hnode with
  | root => exact h
  | operand _ hitems hitem ih => exact .operand ih hitems hitem

/-- The nodes of a document are the root and the nodes of its operands. -/
theorem iff : IsNode doc node ↔
    node = doc ∨ ∃ items, operandList? doc = some items ∧ ∃ item ∈ items, IsNode item node := by
  constructor
  · intro h
    induction h with
    | root => exact .inl rfl
    | operand _ hitems hitem ih =>
      rcases ih with rfl | ⟨items', hitems', item', hitem', hnode⟩
      · exact .inr ⟨_, hitems, _, hitem, .root⟩
      · exact .inr ⟨items', hitems', item', hitem', .operand hnode hitems hitem⟩
  · rintro (rfl | ⟨items, hitems, item, hitem, hnode⟩)
    · exact .root
    · exact trans (.operand .root hitems hitem) hnode

/-- The operands that the tree form sees are nodes. -/
theorem of_view (h : Form.tree.view doc = .ok (.op code operands)) {o : Step × Json}
    (ho : o ∈ operands) : IsNode doc o.2 := by
  rw [Form.view, viewTree.eq_def] at h
  split at h
  · cases h
  · split at h
    · rw [viewObject.eq_def] at h
      split at h <;> try cases h
      split at h <;> try cases h
      split at h <;> cases h
      obtain ⟨⟨item, i⟩, hitem, rfl⟩ := List.mem_map.1 ho
      exact .operand .root ‹_› (List.fst_mem_of_mem_zipIdx hitem)
    all_goals simp_all

end IsNode

/-! ### Decoding the same nodes -/

/-- Items whose failures are told in another way, one by one, fail as a whole in that way. -/
private theorem mapM_eq_mapError {α β ε ε' : Type} {f : α → Except ε β} {g : α → Except ε' β}
    {xs : List α} (tell : ε → ε') (h : ∀ x ∈ xs, g x = (f x).mapError tell) :
    xs.mapM g = (xs.mapM f).mapError tell := by
  induction xs with
  | nil => rfl
  | cons x xs ih =>
    rw [List.forall_mem_cons] at h
    rw [List.mapM_cons, List.mapM_cons, h.1, ih h.2]
    cases f x with
    | error err => rfl
    | ok y => cases xs.mapM f <;> rfl

/-- Without arrays for nodes the mixed form decodes what the tree form decodes, and refuses what it
refuses, at the same node for the same defect. -/
theorem Form.decodeAt_mixed (h : ∀ items, ¬ IsNode doc (.arr items)) :
    Form.mixed.decodeAt path doc
      = (Form.tree.decodeAt path doc).mapError ({ · with form := .mixed }) := by
  induction path, doc using Form.decodeAt_induction .tree with
  | defect path doc defect hview =>
    have hview' : Form.mixed.view doc = _ :=
      (viewMixed_eq_viewTree fun items hdoc => h items (hdoc ▸ .root)).trans hview
    rw [decodeAt_of_defect hview, decodeAt_of_defect hview']
    rfl
  | literal path doc s hview =>
    have hview' : Form.mixed.view doc = _ :=
      (viewMixed_eq_viewTree fun items hdoc => h items (hdoc ▸ .root)).trans hview
    rw [decodeAt_of_literal hview, decodeAt_of_literal hview']
    rfl
  | op path doc code operands hview ih =>
    have hview' : Form.mixed.view doc = _ :=
      (viewMixed_eq_viewTree fun items hdoc => h items (hdoc ▸ .root)).trans hview
    have hoperands : operands.mapM (fun o => Form.mixed.decodeAt (path ++ [o.1]) o.2)
        = (operands.mapM fun o => Form.tree.decodeAt (path ++ [o.1]) o.2).mapError
          ({ · with form := .mixed }) :=
      mapM_eq_mapError _ fun o ho =>
        ih o.1 o.2 ho fun items hnode => h items (.trans (.of_view hview ho) hnode)
    rw [decodeAt_op hview, decodeAt_op hview', hoperands]
    cases operands.mapM fun o => Form.tree.decodeAt (path ++ [o.1]) o.2 <;> rfl

/-- A rejection names the form that was asked for. -/
theorem Form.form_of_decodeAt {r : Rejection} (h : form.decodeAt path doc = .error r) :
    r.form = form := by
  induction path, doc using Form.decodeAt_induction form with
  | defect path doc defect hview =>
    rw [decodeAt_of_defect hview] at h
    cases h
    rfl
  | literal path doc s hview =>
    rw [decodeAt_of_literal hview] at h
    cases h
  | op path doc code operands hview ih =>
    rw [decodeAt_op hview] at h
    cases hes : operands.mapM fun o => form.decodeAt (path ++ [o.1]) o.2 with
    | error err =>
      rw [hes] at h
      cases h
      obtain ⟨before, o, after, hoperands, herror, -⟩ := exists_of_mapM_eq_error hes
      have ho : o ∈ operands := hoperands ▸ List.mem_append_right before List.mem_cons_self
      exact ih o.1 o.2 ho herror
    | ok es => rw [hes] at h; cases h

/-! ### What the tree form decodes -/

/-- A node with operands is an object, so unless the tree form refuses it, they are the operands of
an operator. -/
theorem Form.view_of_operandList (hitems : operandList? doc = some items) (hitem : item ∈ items) :
    (∃ defect, Form.tree.view doc = .error defect) ∨
      ∃ code, Form.tree.view doc
        = .ok (.op code (items.zipIdx.map fun (item, i) => (.operand i, item))) := by
  cases doc with
  | obj fields =>
    have hview : Form.tree.view (.obj fields) = viewObject (.obj fields) := rfl
    rw [hview, viewObject.eq_def, hitems]
    split
    · split
      · exact .inl ⟨_, rfl⟩
      · exact .inr ⟨_, rfl⟩
    · exact .inl ⟨_, rfl⟩
  | _ =>
    cases hitems
    cases hitem

/-- All nodes of a document that the tree form decodes are decoded. -/
theorem Form.exists_decodeAt_of_isNode (h : Form.tree.decodeAt path doc = .ok e)
    (hnode : IsNode doc node) : ∃ path e, Form.tree.decodeAt path node = .ok e := by
  induction hnode with
  | root => exact ⟨path, e, h⟩
  | @operand node item items _ hitems hitem ih =>
    obtain ⟨path, e, h⟩ := ih
    obtain ⟨defect, hview⟩ | ⟨code, hview⟩ := view_of_operandList hitems hitem
    · rw [decodeAt_of_defect hview] at h
      cases h
    · rw [decodeAt_op hview] at h
      obtain ⟨i, hi, rfl⟩ := List.getElem_of_mem hitem
      cases hes : (items.zipIdx.map fun (item, i) => (Step.operand i, item)).mapM
          fun o => Form.tree.decodeAt (path ++ [o.1]) o.2 with
      | error err => rw [hes] at h; cases h
      | ok es =>
        obtain ⟨e, -, he⟩ := exists_of_mem_left (mapM_eq_ok_iff.1 hes) (.operand i, items[i])
          (List.mem_map.2 ⟨(items[i], i), List.mk_mem_zipIdx_iff_getElem?.2 (by simp [hi]), rfl⟩)
        exact ⟨_, e, he⟩

/-- The tree form decodes no document in which an array stands for a node. -/
theorem Form.not_isNode_arr_of_decodeAt (h : Form.tree.decodeAt path doc = .ok e) :
    ¬ IsNode doc (.arr items) := by
  intro hnode
  obtain ⟨path, e, h⟩ := exists_decodeAt_of_isNode h hnode
  have hview : Form.tree.view (.arr items) = .error .notNode := viewTree_arr items
  rw [decodeAt_of_defect hview] at h
  cases h

/-! ### The two forms side by side -/

/-- The mixed form decodes what the tree form decodes. -/
theorem Form.decode_mixed_of_decode_tree (h : Form.tree.decode doc = .ok e) :
    Form.mixed.decode doc = .ok e := by
  rw [decode, decodeAt_mixed fun _ => not_isNode_arr_of_decodeAt h, ← decode, h]
  rfl

/-- The forms agree on every document in which no array stands for a node. Either both decode it to
the same expression, and build the same graph, with every node at the same address; or both refuse
it at the same node, where both report the same unknown operator, or the tree form an invalid node
and the mixed form invalid input. And whatever the tree form decodes, the mixed form decodes to the
same expression and the same graph. -/
theorem decode_tree_mixed (doc : Json) :
    ((∀ items, ¬ IsNode doc (.arr items)) →
      (∃ e, Form.tree.decode doc = .ok e ∧ Form.mixed.decode doc = .ok e ∧
        Form.tree.graph doc = .ok (.ofExpr e) ∧ Form.mixed.graph doc = .ok (.ofExpr e)) ∨
      ∃ path defect, Form.tree.decode doc = .error ⟨.tree, path, defect⟩ ∧
        Form.mixed.decode doc = .error ⟨.mixed, path, defect⟩ ∧
        ((∃ error, defect = .unknownOperator error ∧
            (Cause.document ⟨.tree, path, defect⟩).code = "IrError::Op" ∧
            (Cause.document ⟨.mixed, path, defect⟩).code = "LinearizeError::Op" ∧
            (Cause.document ⟨.tree, path, defect⟩).message = error.message ∧
            (Cause.document ⟨.mixed, path, defect⟩).message = error.message) ∨
          ((∀ error, defect ≠ .unknownOperator error) ∧
            (Cause.document ⟨.tree, path, defect⟩).code = "IrError::InvalidNode" ∧
            (Cause.document ⟨.mixed, path, defect⟩).code = "LinearizeError::InvalidInput" ∧
            (Cause.document ⟨.tree, path, defect⟩).message
              = s!"Invalid node at {displayPath path}: {defect.reason}" ∧
            (Cause.document ⟨.mixed, path, defect⟩).message
              = s!"Invalid input at {displayPath path}"))) ∧
    ∀ e, Form.tree.decode doc = .ok e → Form.mixed.decode doc = .ok e ∧
      Form.tree.graph doc = .ok (.ofExpr e) ∧ Form.mixed.graph doc = .ok (.ofExpr e) := by
  have hgraph {form : Form} {e : Expr Unit} (he : form.decode doc = .ok e) :
      form.graph doc = .ok (.ofExpr e) := by
    rw [Form.graph, he]
    rfl
  refine ⟨fun h => ?_, fun e he => ?_⟩
  · have hmixed : Form.mixed.decode doc = _ := Form.decodeAt_mixed h
    rw [← Form.decode] at hmixed
    cases htree : Form.tree.decode doc with
    | ok e =>
      rw [htree] at hmixed
      exact .inl ⟨e, rfl, hmixed, hgraph htree, hgraph hmixed⟩
    | error r =>
      obtain ⟨form, path, defect⟩ := r
      obtain rfl : form = .tree := Form.form_of_decodeAt htree
      rw [htree] at hmixed
      refine .inr ⟨path, defect, rfl, hmixed, ?_⟩
      cases defect with
      | unknownOperator error => exact .inl ⟨error, rfl, rfl, rfl, rfl, rfl⟩
      | _ => exact .inr ⟨nofun, rfl, rfl, rfl, rfl⟩
  · have hmixed := Form.decode_mixed_of_decode_tree he
    exact ⟨hmixed, hgraph he, hgraph hmixed⟩

/-- Two operands with defects, of which both forms report the first, by the same path. -/
theorem decode_tree_mixed_two_defects :
    (∀ items, ¬ IsNode (.obj [("op", .str "coalesce"), ("av", .arr [
      .obj [("op", .str "coalesce"), ("operands", .int 1)], .obj []])]) (.arr items)) ∧
    Form.tree.decode (.obj [("op", .str "coalesce"), ("av", .arr [
      .obj [("op", .str "coalesce"), ("operands", .int 1)], .obj []])])
        = .error ⟨.tree, [.operand 0], .invalidOperands⟩ ∧
    Form.mixed.decode (.obj [("op", .str "coalesce"), ("av", .arr [
      .obj [("op", .str "coalesce"), ("operands", .int 1)], .obj []])])
        = .error ⟨.mixed, [.operand 0], .invalidOperands⟩ := by
  have hnode : ∀ items, ¬ IsNode (.obj [("op", .str "coalesce"), ("av", .arr [
      .obj [("op", .str "coalesce"), ("operands", .int 1)], .obj []])]) (.arr items) := by
    rintro items h
    obtain h | ⟨operands, hoperands, operand, hmem, h⟩ := IsNode.iff.1 h
    · cases h
    · cases hoperands
      rw [List.mem_cons, List.mem_singleton] at hmem
      obtain rfl | rfl := hmem
      · obtain h | ⟨_, hnone, -⟩ := IsNode.iff.1 h
        · cases h
        · cases hnone
      · obtain h | ⟨_, hnone, _, hmem, -⟩ := IsNode.iff.1 h
        · cases h
        · cases hnone
          cases hmem
  have htree : Form.tree.decode (.obj [("op", .str "coalesce"), ("av", .arr [
      .obj [("op", .str "coalesce"), ("operands", .int 1)], .obj []])])
        = .error ⟨.tree, [.operand 0], .invalidOperands⟩ := by
    have hfirst : Form.tree.decodeAt [.operand 0]
        (.obj [("op", .str "coalesce"), ("operands", .int 1)])
          = .error ⟨.tree, [.operand 0], .invalidOperands⟩ := Form.decodeAt_of_defect rfl
    have hview : Form.tree.view (.obj [("op", .str "coalesce"), ("av", .arr [
        .obj [("op", .str "coalesce"), ("operands", .int 1)], .obj []])])
          = .ok (.op .coalesce [(.operand 0, .obj [("op", .str "coalesce"), ("operands", .int 1)]),
            (.operand 1, .obj [])]) := rfl
    rw [Form.decode, Form.decodeAt_op hview, List.mapM_cons, List.nil_append, hfirst]
    rfl
  obtain ⟨e, he, -⟩ | ⟨path, defect, herror, hmixed, -⟩ := (decode_tree_mixed _).1 hnode
  · cases htree.symm.trans he
  · cases htree.symm.trans herror
    exact ⟨hnode, htree, hmixed⟩

end OpTree.Document
