import OpTree.Document.Build

/-!
# The two readers

A tree document and a mixed document are read by different code. Both readers view the root, stop at
a defect, and go through the operands of an operator from left to right, so what is true of both is
proved once, of a form: `Form.decodeAt_eq` and `Form.buildAt_eq_view` say what a reader does with a
node, and `Form.decodeAt_induction` is induction along the nodes that it visits.

The readers part at arrays only. Any other node is the same to both (`viewMixed_eq_viewTree`). The
tree reader refuses an array (`viewTree_arr`), the mixed one reads an operator in it
(`viewMixed_arr`).
-/

namespace OpTree.Document

open Store

variable {form : Form} {path : List Step} {doc : Json} {items : List Json} {code : Operator}
  {s : Scalar} {operands : List (Step × Json)} {defect : Defect} {es : List (Expr Unit)}

/-! ### One node -/

/-- Whatever is no array is the same node to both readers. -/
theorem viewMixed_eq_viewTree (h : ∀ items, doc ≠ .arr items) : viewMixed doc = viewTree doc := by
  cases doc with
  | arr items => exact absurd rfl (h items)
  | _ => rfl

/-- The tree reader takes no array for a node. -/
theorem viewTree_arr (items : List Json) : viewTree (.arr items) = .error .notNode :=
  rfl

/-- The mixed reader finds an operator in an array. -/
theorem viewMixed_arr (items : List Json) : viewMixed (.arr items) = viewArray items :=
  rfl

/-- An object is viewed alike by both readers. -/
theorem Form.view_obj (form : Form) (fields : List (String × Json)) :
    form.view (.obj fields) = viewObject (.obj fields) := by
  cases form <;> rfl

/-- A scalar is a literal to both readers. -/
theorem Form.view_of_ofJson? (h : Scalar.ofJson? doc = some s) :
    form.view doc = .ok (.literal s) := by
  cases form with
  | tree => rw [view, viewTree.eq_def, h]
  | mixed => rw [view, viewMixed.eq_def, h]

private theorem viewObject_ne_literal : viewObject doc ≠ .ok (.literal s) := by
  intro h
  simp only [viewObject] at h
  repeat' split at h
  all_goals cases h

private theorem viewArray_ne_literal : viewArray items ≠ .ok (.literal s) := by
  intro h
  cases items with
  | nil => cases h
  | cons head rest =>
    simp only [viewArray] at h
    repeat' split at h
    all_goals cases h

/-- Only a scalar is a literal. -/
theorem Form.ofJson?_of_view (h : form.view doc = .ok (.literal s)) :
    Scalar.ofJson? doc = some s := by
  cases form with
  | tree =>
    rw [view, viewTree.eq_def] at h
    split at h
    · cases h; assumption
    · split at h
      · exact absurd h viewObject_ne_literal
      all_goals cases h
  | mixed =>
    rw [view, viewMixed.eq_def] at h
    split at h
    · cases h; assumption
    · split at h
      · exact absurd h viewArray_ne_literal
      · exact absurd h viewObject_ne_literal
      all_goals cases h

/-! ### What a reader does with a node -/

/-- A reader stops at a defect, takes a literal as it is, and decodes the operands of an operator,
each along its own path. -/
theorem Form.decodeAt_eq (form : Form) (path : List Step) (doc : Json) :
    form.decodeAt path doc = match form.view doc with
      | .error defect => .error ⟨form, path, defect⟩
      | .ok (.literal s) => .ok (.lit () s)
      | .ok (.op code operands) =>
        (operands.mapM fun o => form.decodeAt (path ++ [o.1]) o.2).map (.op () code) := by
  have hattach (operands : List (Step × Json)) := List.mapM_subtype (l := operands.attach)
    (f := fun o => form.decodeAt (path ++ [o.1.1]) o.1.2)
    (g := fun o => form.decodeAt (path ++ [o.1]) o.2) fun _ _ => rfl
  simp only [List.unattach_attach] at hattach
  cases form with
  | tree =>
    simp only [decodeAt, view] at hattach ⊢
    rw [decodeTreeAt]
    split <;> rename_i h <;> rw [h]
    rename_i operands
    rw [hattach]
    dsimp only
    cases operands.mapM fun o => decodeTreeAt (path ++ [o.1]) o.2 <;> rfl
  | mixed =>
    simp only [decodeAt, view] at hattach ⊢
    rw [decodeMixedAt]
    split <;> rename_i h <;> rw [h]
    rename_i operands
    rw [hattach]
    dsimp only
    cases operands.mapM fun o => decodeMixedAt (path ++ [o.1]) o.2 <;> rfl

/-- A defect ends the decoding where it stands. -/
theorem Form.decodeAt_of_defect (h : form.view doc = .error defect) :
    form.decodeAt path doc = .error ⟨form, path, defect⟩ := by
  rw [decodeAt_eq, h]

/-- A literal is decoded to itself. -/
theorem Form.decodeAt_of_literal (h : form.view doc = .ok (.literal s)) :
    form.decodeAt path doc = .ok (.lit () s) := by
  rw [decodeAt_eq, h]

/-- An operator is decoded to the operator over what its operands are decoded to. -/
theorem Form.decodeAt_op (h : form.view doc = .ok (.op code operands)) :
    form.decodeAt path doc
      = (operands.mapM fun o => form.decodeAt (path ++ [o.1]) o.2).map (.op () code) := by
  rw [decodeAt_eq, h]

/-- An operator is decoded if its operands are. -/
theorem Form.decodeAt_of_op (h : form.view doc = .ok (.op code operands))
    (hes : operands.mapM (fun o => form.decodeAt (path ++ [o.1]) o.2) = .ok es) :
    form.decodeAt path doc = .ok (.op () code es) := by
  rw [decodeAt_op h, hes]
  rfl

/-- A reader that builds stops at a defect, allocates a literal, and allocates an operator after its
operands. -/
theorem Form.buildAt_eq_view (form : Form) (path : List Step) (doc : Json) :
    form.buildAt path doc = match form.view doc with
      | .error defect => throw ⟨form, path, defect⟩
      | .ok (.literal s) => alloc (.lit s)
      | .ok (.op code operands) =>
        (operands.mapM fun o => form.buildAt (path ++ [o.1]) o.2) >>= fun ids =>
          alloc (.op code ids) := by
  have hattach (operands : List (Step × Json)) := List.mapM_subtype (l := operands.attach)
    (f := fun o => form.buildAt (path ++ [o.1.1]) o.1.2)
    (g := fun o => form.buildAt (path ++ [o.1]) o.2) fun _ _ => rfl
  simp only [List.unattach_attach] at hattach
  cases form with
  | tree =>
    simp only [buildAt, view] at hattach ⊢
    rw [buildTreeAt]
    split <;> rename_i h <;> rw [h]
    rw [hattach]
  | mixed =>
    simp only [buildAt, view] at hattach ⊢
    rw [buildMixedAt]
    split <;> rename_i h <;> rw [h]
    rw [hattach]

/-! ### Induction -/

/-- Induction along the nodes that a reader visits: an operator may rely on its operands. -/
@[elab_as_elim]
theorem Form.decodeAt_induction (form : Form) {motive : List Step → Json → Prop}
    (defect : ∀ path doc defect, form.view doc = .error defect → motive path doc)
    (literal : ∀ path doc s, form.view doc = .ok (.literal s) → motive path doc)
    (op : ∀ path doc code operands, form.view doc = .ok (.op code operands) →
      (∀ step item, (step, item) ∈ operands → motive (path ++ [step]) item) → motive path doc)
    (path : List Step) (doc : Json) : motive path doc := by
  cases form with
  | tree => exact decodeTreeAt.induct motive defect literal op path doc
  | mixed => exact decodeMixedAt.induct motive defect literal op path doc

end OpTree.Document
