import OpTree.Expr.Basic

/-!
# Reading documents

A document is read one node at a time. There are two readers. The tree form writes every operator
as an object (`viewTree`). The mixed form has arrays as well, at any depth (`viewMixed`), which give
the number of the operator and not its name. An object is the same to both (`viewObject`).

A reader says what a node is, a literal or an operator with its operands, or what is wrong with it.
It views the root and then decodes the operands from left to right (`decodeTreeAt`,
`decodeMixedAt`), so that the first defect in document order is the one reported, with the path that
leads to it.
-/

namespace OpTree.Document

/-! ### Paths -/

/-- One step from a node to one of its operands. -/
inductive Step where
  /-- To an item of an array. -/
  | item (index : Nat)
  /-- To an item of an object's operand list. -/
  | operand (index : Nat)
deriving DecidableEq, Repr

/-- The text of a step. -/
def Step.display : Step → String
  | item i => s!"[{i}]"
  | operand i => s!".operands[{i}]"

/-- The text of the path that leads from the root through the given steps. -/
def displayPath (path : List Step) : String :=
  "$" ++ String.join (path.map Step.display)

/-! ### Nodes -/

/-- What is wrong with a node. -/
inductive Defect where
  | nonFinite
  | notNode
  | invalidOperator
  | invalidOperands
  | unknownOperator (error : OperatorError)
deriving DecidableEq, Repr

/-- A node: a literal, or an operator with its operands and the steps to them. -/
inductive Shape where
  | literal (value : Scalar)
  | op (code : Operator) (operands : List (Step × Json))

/-- Which documents are admitted. -/
inductive Form where
  | tree
  | mixed
deriving DecidableEq, Repr

/-- The operand list of an object: its `operands`, else its `av`; none of either, or null, stands
for the empty list. -/
def operandList? (doc : Json) : Option (List Json) :=
  match (doc.field? "operands").or (doc.field? "av") with
  | some (.arr items) => some items
  | none | some .null => some []
  | some _ => none

/-- Views an object. -/
def viewObject (doc : Json) : Except Defect Shape :=
  match doc.field? "op" with
  | some (.str name) =>
    match Operator.ofName name with
    | .error error => .error (.unknownOperator error)
    | .ok code =>
      match operandList? doc with
      | some items => .ok (.op code (items.zipIdx.map fun (item, i) => (.operand i, item)))
      | none => .error .invalidOperands
  | _ => .error .invalidOperator

/-- Views an array. -/
def viewArray : List Json → Except Defect Shape
  | [] => .error .notNode
  | head :: operands =>
    match head.unsigned? with
    | none => .error .invalidOperator
    | some number =>
      match Operator.ofNumber number with
      | .error error => .error (.unknownOperator error)
      | .ok code => .ok (.op code (operands.zipIdx.map fun (item, i) => (.item (i + 1), item)))

/-- What the root of a tree document is, or what is wrong with it. -/
def viewTree (doc : Json) : Except Defect Shape :=
  match Scalar.ofJson? doc with
  | some s => .ok (.literal s)
  | none =>
    match doc with
    | .obj _ => viewObject doc
    | .int _ | .float _ => .error .nonFinite
    | _ => .error .notNode

/-- What the root of a mixed document is, or what is wrong with it. -/
def viewMixed (doc : Json) : Except Defect Shape :=
  match Scalar.ofJson? doc with
  | some s => .ok (.literal s)
  | none =>
    match doc with
    | .arr items => viewArray items
    | .obj _ => viewObject doc
    | .int _ | .float _ => .error .nonFinite
    | _ => .error .notNode

/-- How the nodes of a form are viewed. -/
def Form.view : Form → Json → Except Defect Shape
  | tree => viewTree
  | mixed => viewMixed

/-! ### The operands are smaller than the node -/

private theorem sizeOf_lt_of_lookup {name : String} {value : Json} :
    {fields : List (String × Json)} → fields.lookup name = some value →
      sizeOf value < sizeOf fields
  | [], h => by simp at h
  | (key, v) :: rest, h => by
    by_cases hk : name = key
    · subst hk
      simp only [List.lookup_cons_self, Option.some.injEq] at h
      subst h
      simp
      omega
    · have hr : rest.lookup name = some value := by
        simpa [List.lookup_cons, beq_eq_false_iff_ne.2 hk] using h
      have := sizeOf_lt_of_lookup hr
      simp
      omega

private theorem sizeOf_lt_of_field {name : String} {doc value : Json}
    (h : doc.field? name = some value) : sizeOf value < sizeOf doc := by
  cases doc with
  | obj fields =>
    have := sizeOf_lt_of_lookup h
    simp
    omega
  | _ => simp [Json.field?] at h

private theorem sizeOf_lt_of_mem_zipIdx (step : Nat → Step) {items : List Json} {o : Step × Json}
    (h : o ∈ items.zipIdx.map fun (item, i) => (step i, item)) : sizeOf o.2 < sizeOf items := by
  obtain ⟨⟨item, i⟩, hm, rfl⟩ := List.mem_map.1 h
  exact List.sizeOf_lt_of_mem (List.fst_mem_of_mem_zipIdx hm)

private theorem sizeOf_operandList {doc : Json} {items : List Json}
    (h : operandList? doc = some items) (hne : items ≠ []) : sizeOf items < sizeOf doc := by
  simp only [operandList?] at h
  split at h
  · rename_i items' hf
    cases h
    rcases Option.or_eq_some_iff.1 hf with hf | ⟨_, hf⟩ <;>
    · have := sizeOf_lt_of_field hf
      simp at this
      omega
  · simp_all
  · simp_all
  · simp at h

private theorem viewObject_operand_lt {doc : Json} {code : Operator}
    {operands : List (Step × Json)} (h : viewObject doc = .ok (.op code operands))
    {o : Step × Json} (ho : o ∈ operands) : sizeOf o.2 < sizeOf doc := by
  simp only [viewObject] at h
  split at h <;> try cases h
  split at h <;> try cases h
  split at h <;> cases h
  rename_i items hi _
  have hlt := sizeOf_lt_of_mem_zipIdx .operand ho
  have := sizeOf_operandList hi (by rintro rfl; simp at ho)
  omega

private theorem viewArray_operand_lt {items : List Json} {code : Operator}
    {operands : List (Step × Json)} (h : viewArray items = .ok (.op code operands))
    {o : Step × Json} (ho : o ∈ operands) : sizeOf o.2 < sizeOf items := by
  cases items with
  | nil => cases h
  | cons head rest =>
    simp only [viewArray] at h
    split at h <;> try cases h
    split at h <;> cases h
    have := sizeOf_lt_of_mem_zipIdx (fun i => .item (i + 1)) ho
    simp
    omega

/-- Every operand is a proper part of its node, so that decoding a tree document ends. -/
theorem viewTree_operand_lt {doc : Json} {code : Operator} {operands : List (Step × Json)}
    (h : viewTree doc = .ok (.op code operands)) {o : Step × Json} (ho : o ∈ operands) :
    sizeOf o.2 < sizeOf doc := by
  simp only [viewTree] at h
  split at h
  · cases h
  · split at h
    · exact viewObject_operand_lt h ho
    all_goals cases h

/-- Every operand is a proper part of its node, so that decoding a mixed document ends. -/
theorem viewMixed_operand_lt {doc : Json} {code : Operator} {operands : List (Step × Json)}
    (h : viewMixed doc = .ok (.op code operands)) {o : Step × Json} (ho : o ∈ operands) :
    sizeOf o.2 < sizeOf doc := by
  simp only [viewMixed] at h
  split at h
  · cases h
  · split at h
    · have := viewArray_operand_lt h ho
      simp
      omega
    · exact viewObject_operand_lt h ho
    all_goals cases h

/-! ### Decoding -/

/-- Why a document was refused: the first defect, and the path to it. -/
structure Rejection where
  form : Form
  path : List Step
  defect : Defect
deriving DecidableEq, Repr

/-- Decodes the part of a tree document that `path` leads to. -/
def decodeTreeAt (path : List Step) (doc : Json) : Except Rejection (Expr Unit) :=
  match _h : viewTree doc with
  | .error defect => .error ⟨.tree, path, defect⟩
  | .ok (.literal s) => .ok (.lit () s)
  | .ok (.op code operands) => do
    let es ← operands.attach.mapM fun ⟨(step, item), _⟩ => decodeTreeAt (path ++ [step]) item
    return .op () code es
termination_by sizeOf doc
decreasing_by
  exact viewTree_operand_lt ‹viewTree doc = _› ‹_ ∈ operands›

/-- Decodes the part of a mixed document that `path` leads to. -/
def decodeMixedAt (path : List Step) (doc : Json) : Except Rejection (Expr Unit) :=
  match _h : viewMixed doc with
  | .error defect => .error ⟨.mixed, path, defect⟩
  | .ok (.literal s) => .ok (.lit () s)
  | .ok (.op code operands) => do
    let es ← operands.attach.mapM fun ⟨(step, item), _⟩ => decodeMixedAt (path ++ [step]) item
    return .op () code es
termination_by sizeOf doc
decreasing_by
  exact viewMixed_operand_lt ‹viewMixed doc = _› ‹_ ∈ operands›

/-- Decodes the part of a document of the form that `path` leads to. -/
def Form.decodeAt : Form → List Step → Json → Except Rejection (Expr Unit)
  | tree => decodeTreeAt
  | mixed => decodeMixedAt

/-- Decodes a document. -/
def Form.decode (form : Form) (doc : Json) : Except Rejection (Expr Unit) :=
  form.decodeAt [] doc

/-- What a defect is called in messages. -/
def Defect.reason : Defect → String
  | nonFinite => "non-finite number"
  | notNode => "expected a scalar or an \x7bop, operands\x7d object"
  | invalidOperator => "missing or invalid op"
  | invalidOperands => "operands must be an array"
  | unknownOperator error => error.message

/-- The text of a rejection. An unknown operator speaks for itself; of the other defects only the
tree form gives the reason. -/
def Rejection.message (r : Rejection) : String :=
  match r.defect, r.form with
  | .unknownOperator error, _ => error.message
  | defect, .tree => s!"Invalid node at {displayPath r.path}: {defect.reason}"
  | _, .mixed => s!"Invalid input at {displayPath r.path}"

end OpTree.Document
