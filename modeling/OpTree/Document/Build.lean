import OpTree.Document.Decode
import OpTree.Graph.Build

/-!
# Building stores from documents

A document can be read into a store without an expression in between: every node is allocated as
soon as its operands have been, from left to right. Each form has its own reader (`buildTreeAt`,
`buildMixedAt`).
-/

namespace OpTree.Document

open Store

/-- Reads the part of a tree document that `path` leads to into a store, and gives the address of
its root. -/
def buildTreeAt (path : List Step) (doc : Json) : StateT Store (Except Rejection) NodeId :=
  match _h : viewTree doc with
  | .error defect => throw ⟨.tree, path, defect⟩
  | .ok (.literal s) => alloc (.lit s)
  | .ok (.op code operands) => do
    let ids ← operands.attach.mapM fun ⟨(step, item), _⟩ => buildTreeAt (path ++ [step]) item
    alloc (.op code ids)
termination_by sizeOf doc
decreasing_by
  exact viewTree_operand_lt ‹viewTree doc = _› ‹_ ∈ operands›

/-- Reads the part of a mixed document that `path` leads to into a store, and gives the address of
its root. -/
def buildMixedAt (path : List Step) (doc : Json) : StateT Store (Except Rejection) NodeId :=
  match _h : viewMixed doc with
  | .error defect => throw ⟨.mixed, path, defect⟩
  | .ok (.literal s) => alloc (.lit s)
  | .ok (.op code operands) => do
    let ids ← operands.attach.mapM fun ⟨(step, item), _⟩ => buildMixedAt (path ++ [step]) item
    alloc (.op code ids)
termination_by sizeOf doc
decreasing_by
  exact viewMixed_operand_lt ‹viewMixed doc = _› ‹_ ∈ operands›

/-- Reads the part of a document of the form that `path` leads to into a store. -/
def Form.buildAt : Form → List Step → Json → StateT Store (Except Rejection) NodeId
  | tree => buildTreeAt
  | mixed => buildMixedAt

/-- Reads a document into a new store. -/
def Form.build (form : Form) (doc : Json) : Except Rejection (NodeId × Store) :=
  (form.buildAt [] doc).run #[]

end OpTree.Document
