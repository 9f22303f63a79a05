import OpTree.Document.Decode
import OpTree.Document.Encode
import OpTree.Graph.Basic

/-!
# Normal forms of documents

A document may spell each of its operators in either form, and leave operands out. It is normalized
by decoding it and writing the expression in one form throughout. The graph of a document has the
nodes of the expression bottom-up, operands from left to right.
-/

namespace OpTree.Document

/-- The document with all operators in array form. -/
def arrayForm (doc : Json) : Except Rejection Json :=
  (Form.mixed.decode doc).map Expr.toArray

/-- The document with all operators in tree form. -/
def treeForm (doc : Json) : Except Rejection Json :=
  (Form.mixed.decode doc).map Expr.toTree

/-- The graph of a document, which holds nothing else. -/
def Form.graph (form : Form) (doc : Json) : Except Rejection Graph :=
  (form.decode doc).map Graph.ofExpr

end OpTree.Document
