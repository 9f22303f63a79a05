import OpTree.Graph.Basic

/-!
# Building stores

A store is built by allocating one node after another. The address of a node is its position, so an
address that was given out once stays good whatever is allocated later: an operator is allocated
after its operands, and refers to them by the addresses that they got.

A part of one store is copied into another by walking the one and allocating in the other. A node
that is an operand in several places is copied once for each of them.
-/

namespace OpTree

namespace Store

/-- Allocates a node, which gets the next address. -/
def alloc {m : Type → Type} [Monad m] (node : Node) : StateT Store m NodeId := fun store =>
  pure (⟨store.size⟩, store.push node)

/-- Copies the part of `source` below a node, at most `depth` nodes deep. -/
def copyWithin (source : Store) : Nat → NodeId → StateT Store Option NodeId
  | 0, _ => failure
  | depth + 1, id =>
    match source[id.index]? with
    | none => failure
    | some (.lit s) => alloc (.lit s)
    | some (.op code operands) => do
      let copied ← operands.mapM (source.copyWithin depth)
      alloc (.op code copied)

/-- Copies the part of `source` below a node and gives the address of the copy; it fails only on a
dangling address or a cycle below the node. Without a cycle no node comes twice on the way down, so
that the walk need not go deeper than there are nodes in `source`. -/
def copySubtree (source : Store) (id : NodeId) : StateT Store Option NodeId :=
  source.copyWithin source.size id

end Store

/-! ### Addresses in 32 bits -/

/-- What 32 bits keep of an address. -/
def NodeId.narrow (id : NodeId) : NodeId :=
  ⟨(UInt32.ofNat id.index).toNat⟩

theorem NodeId.narrow_eq_self {id : NodeId} (h : id.index < UInt32.size) : id.narrow = id := by
  rw [narrow, UInt32.toNat_ofNat_of_lt' h]

/-- The node with what 32 bits keep of the addresses in it. -/
def Node.narrow : Node → Node
  | lit s => lit s
  | op code operands => op code (operands.map NodeId.narrow)

theorem Node.narrow_eq_self {node : Node} (h : ∀ code operands, node = .op code operands →
    ∀ o ∈ operands, o.index < UInt32.size) : node.narrow = node := by
  cases node with
  | lit => rfl
  | op code operands =>
    have hoperands : operands.map NodeId.narrow = operands.map fun o => o :=
      List.map_congr_left fun o ho => NodeId.narrow_eq_self (h code operands rfl o ho)
    rw [narrow, hoperands, List.map_id']

end OpTree
