import OpTree.Graph.Basic

/-!
# Unfolding a store

A store whose nodes refer to one another in any order, operands after the node included, is unfolded
by settling its nodes: a node is settled once all its operands are. `Store.unfoldFrom?` settles
nodes until the wanted one is; it fails only on a dangling address or a cycle below it. A node that
is an operand in several places is unfolded once and its expression shared, so that the work is
bounded by the size of the store and not by that of the expression.
-/

namespace OpTree.Store

/-- An expression that the store unfolds to, with its extent. -/
structure Unfolded (store : Store) where
  tree : Expr NodeId
  unfolds : store.Unfolds tree
  extent : Extent
  extent_eq : extent = tree.extent

/-- What the nodes settled so far unfold to. -/
private abbrev Settled (store : Store) := Array (Option store.Unfolded)

/-- What a node unfolds to whose operands are settled. -/
private def settleNode (store : Store) (settled : Settled store) (id : NodeId) :
    Option store.Unfolded :=
  match h : store[id.index]? with
  | none => none
  | some (.lit s) => some ⟨.lit id s, .lit h, ⟨0, 0⟩, (Expr.extent_lit id s).symm⟩
  | some (.op c operands) => do
    let found ← operands.mapM fun o => (settled[o.index]?).join
    let trees := found.map Unfolded.tree
    if hl : trees.map Expr.label = operands then
      return {
        tree := .op id c trees
        unfolds := .op (by rw [hl]; exact h) fun e he => by
          obtain ⟨x, _, rfl⟩ := List.mem_map.1 he
          exact x.unfolds
        extent := .ofOperands c (found.map Unfolded.extent)
        extent_eq := by
          have he : found.map Unfolded.extent = trees.map Expr.extent := by
            rw [List.map_map]
            exact List.map_congr_left fun x _ => x.extent_eq
          rw [he, Expr.extent_op] }
    else
      none

/-- Settles every node that can be settled now, in the order of their addresses. -/
private def settlePass (store : Store) (settled : Settled store) : Settled store :=
  (List.range store.size).foldl (fun settled i =>
    match settled[i]? with
    | some none => settled.set! i (store.settleNode settled ⟨i⟩)
    | _ => settled) settled

/-- Makes passes until the wanted node is settled, at most `fuel` of them. -/
private def settle (store : Store) (id : NodeId) : Nat → Settled store → Settled store
  | 0, settled => settled
  | fuel + 1, settled =>
    match (settled[id.index]?).join with
    | some _ => settled
    | none => store.settle id fuel (store.settlePass settled)

/-- The expression that a store unfolds to from an address. Each pass settles at least one more
node below the address, so that as many passes as there are nodes suffice. -/
def unfoldFrom? (store : Store) (id : NodeId) : Option store.Unfolded :=
  let settled := store.settle id store.size (Array.replicate store.size none)
  (settled[id.index]?).join

end OpTree.Store

namespace OpTree.Graph

/-- The graph of a store with a given root. -/
def ofStore? (store : Store) (root : NodeId) : Option Graph :=
  (store.unfoldFrom? root).map fun u => ⟨store, u.tree, u.unfolds, u.extent, u.extent_eq⟩

/-- The graph with the same store and another root. -/
def rerooted? (g : Graph) (root : NodeId) : Option Graph :=
  ofStore? g.nodes root

end OpTree.Graph
