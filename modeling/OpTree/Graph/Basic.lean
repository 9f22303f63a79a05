import OpTree.Expr.Extent

/-!
# Graphs

A store holds nodes one after another, each addressed by its position; an operator refers to its
operands by address. `Unfolds store e` says that the located expression `e` is what one gets by
following the addresses in the store from the root of `e`. A `Graph` is a store with such an
expression, so that it has neither a dangling address nor a cycle below its root. Nodes that the
root does not reach may be present, and a node may be an operand in several places.

Expressions are added to a store bottom-up: the operands of a node come before it, from left to
right. Main statements: adding keeps what the store held (`Grows`), and `Expr.place` returns an
expression that the store unfolds to (`unfolds_place`).
-/

namespace OpTree

/-- The address of a node. -/
structure NodeId where
  index : Nat
deriving DecidableEq, Repr, Inhabited

/-- The text of an address. -/
def NodeId.display (id : NodeId) : String :=
  s!"#{id.index}"

/-- A node of a store. -/
inductive Node where
  | lit (value : Scalar)
  | op (code : Operator) (operands : List NodeId)
deriving DecidableEq, Inhabited

/-- Nodes in the order in which they were added. -/
abbrev Store := Array Node

namespace Store

/-- Following the addresses from the root of the expression gives the expression. -/
inductive Unfolds (store : Store) : Expr NodeId → Prop
  | lit {id : NodeId} {s : Scalar} : store[id.index]? = some (.lit s) → Unfolds store (.lit id s)
  | op {id : NodeId} {c : Operator} {es : List (Expr NodeId)} :
    store[id.index]? = some (.op c (es.map Expr.label)) → (∀ e ∈ es, Unfolds store e) →
      Unfolds store (.op id c es)

/-- Every node of `store` is still at its address in `later`. -/
def Grows (store later : Store) : Prop :=
  ∀ (i : Nat) (node : Node), store[i]? = some node → later[i]? = some node

theorem Grows.refl (store : Store) : Grows store store := fun _ _ h => h

theorem Grows.trans {a b c : Store} (hab : Grows a b) (hbc : Grows b c) : Grows a c :=
  fun i node h => hbc i node (hab i node h)

/-- A new node leaves the others where they are. -/
theorem grows_push (store : Store) (node : Node) : Grows store (store.push node) := by
  intro i n h
  have hi : i < store.size := (Array.getElem?_eq_some_iff.1 h).1
  rw [Array.getElem?_push_lt hi]
  simpa [Array.getElem?_eq_getElem hi] using h

/-- What a store unfolds to, a later one does. -/
theorem Unfolds.mono {store later : Store} (hg : Grows store later) {e : Expr NodeId}
    (h : Unfolds store e) : Unfolds later e := by
  induction h with
  | lit h => exact .lit (hg _ _ h)
  | op h _ ih => exact .op (hg _ _ h) ih

/-! ### Adding nodes -/

/-- Adds a literal. -/
def addLit (s : Scalar) : StateM Store (Expr NodeId) := fun store =>
  (.lit ⟨store.size⟩ s, store.push (.lit s))

/-- Adds an operator over expressions that are in the store. -/
def addOp (c : Operator) (es : List (Expr NodeId)) : StateM Store (Expr NodeId) := fun store =>
  (.op ⟨store.size⟩ c es, store.push (.op c (es.map Expr.label)))

/-- The literal that was added is there. -/
theorem unfolds_addLit (s : Scalar) (store : Store) :
    Unfolds (addLit s store).2 (addLit s store).1 :=
  .lit (by simp [addLit])

/-- The operator that was added is there, over operands that are. -/
theorem unfolds_addOp (c : Operator) {es : List (Expr NodeId)} {store : Store}
    (h : ∀ e ∈ es, Unfolds store e) : Unfolds (addOp c es store).2 (addOp c es store).1 :=
  .op (by simp [addOp]) fun e he => (h e he).mono (grows_push _ _)

end Store

namespace Expr

open Store

variable {α : Type}

mutual

/-- Adds a copy of an expression to a store, the operands of a node before the node. -/
def place : Expr α → StateM Store (Expr NodeId)
  | lit _ s => addLit s
  | op _ c es => do
    let placed ← placeAll es
    addOp c placed

/-- Adds copies of several expressions, one after the other. -/
def placeAll : List (Expr α) → StateM Store (List (Expr NodeId))
  | [] => return []
  | e :: es => do
    let placed ← place e
    let rest ← placeAll es
    return placed :: rest

end

mutual

/-- Placing an expression adds nodes, and the store unfolds to it. -/
private theorem place_spec : (e : Expr α) → (store : Store) →
    Grows store (place e store).2 ∧ Unfolds (place e store).2 (place e store).1
  | lit _ s, store => ⟨grows_push _ _, unfolds_addLit s store⟩
  | op _ c es, store => by
    obtain ⟨hg, hu⟩ := placeAll_spec es store
    simp only [place]
    exact ⟨hg.trans (grows_push _ _), unfolds_addOp c hu⟩

private theorem placeAll_spec : (es : List (Expr α)) → (store : Store) →
    Grows store (placeAll es store).2 ∧
      ∀ e ∈ (placeAll es store).1, Unfolds (placeAll es store).2 e
  | [], store => ⟨.refl _, fun e he => by cases he⟩
  | e :: es, store => by
    obtain ⟨hg, hu⟩ := place_spec e store
    obtain ⟨hgs, hus⟩ := placeAll_spec es (place e store).2
    refine ⟨hg.trans hgs, fun x hx => ?_⟩
    rcases List.mem_cons.1 hx with rfl | hx
    · exact hu.mono hgs
    · exact hus x hx

end

/-- Placing an expression leaves the nodes of the store where they are. -/
theorem grows_place (e : Expr α) (store : Store) : Grows store (place e store).2 :=
  (place_spec e store).1

/-- Placing expressions leaves the nodes of the store where they are. -/
theorem grows_placeAll (es : List (Expr α)) (store : Store) :
    Grows store (placeAll es store).2 :=
  (placeAll_spec es store).1

/-- The store unfolds to the expression that was placed in it. -/
theorem unfolds_place (e : Expr α) (store : Store) :
    Unfolds (place e store).2 (place e store).1 :=
  (place_spec e store).2

end Expr

/-- A store and the expression that it unfolds to from its root. Where nodes are shared the
expression can be far larger than the store, and so its extent is kept with it. -/
structure Graph where
  nodes : Store
  tree : Expr NodeId
  unfolds : nodes.Unfolds tree
  extent : Extent := tree.extent
  extent_eq : extent = tree.extent := by rfl

namespace Graph

/-- The address of the root. -/
def root (g : Graph) : NodeId :=
  g.tree.label

/-- The graph of an expression that was built in a store. -/
def ofBuilt (built : Expr NodeId × Store) (unfolds : built.2.Unfolds built.1) : Graph :=
  { nodes := built.2, tree := built.1, unfolds }

/-- The graph that holds an expression and nothing else. -/
def ofExpr {α : Type} (e : Expr α) : Graph :=
  .ofBuilt (e.place #[]) (e.unfolds_place #[])

/-- Equality of the expressions, whatever the layout of the stores. -/
def equals (g h : Graph) : Bool :=
  g.tree.equals h.tree

end Graph

end OpTree
