import OpTree.Graph.Build
import OpTree.Proofs.Graph.Acyclic

/-!
# Where the nodes of an expression are placed

Placing an expression adds one node for each of its nodes (`size_place`), the root last
(`index_root_place`), and every operator refers to nodes that were added with it and before it
(`descendsFrom_place`). The store unfolds to the expression that was placed, but for the labels
(`erase_place`).

Whoever finds the parts of an expression one at a time, and allocates each node as soon as its
operands have been, ends up with the same store as if the whole expression had been placed
(`mapM_place_op`). This is what building from a document and copying have in common.
-/

namespace OpTree

open List Store

namespace Expr

variable {α β : Type}

/-- Placing an expression, of which only the address of the root is kept. -/
def placeRoot (e : Expr α) (store : Store) : NodeId × Store :=
  Prod.map label id (place e store)

/-- Placing several expressions, of which only the addresses of the roots are kept. -/
def placeRoots (es : List (Expr α)) (store : Store) : List NodeId × Store :=
  Prod.map (List.map label) id (placeAll es store)

mutual

/-- Every node of the expression is added once. -/
theorem size_place : (e : Expr α) → (store : Store) →
    (place e store).2.size = store.size + e.size
  | lit _ s, store => Array.size_push _
  | op _ c es, store => by
    have hall : (placeAll es store).2.size = store.size + sizeAll es := size_placeAll es store
    calc (place (op _ c es) store).2.size = (placeAll es store).2.size + 1 := Array.size_push _
      _ = store.size + (op _ c es).size := by rw [hall, size, Nat.add_assoc]

private theorem size_placeAll : (es : List (Expr α)) → (store : Store) →
    (placeAll es store).2.size = store.size + sizeAll es
  | [], _ => rfl
  | e :: es, store => by
    calc (placeAll (e :: es) store).2.size = (placeAll es (place e store).2).2.size := rfl
      _ = (place e store).2.size + sizeAll es := size_placeAll es _
      _ = store.size + sizeAll (e :: es) := by rw [size_place e store, sizeAll, Nat.add_assoc]

end

/-- The root is added last. -/
theorem index_root_place (e : Expr α) (store : Store) :
    (place e store).1.label.index + 1 = (place e store).2.size := by
  cases e <;> exact (Array.size_push _).symm

mutual

/-- The expression is the same but for its labels. -/
theorem erase_place : (e : Expr α) → (store : Store) → (place e store).1.erase = e.erase
  | lit _ s, store => rfl
  | op a c es, store => by
    rw [erase_op a, ← map_erase_placeAll es store, ← erase_op ⟨(placeAll es store).2.size⟩]
    rfl

private theorem map_erase_placeAll : (es : List (Expr α)) → (store : Store) →
    (placeAll es store).1.map erase = es.map erase
  | [], _ => rfl
  | e :: es, store => by
    rw [map_cons, ← erase_place e store, ← map_erase_placeAll es (place e store).2]
    rfl

end

/-- The roots are among the nodes that are added. -/
theorem index_roots_placeAll (es : List (Expr α)) (store : Store) :
    ∀ x ∈ (placeAll es store).1,
      store.size ≤ x.label.index ∧ x.label.index < (placeAll es store).2.size := by
  induction es generalizing store with
  | nil => exact forall_mem_nil _
  | cons e es ih =>
    have hroot := index_root_place e store
    have hsize := size_place e store
    have hrest : (placeAll (e :: es) store).2.size = (place e store).2.size + sizeAll es :=
      size_placeAll es _
    have hpos : 0 < e.size := by cases e <;> exact Nat.succ_pos _
    refine forall_mem_cons.2 ⟨by omega, fun x hx => ?_⟩
    have hx := ih (place e store).2 x hx
    exact ⟨by omega, hx.2⟩

mutual

private theorem descendsFrom_place_of : {base : Nat} → (e : Expr α) → (store : Store) →
    base ≤ store.size → DescendsFrom base store → DescendsFrom base (place e store).2
  | _, lit _ s, store, _, h => h.push (by simp)
  | base, op _ c es, store, hbase, h => by
    refine (descendsFrom_placeAll_of es store hbase h).push ?_
    rintro _ _ ⟨⟩ o ho
    obtain ⟨x, hx, rfl⟩ := mem_map.1 ho
    have hx := index_roots_placeAll es store x hx
    exact ⟨Nat.le_trans hbase hx.1, hx.2⟩

private theorem descendsFrom_placeAll_of : {base : Nat} → (es : List (Expr α)) → (store : Store) →
    base ≤ store.size → DescendsFrom base store → DescendsFrom base (placeAll es store).2
  | _, [], store, _, h => h
  | base, e :: es, store, hbase, h => by
    have hsize := size_place e store
    exact descendsFrom_placeAll_of es (place e store).2 (by omega)
      (descendsFrom_place_of e store hbase h)

end

/-- Every operator that is added refers to nodes that were added with it, before it. -/
theorem descendsFrom_place (e : Expr α) (store : Store) :
    DescendsFrom store.size (place e store).2 :=
  descendsFrom_place_of e store (Nat.le_refl _) (descendsFrom_size store)

/-- If 32 bits are enough for the size of the store, they are enough for every address in the nodes
that are added. -/
theorem narrow_of_place {e : Expr α} {store : Store} {i : Nat} {node : Node}
    (h : (place e store).2.size ≤ UInt32.size) (hi : store.size ≤ i)
    (hnode : (place e store).2[i]? = some node) : node.narrow = node := by
  refine Node.narrow_eq_self ?_
  rintro code operands rfl o ho
  have hoperand := (descendsFrom_place e store i code operands hi hnode o ho).2
  have hlt := lt_size_of_getElem? hnode
  omega

/-! ### Placing a part at a time -/

section

variable {m : Type → Type} [Monad m] [LawfulMonad m] {f : β → StateT Store m NodeId}
  {d : β → m (Expr α)} {xs : List β}

/-- Expressions that are found one by one, by `d`, are placed by placing each as it is found. -/
private theorem mapM_place (h : ∀ x ∈ xs, ∀ store, f x store = (placeRoot · store) <$> d x)
    (store : Store) :
    xs.mapM f store = (placeRoots · store) <$> xs.mapM d := by
  induction xs generalizing store with
  | nil =>
    rw [mapM_nil, mapM_nil, map_pure]
    rfl
  | cons x xs ih =>
    rw [forall_mem_cons] at h
    have hrest := ih h.2
    calc (x :: xs).mapM f store
        = f x store >>= fun p => xs.mapM f p.2 >>= fun q => pure (p.1 :: q.1, q.2) := by
          rw [mapM_cons]
          rfl
      _ = d x >>= fun e => xs.mapM d >>= fun es => pure (placeRoots (e :: es) store) := by
          simp only [h.1, hrest, bind_map_left]
          rfl
      _ = (placeRoots · store) <$> (x :: xs).mapM d := by
          simp only [mapM_cons, map_bind, map_pure]

/-- An operator is placed by placing its operands as they are found, and allocating it then. -/
theorem mapM_place_op (h : ∀ x ∈ xs, ∀ store, f x store = (placeRoot · store) <$> d x) (a : α)
    (code : Operator) (store : Store) :
    (xs.mapM f >>= fun ids => alloc (.op code ids)) store
      = (fun es => placeRoot (op a code es) store) <$> xs.mapM d := by
  calc (xs.mapM f >>= fun ids => alloc (.op code ids)) store
      = xs.mapM f store >>= fun p => alloc (.op code p.1) p.2 := rfl
    _ = (fun es => placeRoot (op a code es) store) <$> xs.mapM d := by
      rw [mapM_place h, bind_map_left, map_eq_pure_bind]
      rfl

end

end Expr

end OpTree
