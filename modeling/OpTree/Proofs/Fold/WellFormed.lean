import OpTree.Proofs.Fold.Root
import OpTree.Proofs.Graph.Acyclic

/-!
# What folding builds

Folding adds nodes to a store and never changes them again: a literal, or an operator over nodes
that are there. So the operands of an operator come before it (`Store.Descends`), and there is at
most one node for each node of the expression, for its value or for what it is simplified to. Some
of them turn out not to be needed. What the root reaches has been simplified: there is no scope
without bindings in it, and no condition with a literal for a guard (`Tidy`).

Main statement: `Expr.wellFormed_of_optimize`.
-/

namespace OpTree

open List Store

variable {α β γ : Type}

/-! ### Nodes -/

namespace Store

/-- Following operands from the one node leads to the other. -/
inductive Reaches (store : Store) (id : NodeId) : NodeId → Prop
  | refl : Reaches store id id
  | operand {id' code operands o} : Reaches store id id' →
      store[id'.index]? = some (.op code operands) → o ∈ operands → Reaches store id o

end Store

/-- The operand is a guard of a condition: it stands at an even place, and is not the last one. -/
def IsGuard (operands : List γ) (x : γ) : Prop :=
  ∃ k, operands[2 * k]? = some x ∧ 2 * k + 1 < operands.length

/-- No scope in the expression is without bindings, and no condition has a literal for a guard. -/
inductive Tidy : Expr α → Prop
  | lit {a s} : Tidy (.lit a s)
  | op {a code es} : (code = .scope → es.length ≠ 1) →
      (code = .condition → ∀ g, IsGuard es g → g.literal? = none) → (∀ e ∈ es, Tidy e) →
      Tidy (.op a code es)

section

variable {store : Store} {id : NodeId} {code : Operator} {operands : List NodeId}
  {e : Expr NodeId} {es : List (Expr NodeId)}

namespace Store

theorem Descends.empty : Descends #[] := by
  intro i code operands h
  simp at h

/-- A literal has no operands. -/
theorem Descends.addLit (h : Descends store) (s : Scalar) : Descends (addLit s store).2 :=
  descendsFrom_zero.1 ((descendsFrom_zero.2 h).push (by simp))

/-- A new operator refers to nodes that are there. -/
theorem Descends.addOp (h : Descends store) (code : Operator) (hes : ∀ e ∈ es, Unfolds store e) :
    Descends (addOp code es store).2 := by
  refine descendsFrom_zero.1 ((descendsFrom_zero.2 h).push ?_)
  rintro _ _ ⟨⟩ o ho
  obtain ⟨e, he, rfl⟩ := mem_map.1 ho
  exact ⟨Nat.zero_le _, (hes e he).index_lt⟩

end Store

/-- A guard is the image of one. -/
theorem IsGuard.of_map {f : β → γ} {xs : List β} {y : γ} (h : IsGuard (xs.map f) y) :
    ∃ x, IsGuard xs x ∧ f x = y := by
  obtain ⟨k, hk, hlt⟩ := h
  rw [getElem?_map] at hk
  obtain ⟨x, hx, rfl⟩ := Option.map_eq_some_iff.1 hk
  exact ⟨x, ⟨k, hx, by rwa [length_map] at hlt⟩, rfl⟩

/-- A guard is one of the operands. -/
theorem IsGuard.mem {xs : List γ} {x : γ} (h : IsGuard xs x) : x ∈ xs := by
  obtain ⟨k, hk, -⟩ := h
  exact mem_of_getElem? hk

/-- Where there is an operator, the expression is that operator over what its operands unfold to. -/
theorem Store.Unfolds.eq_op (h : Unfolds store e)
    (hnode : store[e.label.index]? = some (.op code operands)) :
    ∃ es, e = .op e.label code es ∧ operands = es.map Expr.label ∧ ∀ x ∈ es, Unfolds store x := by
  cases h with
  | lit hlit => cases hlit.symm.trans hnode
  | @op _ _ es hop hes =>
    cases hop.symm.trans hnode
    exact ⟨es, rfl, rfl, hes⟩

/-- What is reached is unfolded to a part. -/
private theorem exists_unfolds_of_reaches (h : Unfolds store e) (htidy : Tidy e)
    (hreach : Reaches store e.label id) :
    ∃ x, Unfolds store x ∧ Tidy x ∧ x.label = id := by
  induction hreach with
  | refl => exact ⟨e, h, htidy, rfl⟩
  | operand _ hnode ho ih =>
    obtain ⟨x, hx, hxtidy, rfl⟩ := ih
    obtain ⟨es, hop, rfl, hes⟩ := hx.eq_op hnode
    obtain ⟨y, hy, rfl⟩ := mem_map.1 ho
    rw [hop] at hxtidy
    cases hxtidy with
    | op _ _ htidies => exact ⟨y, hes y hy, htidies y hy, rfl⟩

/-- What a tidy expression says of the nodes that its root reaches. -/
theorem Tidy.of_reaches (htidy : Tidy e) (h : Unfolds store e)
    (hreach : Reaches store e.label id) (hnode : store[id.index]? = some (.op code operands)) :
    (code = .condition → ∀ o, IsGuard operands o → ¬ ∃ s, store[o.index]? = some (.lit s)) ∧
      (code = .scope → operands.length ≠ 1) := by
  obtain ⟨x, hx, hxtidy, rfl⟩ := exists_unfolds_of_reaches h htidy hreach
  obtain ⟨es, hop, rfl, hes⟩ := hx.eq_op hnode
  rw [hop] at hxtidy
  cases hxtidy with
  | op hscope hguard _ =>
    constructor
    · rintro hcode o ho ⟨s, hs⟩
      obtain ⟨y, hy, rfl⟩ := ho.of_map
      have hnone := hguard hcode y hy
      cases hes y hy.mem with
      | lit => cases hnone
      | op hyop => cases hyop.symm.trans hs
    · intro hcode
      rw [length_map]
      exact hscope hcode

end

namespace Fold

/-! ### The store -/

section

variable {store : Store}

/-- Simplification leaves the store as it is, or adds an operator over some of the operands. -/
private theorem simplify_store (code : Operator) (es : List (Expr NodeId)) (store : Store) :
    (simplify code es store).2 = store ∨
      ∃ c ls, ls ⊆ es ∧ (simplify code es store).2 = (addOp c ls store).2 := by
  unfold simplify
  split
  · exact .inl rfl
  · have hsub : prune es ⊆ es := fun x hx => mem_of_mem_prune hx
    rcases hp : prune es with _ | ⟨f, _ | ⟨g, rest⟩⟩ <;> rw [hp] at hsub
    · exact .inr ⟨.condition, _, hsub, rfl⟩
    · exact .inl rfl
    · exact .inr ⟨.condition, _, hsub, rfl⟩
  · exact .inr ⟨_, _, Subset.refl _, rfl⟩

/-- Simplifying an operator adds one that refers to nodes that are there. -/
private theorem descends_simplify (h : Descends store) (code : Operator)
    {es : List (Expr NodeId)} (hes : ∀ e ∈ es, Unfolds store e) :
    Descends (simplify code es store).2 := by
  rcases simplify_store code es store with hs | ⟨c, ls, hls, hs⟩
  · rw [hs]
    exact h
  · rw [hs]
    exact h.addOp c fun e he => hes e (hls he)

mutual

/-- **Folding keeps operands below** their operators. -/
private theorem descends_fold : (e : Expr α) → (store : Store) → Descends store →
    Descends (fold e store).2
  | .lit _ s, store, h => h.addLit s
  | .op a code es, store, h => by
    rw [fold]
    cases constant? (.op a code es) with
    | some s => exact h.addLit s
    | none => exact descends_simplify (descends_foldAll es store h) code (unfolds_foldAll es store)

private theorem descends_foldAll : (es : List (Expr α)) → (store : Store) → Descends store →
    Descends (foldAll es store).2
  | [], _, h => h
  | e :: es, store, h => descends_foldAll es (fold e store).2 (descends_fold e store h)

end

private theorem size_addOp (code : Operator) (es : List (Expr NodeId)) (store : Store) :
    (addOp code es store).2.size = store.size + 1 :=
  Array.size_push _

/-- Simplifying adds one node at most. -/
private theorem size_simplify (code : Operator) (es : List (Expr NodeId)) (store : Store) :
    (simplify code es store).2.size ≤ store.size + 1 := by
  rcases simplify_store code es store with hs | ⟨c, ls, -, hs⟩
  · rw [hs]
    exact Nat.le_succ _
  · rw [hs, size_addOp]

mutual

/-- Folding adds at most one node for each node of the expression. -/
private theorem size_fold : (e : Expr α) → (store : Store) →
    (fold e store).2.size ≤ store.size + e.size
  | .lit _ s, store => Nat.le_of_eq (Array.size_push _)
  | .op a code es, store => by
    rw [fold, Expr.size]
    cases constant? (.op a code es) with
    | some s =>
      calc (addLit s store).2.size = store.size + 1 := Array.size_push _
        _ ≤ store.size + (Expr.sizeAll es + 1) := by omega
    | none =>
      have hall := size_foldAll es store
      calc (simplify code (foldAll es store).1 (foldAll es store).2).2.size
          ≤ (foldAll es store).2.size + 1 := size_simplify code _ _
        _ ≤ store.size + (Expr.sizeAll es + 1) := by omega

/-- Folding adds no more nodes than the expressions have. -/
private theorem size_foldAll : (es : List (Expr α)) → (store : Store) →
    (foldAll es store).2.size ≤ store.size + Expr.sizeAll es
  | [], _ => Nat.le_refl _
  | e :: es, store => by
    have hfirst := size_fold e store
    have hrest := size_foldAll es (fold e store).2
    calc (foldAll es (fold e store).2).2.size
        ≤ (fold e store).2.size + Expr.sizeAll es := hrest
      _ ≤ store.size + (e.size + Expr.sizeAll es) := by omega

end

/-- A literal is wrapped, which adds a node, and anything else leaves the store as it is. -/
private theorem foldRoot_store (e : Expr α) (store : Store) :
    (foldRoot e store).2 = (fold e store).2 ∨
      (foldRoot e store).2 = (addOp .expression [(fold e store).1] (fold e store).2).2 := by
  simp only [foldRoot, bind, StateT.bind]
  generalize fold e store = r
  obtain ⟨f, store⟩ := r
  cases f with
  | lit => exact .inr rfl
  | op => exact .inl rfl

/-- The wrapped root refers to nodes that are there, too. -/
private theorem descends_foldRoot (e : Expr α) : Descends (foldRoot e #[]).2 := by
  have h := descends_fold e #[] .empty
  rcases foldRoot_store e #[] with hs | hs
  · exact hs ▸ h
  · exact hs ▸ h.addOp _ (forall_mem_singleton.2 (unfolds_fold e #[]))

/-- Wrapping the root adds one node at most. -/
private theorem size_foldRoot (e : Expr α) : (foldRoot e #[]).2.size ≤ e.size + 1 := by
  have h : (fold e #[]).2.size ≤ 0 + e.size := size_fold e #[]
  rcases foldRoot_store e #[] with hs | hs
  · rw [hs]
    omega
  · rw [hs, size_addOp]
    omega

end

/-! ### The expression -/

/-- Pruning leaves no literal for a guard. -/
theorem literal?_of_isGuard_prune {es : List (Expr α)} {g : Expr α} (h : IsGuard (prune es) g) :
    g.literal? = none := by
  obtain ⟨k, hk, hlt⟩ := h
  fun_induction prune es generalizing k with
  | case1 guard value rest s hl hs => simp at hlt
  | case2 guard value rest s hl hs ih => exact ih k hk hlt
  | case3 guard value rest hl ih =>
    cases k with
    | zero =>
      cases hk
      exact hl
    | succ k =>
      refine ih k hk ?_
      simp only [length_cons] at hlt
      omega
  | case4 es hes =>
    -- at most one operand is left
    rcases es with _ | ⟨e, _ | ⟨value, rest⟩⟩
    · simp at hlt
    · simp at hlt
    · exact absurd rfl (hes e value rest)

/-- Whatever an expression folds to is tidy. -/
theorem tidy_of_folds {e : Expr α} {f : Expr β} (h : Folds e f) : Tidy f := by
  induction e generalizing f with
  | lit => cases h; exact .lit
  | op a code es ih =>
    have hall {fs : List (Expr β)} (hfs : Forall₂ Folds es fs) : ∀ f ∈ fs, Tidy f := by
      intro f hf
      obtain ⟨e, he, h⟩ := exists_of_mem hfs hf
      exact ih e he h
    cases h with
    | constant => exact .lit
    | operator _ hne hscope hfs => exact .op hscope (fun hcode => absurd hcode hne) (hall hfs)
    | scope _ h => exact ih _ mem_cons_self h
    | condition _ hfs _ =>
      exact .op (by rintro ⟨⟩) (fun _ _ => literal?_of_isGuard_prune) fun f hf =>
        hall hfs f (mem_of_mem_prune hf)
    | choice _ hfs hp => exact hall hfs f (mem_of_mem_prune (hp ▸ mem_cons_self))

private theorem tidy_foldRoot (e : Expr α) : Tidy (foldRoot e #[]).1 := by
  have h := tidy_of_folds (folds_fold e #[])
  rcases foldRoot_cases e with ⟨b, s, b', hfold, hroot⟩ | ⟨-, hroot⟩
  · rw [hroot]
    exact .op (by rintro ⟨⟩) (by rintro ⟨⟩) (forall_mem_singleton.2 .lit)
  · exact hroot ▸ h

/-- The folded form of a whole expression is an operator. -/
private theorem exists_foldRoot_eq_op (e : Expr α) :
    ∃ id code es, (foldRoot e #[]).1 = .op id code es := by
  rcases foldRoot_cases e with ⟨b, s, b', -, hroot⟩ | ⟨hnone, hroot⟩
  · exact ⟨_, _, _, hroot⟩
  · rw [hroot]
    cases hf : (fold e #[]).1 with
    | lit => rw [hf] at hnone; cases hnone
    | op id code es => exact ⟨id, code, es, rfl⟩

end Fold

namespace Expr

/-- **What is optimized is well formed and in normal form.** In the store of the result the operands
of every operator come before it, the root is an operator, and there is at most one node more than
in the expression. No node that the root reaches is a condition with a literal for a guard or a
scope without bindings. -/
theorem wellFormed_of_optimize {e : Expr α} {g : Graph} (h : e.optimize = .ok g) :
    g.nodes.Descends ∧
    (∃ code operands, g.nodes[g.root.index]? = some (.op code operands)) ∧
    g.nodes.size ≤ e.size + 1 ∧
    ∀ id code operands, g.nodes.Reaches g.root id →
      g.nodes[id.index]? = some (.op code operands) →
        (code = .condition → ∀ o, IsGuard operands o → ¬ ∃ s, g.nodes[o.index]? = some (.lit s)) ∧
        (code = .scope → operands.length ≠ 1) := by
  obtain ⟨r, hcheck, -⟩ := check_of_optimize h
  obtain rfl := Except.ok.inj (h.symm.trans (optimize_of_check hcheck))
  have hunfolds := Fold.unfolds_foldRoot e #[]
  refine ⟨Fold.descends_foldRoot e, ?_, Fold.size_foldRoot e, fun id code operands => ?_⟩
  · change ∃ code operands, (Fold.foldRoot e #[]).2[(Fold.foldRoot e #[]).1.label.index]?
      = some (.op code operands)
    obtain ⟨id, code, es, hop⟩ := Fold.exists_foldRoot_eq_op e
    rw [hop] at hunfolds ⊢
    cases hunfolds with
    | op hnode => exact ⟨code, _, hnode⟩
  · exact (Fold.tidy_foldRoot e).of_reaches hunfolds

/-- A literal guard that is true stays in the store with what comes after it, and so does not matter
any more. -/
theorem wellFormed_of_optimize_condition :
    let e : Expr Nat := .op 0 .condition [.op 1 .scope [.op 2 .call [.lit 3 (.str "f")]],
      .lit 4 .null, .lit 5 (.bool true), .lit 6 (.str "a"), .lit 7 (.str "b")]
    ∃ g, e.optimize = .ok g ∧ g.root = ⟨6⟩ ∧
      g.nodes = #[.lit (.str "f"), .op .call [⟨0⟩], .lit .null, .lit (.bool true), .lit (.str "a"),
        .lit (.str "b"), .op .condition [⟨1⟩, ⟨2⟩, ⟨4⟩]] ∧
      g.nodes.Descends ∧ g.nodes.size ≤ e.size + 1 ∧
      ∀ o : NodeId, IsGuard [⟨1⟩, ⟨2⟩, ⟨4⟩] o → ¬ ∃ s, g.nodes[o.index]? = some (.lit s) := by
  intro e
  have hcheck : e.check none = .ok ⟨3, ["f"], []⟩ := rfl
  have hg := optimize_of_check hcheck
  obtain ⟨hdescends, -, hsize, hnormal⟩ := wellFormed_of_optimize hg
  exact ⟨_, hg, rfl, rfl, hdescends, hsize, (hnormal ⟨6⟩ _ _ .refl rfl).1 rfl⟩

end Expr

end OpTree
