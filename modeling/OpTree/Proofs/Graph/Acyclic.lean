import Mathlib.Data.List.Nodup
import Mathlib.Data.List.Perm.Subperm
import OpTree.Graph.Basic

/-!
# Stores without cycles

A store is acyclic if no operand is missing and following operands always comes to an end
(`Store.IsAcyclic`). From each of its nodes it then unfolds to an expression
(`IsAcyclic.exists_unfolds`), and to no other (`Unfolds.eq_of_label_eq`). On the way down from the
root of that expression no node comes twice, since what is below a node is less high than what is
below the nodes on the way to it. So there are more nodes in the store than the expression is high
(`Unfolds.height_lt`).

A store whose operators come after their operands (`Store.Descends`) is acyclic.
-/

namespace OpTree.Store

variable {store : Store} {id o : NodeId} {e f : Expr NodeId} {i : Nat} {node : Node}

theorem lt_size_of_getElem? (h : store[i]? = some node) : i < store.size :=
  (Array.getElem?_eq_some_iff.1 h).1

/-! ### Following operands -/

/-- The one node is an operand of the other. -/
def IsOperand (store : Store) (o id : NodeId) : Prop :=
  ∃ code operands, store[id.index]? = some (.op code operands) ∧ o ∈ operands

/-- The place, told by an operator and a position among its operands, holds the operand. -/
def HasOperand (store : Store) (place : NodeId × Nat) (o : NodeId) : Prop :=
  ∃ code operands, store[place.1.index]? = some (.op code operands) ∧ operands[place.2]? = some o

/-- Following operands never leaves the store, and always comes to an end. -/
structure IsAcyclic (store : Store) : Prop where
  present : ∀ o id, store.IsOperand o id → o.index < store.size
  wellFounded : WellFounded store.IsOperand

/-- The operands of every operator come before it. -/
def Descends (store : Store) : Prop :=
  ∀ (i : Nat) (code : Operator) (operands : List NodeId), store[i]? = some (.op code operands) →
    ∀ o ∈ operands, o.index < i

/-- From the address `base` on, the operands of every operator come before it and not before
`base`. -/
def DescendsFrom (base : Nat) (store : Store) : Prop :=
  ∀ (i : Nat) (code : Operator) (operands : List NodeId), base ≤ i →
    store[i]? = some (.op code operands) → ∀ o ∈ operands, base ≤ o.index ∧ o.index < i

theorem descendsFrom_zero : DescendsFrom 0 store ↔ Descends store :=
  ⟨fun h i code operands hnode o ho => (h i code operands (Nat.zero_le i) hnode o ho).2,
    fun h i code operands _ hnode o ho => ⟨Nat.zero_le _, h i code operands hnode o ho⟩⟩

theorem descendsFrom_size (store : Store) : DescendsFrom store.size store :=
  fun _ _ _ hi hnode => absurd (lt_size_of_getElem? hnode) (Nat.not_lt.2 hi)

/-- What is added has to refer to what was added before, from `base` on. -/
theorem DescendsFrom.push {base : Nat} (h : DescendsFrom base store)
    (hnode : ∀ code operands, node = .op code operands →
      ∀ o ∈ operands, base ≤ o.index ∧ o.index < store.size) :
    DescendsFrom base (store.push node) := by
  intro i code operands hi hget o ho
  rw [Array.getElem?_push] at hget
  split at hget
  · rename_i hlast
    exact hlast ▸ hnode code operands (Option.some.inj hget) o ho
  · exact h i code operands hi hget o ho

/-- Where operands come first, there is no cycle. -/
theorem Descends.isAcyclic (h : Descends store) : store.IsAcyclic where
  present := by
    rintro o id ⟨code, operands, hnode, ho⟩
    exact Nat.lt_trans (h _ _ _ hnode o ho) (lt_size_of_getElem? hnode)
  wellFounded := by
    refine Subrelation.wf (r := fun o id => o.index < id.index) ?_ (measure NodeId.index).wf
    rintro o id ⟨code, operands, hnode, ho⟩
    exact h _ _ _ hnode o ho

/-! ### What a node unfolds to -/

theorem Unfolds.index_lt (h : Unfolds store e) : e.label.index < store.size := by
  cases h with
  | lit h | op h => exact lt_size_of_getElem? h

/-- Operands that each unfold to something are the roots of what they unfold to. -/
private theorem exists_unfolds_all {operands : List NodeId}
    (h : ∀ o ∈ operands, ∃ e, Unfolds store e ∧ e.label = o) :
    ∃ es : List (Expr NodeId), es.map Expr.label = operands ∧ ∀ e ∈ es, Unfolds store e := by
  induction operands with
  | nil => exact ⟨[], rfl, List.forall_mem_nil _⟩
  | cons o operands ih =>
    rw [List.forall_mem_cons] at h
    obtain ⟨⟨e, he, rfl⟩, hrest⟩ := h
    obtain ⟨es, rfl, hes⟩ := ih hrest
    exact ⟨e :: es, rfl, List.forall_mem_cons.2 ⟨he, hes⟩⟩

/-- Every node of a store without cycles unfolds to an expression. -/
theorem IsAcyclic.exists_unfolds (h : store.IsAcyclic) (hid : id.index < store.size) :
    ∃ e, Unfolds store e ∧ e.label = id := by
  induction id using h.wellFounded.induction with
  | _ id ih =>
    cases hnode : store[id.index] with
    | lit s => exact ⟨.lit id s, .lit (hnode ▸ Array.getElem?_eq_getElem hid), rfl⟩
    | op code operands =>
      have hnode : store[id.index]? = some (.op code operands) :=
        hnode ▸ Array.getElem?_eq_getElem hid
      have hoperands : ∀ o ∈ operands, ∃ e, Unfolds store e ∧ e.label = o := fun o ho =>
        have ho : store.IsOperand o id := ⟨code, operands, hnode, ho⟩
        ih o ho (h.present o id ho)
      obtain ⟨es, rfl, hes⟩ := exists_unfolds_all hoperands
      exact ⟨.op id code es, .op hnode hes, rfl⟩

private theorem eq_of_map_label_eq {es fs : List (Expr NodeId)}
    (heq : ∀ e ∈ es, ∀ f ∈ fs, e.label = f.label → e = f)
    (hlabels : es.map Expr.label = fs.map Expr.label) : es = fs := by
  induction es generalizing fs with
  | nil => exact (List.map_eq_nil_iff.1 hlabels.symm).symm
  | cons e es ih =>
    obtain ⟨f, fs, rfl, hlabel, hrest⟩ := List.map_eq_cons_iff.1 hlabels.symm
    rw [heq e List.mem_cons_self f List.mem_cons_self hlabel.symm,
      ih (fun e he f hf => heq e (.tail _ he) f (.tail _ hf)) hrest.symm]

/-- A node unfolds to one expression only. -/
theorem Unfolds.eq_of_label_eq (he : Unfolds store e) (hf : Unfolds store f)
    (hlabel : e.label = f.label) : e = f := by
  induction he generalizing f with
  | lit hnode =>
    cases hf with
    | lit hnode' =>
      cases hlabel
      cases hnode.symm.trans hnode'
      rfl
    | op hnode' =>
      cases hlabel
      cases hnode.symm.trans hnode'
  | op hnode _ ih =>
    cases hf with
    | lit hnode' =>
      cases hlabel
      cases hnode.symm.trans hnode'
    | op hnode' hfs =>
      cases hlabel
      obtain ⟨rfl, hlabels⟩ := Node.op.inj (Option.some.inj (hnode.symm.trans hnode'))
      rw [eq_of_map_label_eq (fun e he f hf => ih e he (hfs f hf)) hlabels]

/-- Expressions with different roots take as many nodes of the store. -/
private theorem length_le_size {es : List (Expr NodeId)} (hes : ∀ e ∈ es, Unfolds store e)
    (hnodup : (es.map Expr.label).Nodup) : es.length ≤ store.size := by
  have hinjective : Function.Injective NodeId.index := by
    rintro ⟨i⟩ ⟨j⟩ h
    exact congrArg NodeId.mk h
  have hsubset : (es.map Expr.label).map NodeId.index ⊆ List.range store.size := by
    rw [List.map_map]
    intro i hi
    obtain ⟨e, he, rfl⟩ := List.mem_map.1 hi
    exact List.mem_range.2 (hes e he).index_lt
  have hlength := (List.subperm_of_subset (List.Nodup.map hinjective hnodup) hsubset).length_le
  rwa [List.length_map, List.length_map, List.length_range] at hlength

/-- A node is none of those that are higher than it. -/
private theorem nodup_label_cons (h : Unfolds store e) {above : List (Expr NodeId)}
    (habove : ∀ a ∈ above, Unfolds store a ∧ e.height < a.height)
    (hnodup : (above.map Expr.label).Nodup) : ((e :: above).map Expr.label).Nodup := by
  refine List.nodup_cons.2 ⟨fun hmem => ?_, hnodup⟩
  obtain ⟨a, ha, hlabel⟩ := List.mem_map.1 hmem
  obtain ⟨hunfolds, hlt⟩ := habove a ha
  cases hunfolds.eq_of_label_eq h hlabel
  exact Nat.lt_irrefl _ hlt

/-- The nodes on the way down to an expression, with those on a longest way further down, take as
many nodes of the store. The induction is on the expression, and the way down to it grows. -/
private theorem height_add_length_lt (h : Unfolds store e) {above : List (Expr NodeId)}
    (habove : ∀ a ∈ above, Unfolds store a ∧ e.height < a.height)
    (hnodup : (above.map Expr.label).Nodup) : e.height + above.length < store.size := by
  induction e generalizing above with
  | lit a s =>
    have hlength : above.length + 1 ≤ store.size :=
      length_le_size (List.forall_mem_cons.2 ⟨h, fun x hx => (habove x hx).1⟩)
        (nodup_label_cons h habove hnodup)
    rw [Expr.height]
    omega
  | op a code es ih =>
    have hpath := nodup_label_cons h habove hnodup
    have hlength : above.length + 1 ≤ store.size :=
      length_le_size (List.forall_mem_cons.2 ⟨h, fun x hx => (habove x hx).1⟩) hpath
    have hes : ∀ x ∈ es, Unfolds store x := by
      cases h with
      | op _ hes => exact hes
    have hoperands : ∀ x ∈ es, x.height + 1 < store.size - above.length := by
      intro x hx
      have hlt : x.height < (Expr.op a code es).height := Expr.height_lt_of_mem hx
      have hfurther : x.height + (above.length + 1) < store.size :=
        ih x hx (hes x hx) (List.forall_mem_cons.2 ⟨⟨h, hlt⟩, fun y hy =>
          ⟨(habove y hy).1, Nat.lt_trans hlt (habove y hy).2⟩⟩) hpath
      omega
    have hheight : (Expr.op a code es).height < store.size - above.length :=
      Expr.height_op_lt (by omega) hoperands
    omega

/-- There are more nodes in the store than the expression is high. -/
theorem Unfolds.height_lt (h : Unfolds store e) : e.height < store.size :=
  height_add_length_lt h (List.forall_mem_nil _) .nil

end OpTree.Store
