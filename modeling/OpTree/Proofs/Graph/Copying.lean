import OpTree.Proofs.Document.Equality
import OpTree.Proofs.Graph.Placement

/-!
# Copying parts of a store

Copying walks one store and allocates in another, and the walk goes through an expression without
anyone having unfolded it. So copying from a node comes to the same as placing what the node unfolds
to (`Store.copyWithin_eq_some`), as long as the walk may go deep enough. Where there is no cycle, it
need not go deeper than there are nodes in the store that is copied from.

Main statement: `Store.copySubtree_of_isAcyclic`.
-/

namespace OpTree.Store

variable {source : Store} {id : NodeId} {e : Expr NodeId}

/-- Copying from a node is placing what it unfolds to. The induction is on that expression, and the
bound on the depth goes down with it. -/
theorem copyWithin_eq_some (h : Unfolds source e) {depth : Nat} (hdepth : e.height < depth)
    (store : Store) : source.copyWithin depth e.label store = some (e.placeRoot store) := by
  induction e generalizing depth store with
  | lit id s =>
    obtain ⟨depth, rfl⟩ := Nat.exists_eq_add_one_of_ne_zero (Nat.ne_zero_of_lt hdepth)
    cases h with
    | lit hnode =>
      rw [copyWithin, Expr.label, hnode]
      rfl
  | op id code es ih =>
    obtain ⟨depth, rfl⟩ := Nat.exists_eq_add_one_of_ne_zero (Nat.ne_zero_of_lt hdepth)
    cases h with
    | op hnode hes =>
      have hoperands : ∀ x ∈ es, ∀ store, source.copyWithin depth x.label store
          = (Expr.placeRoot · store) <$> some x := fun x hx store => by
        have hlt : x.height < (Expr.op id code es).height := Expr.height_lt_of_mem hx
        rw [ih x hx (hes x hx) (by omega) store]
        rfl
      rw [copyWithin, Expr.label, hnode]
      dsimp only
      rw [List.mapM_map]
      have hfound : es.mapM some = some es := by
        simpa using List.mapM_pure (m := Option) (l := es) (f := fun x => x)
      calc (es.mapM (source.copyWithin depth ∘ Expr.label) >>= fun ids =>
            alloc (.op code ids)) store
          = (fun es => Expr.placeRoot (.op id code es) store) <$> es.mapM some :=
            Expr.mapM_place_op hoperands id code store
        _ = some ((Expr.op id code es).placeRoot store) := by
          rw [hfound]
          rfl

/-- **A copy is faithful and disturbs nothing.** Copying from a node of a store without cycles
always succeeds, whatever has been built so far. If `e` is what the node unfolds to, where a node
that is shared comes once for each place in which it is an operand, then as many nodes are added as
`e` has. The nodes that were there stay as they are, the address that is returned is the last new
one, and the new nodes refer to new nodes only, each to earlier ones. As long as 32 bits are enough
for the size of the store, they are enough for these addresses. From the address that is returned,
the store then unfolds to an expression that differs from `e` in nothing but the labels. So it
equals the same expressions as `e`, and it equals `e` itself unless there is a NaN in it, which
equals nothing. -/
theorem copySubtree_of_isAcyclic (h : source.IsAcyclic) (hid : id.index < source.size)
    (store : Store) :
    ∃ e copy later, Unfolds source e ∧ e.label = id ∧
      source.copySubtree id store = some (copy.label, later) ∧
      (∀ i < store.size, later[i]? = store[i]?) ∧
      later.size = store.size + e.size ∧
      copy.label.index + 1 = later.size ∧
      (∀ i code operands, store.size ≤ i → later[i]? = some (.op code operands) →
        ∀ o ∈ operands, store.size ≤ o.index ∧ o.index < i) ∧
      (later.size ≤ UInt32.size → copy.label.narrow = copy.label ∧
        ∀ i node, store.size ≤ i → later[i]? = some node → node.narrow = node) ∧
      Unfolds later copy ∧ copy.erase = e.erase ∧
      (∀ f : Expr NodeId, copy.equals f = e.equals f) ∧ (e.HasNoNaN → copy.equals e) := by
  obtain ⟨e, he, rfl⟩ := h.exists_unfolds hid
  have hcopy : source.copySubtree e.label store = some (e.placeRoot store) :=
    copyWithin_eq_some he he.height_lt store
  have herase : (e.place store).1.erase = e.erase := e.erase_place store
  refine ⟨e, (e.place store).1, (e.place store).2, he, rfl, hcopy, fun i hi => ?_,
    e.size_place store, e.index_root_place store, e.descendsFrom_place store, fun hsize => ?_,
    e.unfolds_place store, herase, fun f => ?_, fun hnan => ?_⟩
  · rw [Array.getElem?_eq_getElem hi]
    exact e.grows_place store i _ (Array.getElem?_eq_getElem hi)
  · have hroot := e.index_root_place store
    exact ⟨NodeId.narrow_eq_self (by omega), fun i node => Expr.narrow_of_place hsize⟩
  · rw [← Expr.equals_erase, herase, Expr.equals_erase]
  · rw [← Expr.equals_erase, herase, Expr.equals_erase]
    exact (Expr.equals_iff_standard_eq hnan).2 rfl

/-- The call is an operand twice, and so it is copied twice, with what is below it. -/
theorem copySubtree_of_isAcyclic_shared :
    IsAcyclic #[.lit (.str "now"), .op .call [⟨0⟩], .op .eq [⟨1⟩, ⟨1⟩]] ∧
    ∃ (copy : Expr NodeId) (later : Store),
      copySubtree #[.lit (.str "now"), .op .call [⟨0⟩], .op .eq [⟨1⟩, ⟨1⟩]] ⟨2⟩ #[.lit .null]
        = some (copy.label, later) ∧
      later.toList = [Node.lit .null, .lit (.str "now"), .op .call [⟨1⟩], .lit (.str "now"),
        .op .call [⟨3⟩], .op .eq [⟨2⟩, ⟨4⟩]] ∧
      Unfolds later copy ∧
      copy.erase = Expr.op () .eq [.op () .call [.lit () (.str "now")],
        .op () .call [.lit () (.str "now")]] := by
  have hacyclic : IsAcyclic #[.lit (.str "now"), .op .call [⟨0⟩], .op .eq [⟨1⟩, ⟨1⟩]] := by
    refine Descends.isAcyclic fun i code operands hnode o ho => ?_
    have hi : i < 3 := lt_size_of_getElem? hnode
    interval_cases i <;> cases hnode <;> simp_all
  have hcall : Unfolds #[.lit (.str "now"), .op .call [⟨0⟩], .op .eq [⟨1⟩, ⟨1⟩]]
      (.op ⟨1⟩ .call [.lit ⟨0⟩ (.str "now")]) :=
    .op rfl (List.forall_mem_singleton.2 (.lit rfl))
  have hshared : Unfolds #[.lit (.str "now"), .op .call [⟨0⟩], .op .eq [⟨1⟩, ⟨1⟩]]
      (.op ⟨2⟩ .eq [.op ⟨1⟩ .call [.lit ⟨0⟩ (.str "now")],
        .op ⟨1⟩ .call [.lit ⟨0⟩ (.str "now")]]) :=
    .op rfl (List.forall_mem_cons.2 ⟨hcall, List.forall_mem_singleton.2 hcall⟩)
  obtain ⟨e, copy, later, he, hlabel, hcopy, -, -, -, -, -, hlater, herase, -⟩ :=
    copySubtree_of_isAcyclic hacyclic (by decide : (⟨2⟩ : NodeId).index < 3) #[.lit .null]
  cases he.eq_of_label_eq hshared hlabel
  refine ⟨hacyclic, copy, later, hcopy, ?_, hlater, herase⟩
  have hnodes : (copySubtree #[.lit (.str "now"), .op .call [⟨0⟩], .op .eq [⟨1⟩, ⟨1⟩]] ⟨2⟩
      #[.lit .null]).map (fun p => p.2.toList)
      = some [Node.lit .null, .lit (.str "now"), .op .call [⟨1⟩], .lit (.str "now"),
        .op .call [⟨3⟩], .op .eq [⟨2⟩, ⟨4⟩]] := rfl
  rw [hcopy] at hnodes
  exact Option.some.inj hnodes

end OpTree.Store
