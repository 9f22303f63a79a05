import OpTree.Document.Encode
import OpTree.Proofs.Document.Readers
import OpTree.Proofs.Literals
import OpTree.Proofs.Number.WholeNumbers

/-!
# Decoding undoes encoding

Both wire forms are read back as what was written, except for the labels, which no document holds,
and for numbers that are not finite, which documents hold as null. A literal is recognized before
the forms part: no scalar is written as an array or an object (`ofJson?_toJson`). An operator is
recognized by its name or by its number, and the operands by their place.

Main statement: `Expr.decode_of_written`.
-/

namespace OpTree

variable {α : Type}

namespace Scalar

/-- What a document keeps of a scalar. -/
def written (s : Scalar) : Scalar :=
  if s.isValid then s else .null

/-- Whole numbers are written apart from other numbers and read back as the same doubles. Negative
zero is among the other numbers. -/
theorem ofJson?_toJson (s : Scalar) : ofJson? s.toJson = some s.written := by
  cases s with
  | null | bool | str => rfl
  | num x =>
    rw [toJson]
    cases hn : Number.toSafeInt? x with
    | some n =>
      have hx := Number.isFinite_of_toInt? (Option.filter_eq_some_iff.1 hn).1
      simp only [ofJson?, Number.ofInt_of_toSafeInt? hn, hx, written, isValid, if_true]
    | none =>
      cases hx : x.isFinite <;> simp [ofJson?, hx, written, isValid]

end Scalar

namespace Expr

/-- What a document keeps of an expression. -/
def written (e : Expr α) : Expr Unit :=
  (e.mapLiterals Scalar.written).erase

theorem written_op (a : α) (c : Operator) (es : List (Expr α)) :
    (op a c es).written = op () c (es.map written) := by
  rw [written, mapLiterals, mapLiteralsAll_eq, erase, map, mapAll_eq, List.map_map]
  rfl

/-- A document keeps all of an expression whose numbers are finite. -/
theorem written_of_isFinite {e : Expr α} (h : e.IsFinite) : e.written = e.erase := by
  have hs : ∀ s ∈ e.literals, s.written = s := fun s hs => if_pos (h s hs)
  rw [written, mapLiterals_eq_self hs]

theorem toTreeAll_eq (es : List (Expr α)) : toTreeAll es = es.map toTree := by
  induction es with
  | nil => rfl
  | cons e es ih => rw [toTreeAll, ih, List.map_cons]

theorem toArrayAll_eq (es : List (Expr α)) : toArrayAll es = es.map toArray := by
  induction es with
  | nil => rfl
  | cons e es ih => rw [toArrayAll, ih, List.map_cons]

end Expr

namespace Document

/-! ### Item by item -/

section

variable {β ε : Type} {f : α → Except ε β} {xs : List α}

theorem exists_of_mem_left {ys : List β} {R : α → β → Prop} (h : List.Forall₂ R xs ys) :
    ∀ x ∈ xs, ∃ y ∈ ys, R x y := by
  induction h with
  | nil => simp
  | cons hxy _ ih =>
    refine List.forall_mem_cons.2 ⟨⟨_, List.mem_cons_self, hxy⟩, fun x hx => ?_⟩
    obtain ⟨y, hy, hxy⟩ := ih x hx
    exact ⟨y, List.mem_cons_of_mem _ hy, hxy⟩

theorem exists_of_mem_right {ys : List β} {R : α → β → Prop} (h : List.Forall₂ R xs ys) :
    ∀ y ∈ ys, ∃ x ∈ xs, R x y :=
  exists_of_mem_left h.flip

/-- All items succeed, and each gives what stands in its place in the result. -/
theorem mapM_eq_ok_iff {ys : List β} :
    xs.mapM f = .ok ys ↔ List.Forall₂ (fun x y => f x = .ok y) xs ys := by
  induction xs generalizing ys with
  | nil =>
    rw [List.mapM_nil, List.forall₂_nil_left_iff]
    constructor
    · rintro ⟨⟩
      rfl
    · rintro rfl
      rfl
  | cons x xs ih =>
    rw [List.mapM_cons, List.forall₂_cons_left_iff]
    constructor
    · intro h
      cases hx : f x with
      | error err => rw [hx] at h; cases h
      | ok y =>
        cases hxs : xs.mapM f with
        | error err => rw [hx, hxs] at h; cases h
        | ok ys' =>
          rw [hx, hxs] at h
          cases h
          exact ⟨y, ys', rfl, ih.1 hxs, rfl⟩
    · rintro ⟨y, ys', hx, hxs, rfl⟩
      rw [hx, ih.2 hxs]
      rfl

/-- The first item that fails fails as the whole does. -/
theorem exists_of_mapM_eq_error {err : ε} (h : xs.mapM f = .error err) :
    ∃ before x after, xs = before ++ x :: after ∧ f x = .error err ∧
      ∀ x' ∈ before, ∃ y, f x' = .ok y := by
  induction xs with
  | nil => cases h
  | cons x xs ih =>
    rw [List.mapM_cons] at h
    cases hx : f x with
    | error err' =>
      rw [hx] at h
      cases h
      exact ⟨[], x, xs, rfl, hx, by simp⟩
    | ok y =>
      cases hxs : xs.mapM f with
      | error err' =>
        rw [hx, hxs] at h
        cases h
        obtain ⟨before, x', after, rfl, hx', hbefore⟩ := ih hxs
        exact ⟨x :: before, x', after, rfl, hx', List.forall_mem_cons.2 ⟨⟨y, hx⟩, hbefore⟩⟩
      | ok ys => rw [hx, hxs] at h; cases h

end

variable {form : Form} {path : List Step} {doc : Json} {code : Operator} {s : Scalar}
  {operands : List (Step × Json)} {es : List (Expr Unit)}

/-! ### Decoding a node -/

/-- The operands of a node are decoded one by one, each along its own path. -/
theorem Form.mapM_decodeAt (write : Expr α → Json) (step : Nat → Step) (k : Nat)
    {es : List (Expr α)} (h : ∀ e ∈ es, ∀ path, form.decodeAt path (write e) = .ok e.written) :
    ((((es.map write).zipIdx k).map fun (item, i) => (step i, item)).mapM
      fun o => form.decodeAt (path ++ [o.1]) o.2) = .ok (es.map Expr.written) := by
  induction es generalizing k with
  | nil => rfl
  | cons e es ih =>
    rw [List.forall_mem_cons] at h
    have hrest := ih (k + 1) h.2
    rw [List.map_cons, List.zipIdx_cons, List.map_cons, List.mapM_cons, h.1, hrest]
    rfl

/-! ### What a written node is -/

theorem viewObject_of_name (c : Operator) (items : List Json) :
    viewObject (.obj [("op", .str c.name), ("operands", .arr items)])
      = .ok (.op c (items.zipIdx.map fun (item, i) => (.operand i, item))) := by
  have hop : (Json.obj [("op", .str c.name), ("operands", .arr items)]).field? "op"
      = some (.str c.name) := rfl
  have hoperands : operandList? (.obj [("op", .str c.name), ("operands", .arr items)])
      = some items := rfl
  simp only [viewObject, hop, hoperands, c.ofName_name]

theorem viewArray_of_number (c : Operator) (items : List Json) :
    viewArray (.int c.number :: items)
      = .ok (.op c (items.zipIdx.map fun (item, i) => (.item (i + 1), item))) := by
  have hnumber : Json.unsigned? (.int c.number) = some c.number := by
    cases c <;> rfl
  simp only [viewArray, hnumber, c.ofNumber_number]

/-! ### Decoding a written expression -/

/-- The tree form is read back wherever it is part of a document, and in mixed documents too. -/
theorem Form.decodeAt_toTree (form : Form) (e : Expr α) :
    ∀ path, form.decodeAt path e.toTree = .ok e.written := by
  induction e with
  | lit a s =>
    intro path
    exact decodeAt_of_literal (view_of_ofJson? s.ofJson?_toJson)
  | op a c es ih =>
    intro path
    rw [Expr.toTree, Expr.toTreeAll_eq, Expr.written_op]
    exact decodeAt_of_op ((form.view_obj _).trans (viewObject_of_name c _))
      (mapM_decodeAt Expr.toTree .operand 0 ih)

/-- The array form is read back wherever it is part of a mixed document. -/
theorem Form.decodeAt_toArray (e : Expr α) :
    ∀ path, Form.mixed.decodeAt path e.toArray = .ok e.written := by
  induction e with
  | lit a s =>
    intro path
    exact decodeAt_of_literal (view_of_ofJson? s.ofJson?_toJson)
  | op a c es ih =>
    intro path
    rw [Expr.toArray, Expr.toArrayAll_eq, Expr.written_op]
    exact decodeAt_of_op ((viewMixed_arr _).trans (viewArray_of_number c _))
      (mapM_decodeAt Expr.toArray (fun i => .item (i + 1)) 0 ih)

end Document

open Document in
/-- Decoding either wire form of an expression succeeds, and gives the expression with null for each
number that is not finite. If there is none it gives the expression itself, every double with the
same bits. The labels are arbitrary: where nodes of a graph are shared, the expression and so the
document repeats them. -/
theorem Expr.decode_of_written (e : Expr α) :
    Form.mixed.decode e.toArray = .ok (e.mapLiterals Scalar.written).erase ∧
      Form.tree.decode e.toTree = .ok (e.mapLiterals Scalar.written).erase ∧
      (e.IsFinite → (e.mapLiterals Scalar.written).erase = e.erase) :=
  ⟨Form.decodeAt_toArray e [], Form.decodeAt_toTree .tree e [], written_of_isFinite⟩

open Document in
/-- Negative zero is not written as the whole number that it equals. -/
theorem Expr.decode_of_written_negative_zero :
    (op () .div [lit () (.num 3), lit () (.num (-0.0))]).IsFinite ∧
      Form.mixed.decode (op () .div [lit () (.num 3), lit () (.num (-0.0))]).toArray
        = .ok (op () .div [lit () (.num 3), lit () (.num (-0.0))]) ∧
      Form.tree.decode (op () .div [lit () (.num 3), lit () (.num (-0.0))]).toTree
        = .ok (op () .div [lit () (.num 3), lit () (.num (-0.0))]) := by
  obtain ⟨harray, htree, herase⟩ :=
    Expr.decode_of_written (op () .div [lit () (.num 3), lit () (.num (-0.0))])
  have hfinite : (op () .div [lit () (.num 3), lit () (.num (-0.0))]).IsFinite := by
    rw [IsFinite]
    decide +kernel
  rw [herase hfinite] at harray htree
  exact ⟨hfinite, harray, htree⟩

end OpTree
