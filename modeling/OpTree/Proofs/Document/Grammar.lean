import Mathlib.Data.List.Forall2
import OpTree.Proofs.Document.Agreement
import OpTree.Proofs.Document.Interchange

/-!
# The grammar of mixed documents

A node of a document is a scalar, an array that begins with the number of an operator, or an object
that has the name of one (`Refers`), and lists operands (`Lists`). `Denotes` is the grammar: the
documents all of whose nodes are of this kind, with the expressions that they stand for.

A document may fail to be of the grammar at several nodes. A node is told by the path that leads to
it (`follow?`), and paths are in the order in which the nodes stand in the document (`Precedes`), a
node before its operands and these from left to right. Decoding stops at the first node that is out
of shape or refers to no operator: whatever precedes it on the way has been decoded, and what has
been decoded is of the grammar with all that is in it.

Main statement: `Document.decode_iff_denotes`.
-/

namespace OpTree.Document

open List

variable {doc node : Json} {path : List Step} {code : Operator} {defect : Defect}
  {operands : List (Step × Json)} {items : List Json} {e : Expr Unit}

/-! ### The grammar -/

/-- How a node refers to its operator. -/
inductive Reference where
  | number (number : Nat)
  | name (name : String)
deriving DecidableEq, Repr

namespace Reference

/-- The operator is the one that the reference is to. -/
def Means : Reference → Operator → Prop
  | number n, code => code.number = n
  | name s, code => code.name = s

/-- What is wrong with a reference to no operator. -/
def error : Reference → OperatorError
  | number n => .unknownNumber n
  | name s => .unknownName s

end Reference

/-- The node refers to an operator, known or not: an array by the whole number that it begins with,
an object by the string in its field `op`. -/
inductive Refers : Json → Reference → Prop
  | array {head items n} : head.unsigned? = some n → Refers (.arr (head :: items)) (.number n)
  | object {fields name} : (Json.obj fields).field? "op" = some (.str name) →
      Refers (.obj fields) (.name name)

/-- The node lists these operands: an array all items but the first, an object the items of its
field `operands`, or of `av` if it has no field `operands`. Null and no field at all are the empty
list. -/
inductive Lists : Json → List Json → Prop
  | array {head items} : Lists (.arr (head :: items)) items
  | operands {fields items} : (Json.obj fields).field? "operands" = some (.arr items) →
      Lists (.obj fields) items
  | nullOperands {fields} : (Json.obj fields).field? "operands" = some .null →
      Lists (.obj fields) []
  | av {fields items} : (Json.obj fields).field? "operands" = none →
      (Json.obj fields).field? "av" = some (.arr items) → Lists (.obj fields) items
  | nullAv {fields} : (Json.obj fields).field? "operands" = none →
      (Json.obj fields).field? "av" = some .null → Lists (.obj fields) []
  | neither {fields} : (Json.obj fields).field? "operands" = none →
      (Json.obj fields).field? "av" = none → Lists (.obj fields) []

/-- The expression that a document stands for. -/
inductive Denotes : Json → Expr Unit → Prop
  | literal {doc s} : Scalar.ofJson? doc = some s → Denotes doc (.lit () s)
  | op {doc ref code items es} : Refers doc ref → ref.Means code → Lists doc items →
      Forall₂ Denotes items es → Denotes doc (.op () code es)

/-- The node is a scalar, or it refers to an operator, known or not, and lists operands. -/
def IsShaped (node : Json) : Prop :=
  (∃ s, Scalar.ofJson? node = some s) ∨ ∃ ref items, Refers node ref ∧ Lists node items

/-- If the node refers to an operator, there is such an operator. -/
def IsKnown (node : Json) : Prop :=
  ∀ ref, Refers node ref → ∃ code, ref.Means code

/-! ### The nodes of a document -/

/-- The place of the operand that the step leads to, among the operands of its node. -/
def Step.place : Step → Nat
  | .item i => i
  | .operand i => i

/-- Takes a step from a node to one of its operands. The first item of an array is none: no step
leads to it. -/
def Step.follow? : Step → Json → Option Json
  | .item (i + 1), .arr (_ :: items) => items[i]?
  | .operand i, .obj fields => operandList? (.obj fields) >>= (·[i]?)
  | _, _ => none

/-- Follows a path from the root of a document. -/
def follow? (path : List Step) (doc : Json) : Option Json :=
  path.foldlM (fun node step => step.follow? node) doc

/-- Document order: a node stands before its operands, and all that is in an operand stands before
the operands to the right of it. -/
def Precedes : List Step → List Step → Prop :=
  List.Lex fun step step' => step.place < step'.place

/-- The operands that the node lists, if it lists any, each with the step to it. -/
def children : Json → List (Step × Json)
  | .arr (_ :: items) => items.zipIdx.map fun (item, i) => (.item (i + 1), item)
  | .obj fields =>
    ((operandList? (.obj fields)).getD []).zipIdx.map fun (item, i) => (.operand i, item)
  | _ => []

/-- The operands are found where the grammar has them. -/
private theorem operandList?_eq_some {fields : List (String × Json)} :
    operandList? (.obj fields) = some items ↔ Lists (.obj fields) items := by
  constructor
  · intro h
    rw [operandList?] at h
    cases hoperands : (Json.obj fields).field? "operands" with
    | some value =>
      rw [hoperands, Option.some_or] at h
      split at h
      · rename_i heq
        cases h
        cases heq
        exact .operands hoperands
      · rename_i heq
        cases heq
      · rename_i heq
        cases h
        cases heq
        exact .nullOperands hoperands
      · cases h
    | none =>
      rw [hoperands, Option.none_or] at h
      split at h
      · rename_i heq
        cases h
        exact .av hoperands heq
      · rename_i heq
        cases h
        exact .neither hoperands heq
      · rename_i heq
        cases h
        exact .nullAv hoperands heq
      · cases h
  · intro h
    cases h <;> simp_all [operandList?]

/-- Every operand has a step of its own. -/
private theorem mem_zipIdx_map (step : Nat → Step) {o : Step × Json} :
    o ∈ (items.zipIdx.map fun (item, i) => (step i, item)) ↔
      ∃ i, o.1 = step i ∧ items[i]? = some o.2 := by
  obtain ⟨s, item⟩ := o
  simp only [mem_map, Prod.mk.injEq, Prod.exists, mk_mem_zipIdx_iff_getElem?]
  constructor
  · rintro ⟨x, i, hx, rfl, rfl⟩
    exact ⟨i, rfl, hx⟩
  · rintro ⟨i, rfl, hx⟩
    exact ⟨item, i, hx, rfl, rfl⟩

/-- The steps from a node lead to its operands. -/
theorem mem_children {o : Step × Json} : o ∈ children node ↔ o.1.follow? node = some o.2 := by
  obtain ⟨step, item⟩ := o
  cases node with
  | arr items =>
    cases items with
    | nil => cases step <;> simp [children, Step.follow?]
    | cons head items =>
      rw [children, mem_zipIdx_map fun i => .item (i + 1)]
      cases step with
      | operand i => simp [Step.follow?]
      | item i => cases i <;> simp [Step.follow?]
  | obj fields =>
    rw [children, mem_zipIdx_map .operand]
    cases step with
    | item i => cases i <;> simp [Step.follow?]
    | operand i =>
      simp only [Step.follow?]
      cases operandList? (.obj fields) <;> simp
  | _ => cases step <;> simp [children, Step.follow?]

/-- The steps to operands are in order. -/
private theorem pairwise_zipIdx_map (step : Nat → Step)
    (hstep : ∀ i j, i < j → (step i).place < (step j).place) :
    (items.zipIdx.map fun (item, i) => (step i, item)).Pairwise
      fun o o' => o.1.place < o'.1.place := by
  have hplaces : (items.zipIdx.map Prod.snd).Pairwise (· < ·) := by
    rw [zipIdx_map_snd]
    exact pairwise_lt_range'
  exact pairwise_map.2 ((pairwise_map.1 hplaces).imp fun h => hstep _ _ h)

/-- The operands come in the order of their places. -/
theorem pairwise_children (node : Json) :
    (children node).Pairwise fun o o' => o.1.place < o'.1.place := by
  cases node with
  | arr items =>
    cases items with
    | nil => exact .nil
    | cons => exact pairwise_zipIdx_map (fun i => .item (i + 1)) fun i j h => Nat.succ_lt_succ h
  | obj => exact pairwise_zipIdx_map .operand fun i j h => h
  | _ => exact .nil

/-- The operands to the left of another are those with a smaller place. -/
private theorem mem_before_of_place_lt {before after : List (Step × Json)} {o o' : Step × Json}
    (hsplit : children node = before ++ o :: after) (ho' : o' ∈ children node)
    (hplace : o'.1.place < o.1.place) : o' ∈ before := by
  have hpairwise := pairwise_children node
  rw [hsplit] at ho' hpairwise
  have hafter := (pairwise_cons.1 (pairwise_append.1 hpairwise).2.1).1
  rw [mem_append, mem_cons] at ho'
  rcases ho' with ho' | rfl | ho'
  · exact ho'
  · exact absurd hplace (Nat.lt_irrefl _)
  · exact absurd (hafter o' ho') (Nat.lt_asymm hplace)

/-- The operands that a node lists are its children. -/
theorem Lists.map_children (h : Lists node items) : (children node).map Prod.snd = items := by
  have hzip (step : Nat → Step) :
      (items.zipIdx.map fun (item, i) => (step i, item)).map Prod.snd = items := by
    rw [map_map]
    exact zipIdx_map_fst 0 items
  cases node with
  | arr =>
    cases h
    exact hzip fun i => .item (i + 1)
  | obj fields =>
    rw [children, operandList?_eq_some.2 h]
    exact hzip .operand
  | _ => cases h

/-! ### What a node is -/

namespace Reference

/-- Looks the operator up. -/
private def read : Reference → Except OperatorError Operator
  | number n => Operator.ofNumber n
  | name s => Operator.ofName s

/-- A reference that is read means the operator. -/
private theorem read_eq_ok {ref : Reference} : ref.read = .ok code ↔ ref.Means code := by
  constructor
  · intro h
    cases ref with
    | number n =>
      rw [read, Operator.ofNumber] at h
      split at h <;> cases h
      rename_i hfind
      simpa [Means] using find?_some hfind
    | name s =>
      rw [read, Operator.ofName] at h
      split at h <;> cases h
      rename_i hfind
      simpa [Means] using find?_some hfind
  · intro h
    cases ref with
    | number n =>
      cases h
      exact code.ofNumber_number
    | name s =>
      cases h
      exact code.ofName_name

/-- One that is not means none. -/
private theorem read_eq_error {ref : Reference} {err : OperatorError} (h : ref.read = .error err) :
    err = ref.error ∧ ∀ code, ¬ ref.Means code := by
  refine ⟨?_, fun code hmeans => ?_⟩
  · cases ref with
    | number n =>
      rw [read, Operator.ofNumber] at h
      split at h <;> cases h
      rfl
    | name s =>
      rw [read, Operator.ofName] at h
      split at h <;> cases h
      rfl
  · cases h.symm.trans (read_eq_ok.2 hmeans)

end Reference

/-- What there is to say of a node that is viewed. -/
private inductive Viewed (node : Json) : Except Defect Shape → Prop
  | literal {s} : Scalar.ofJson? node = some s → Viewed node (.ok (.literal s))
  | op {ref code items} : Refers node ref → ref.Means code → Lists node items →
      Viewed node (.ok (.op code (children node)))
  | unknown {ref} : Refers node ref → (∀ code, ¬ ref.Means code) →
      Viewed node (.error (.unknownOperator ref.error))
  | misshapen {d} : (∀ err, d ≠ .unknownOperator err) → ¬ IsShaped node → Viewed node (.error d)

/-- **Arrays** are viewed as the grammar has them. -/
private theorem viewed_array (items : List Json) : Viewed (.arr items) (viewArray items) := by
  cases items with
  | nil =>
    refine .misshapen (by simp) ?_
    rintro (⟨s, hs⟩ | ⟨ref, _, href, -⟩)
    · cases hs
    · cases href
  | cons head rest =>
    rw [viewArray.eq_def]
    dsimp only
    cases hhead : head.unsigned? with
    | none =>
      refine .misshapen (by simp) ?_
      rintro (⟨s, hs⟩ | ⟨ref, _, href, -⟩)
      · cases hs
      · cases href with
        | array hnumber => cases hhead.symm.trans hnumber
    | some n =>
      have href : Refers (.arr (head :: rest)) (.number n) := .array hhead
      have hread : Reference.read (.number n) = Operator.ofNumber n := rfl
      dsimp only
      rw [← hread]
      cases hcode : Reference.read (.number n) with
      | error err =>
        obtain ⟨rfl, hnone⟩ := Reference.read_eq_error hcode
        exact .unknown href hnone
      | ok code => exact .op href (Reference.read_eq_ok.1 hcode) .array

/-- **Objects** are viewed as the grammar has them. -/
private theorem viewed_object (fields : List (String × Json)) :
    Viewed (.obj fields) (viewObject (.obj fields)) := by
  rw [viewObject.eq_def]
  split
  · rename_i name hname
    have href : Refers (.obj fields) (.name name) := .object hname
    have hread : Reference.read (.name name) = Operator.ofName name := rfl
    rw [← hread]
    cases hcode : Reference.read (.name name) with
    | error err =>
      obtain ⟨rfl, hnone⟩ := Reference.read_eq_error hcode
      exact .unknown href hnone
    | ok code =>
      dsimp only
      cases hitems : operandList? (.obj fields) with
      | some items =>
        have hop : Viewed (.obj fields) _ :=
          .op href (Reference.read_eq_ok.1 hcode) (operandList?_eq_some.1 hitems)
        rw [children, hitems] at hop
        exact hop
      | none =>
        refine .misshapen (by simp) ?_
        rintro (⟨s, hs⟩ | ⟨_, items, -, hlists⟩)
        · cases hs
        · cases hitems.symm.trans (operandList?_eq_some.2 hlists)
  · rename_i hnone
    refine .misshapen (by simp) ?_
    rintro (⟨s, hs⟩ | ⟨ref, _, href, -⟩)
    · cases hs
    · cases href with
      | object hname => exact hnone _ hname

/-- Every node is viewed as the grammar has it. -/
private theorem viewed (node : Json) : Viewed node (Form.mixed.view node) := by
  rw [Form.view, viewMixed.eq_def]
  cases hs : Scalar.ofJson? node with
  | some s => exact .literal hs
  | none =>
    have hscalar : IsShaped node → ∃ ref, Refers node ref := by
      rintro (⟨s, hs'⟩ | ⟨ref, _, href, -⟩)
      · cases hs.symm.trans hs'
      · exact ⟨ref, href⟩
    cases node with
    | arr items => exact viewed_array items
    | obj fields => exact viewed_object fields
    | _ =>
      refine .misshapen (by simp) fun hshaped => ?_
      obtain ⟨ref, href⟩ := hscalar hshaped
      cases href

/-! ### What is decoded -/

/-- A node refers to one operator at most. -/
private theorem Refers.unique {ref ref' : Reference} (h : Refers node ref)
    (h' : Refers node ref') : ref = ref' := by
  cases h with
  | array hn =>
    cases h' with
    | array hn' => cases hn.symm.trans hn'; rfl
  | object hname =>
    cases h' with
    | object hname' => cases hname.symm.trans hname'; rfl

/-- A node that refers to an operator is no scalar. -/
private theorem Refers.ofJson?_eq_none {ref : Reference} (h : Refers node ref) :
    Scalar.ofJson? node = none := by
  cases h <;> rfl

namespace Denotes

/-- A document that is of the grammar is a node without defects. -/
theorem isShaped_isKnown (h : Denotes node e) : IsShaped node ∧ IsKnown node := by
  cases h with
  | literal hs =>
    exact ⟨.inl ⟨_, hs⟩, fun ref href => by cases href.ofJson?_eq_none.symm.trans hs⟩
  | op href hcode hitems =>
    refine ⟨.inr ⟨_, _, href, hitems⟩, fun ref' href' => ?_⟩
    obtain rfl := href.unique href'
    exact ⟨_, hcode⟩

/-- Every operand of such a document is of the grammar. -/
theorem of_step {step : Step} {item : Json} (h : Denotes doc e)
    (hstep : step.follow? doc = some item) : ∃ e', Denotes item e' := by
  have hitem : (step, item) ∈ children doc := mem_children.2 hstep
  cases h with
  | @literal _ s hs =>
    cases doc with
    | arr | obj => cases hs
    | _ => simp [children] at hitem
  | op _ _ hitems hes =>
    have hmem := List.mem_map_of_mem (f := Prod.snd) hitem
    rw [hitems.map_children] at hmem
    obtain ⟨e', -, he'⟩ := exists_of_mem_left hes item hmem
    exact ⟨e', he'⟩

/-- Every node of such a document is of the grammar. -/
theorem of_follow (h : Denotes doc e) (hpath : follow? path doc = some node) :
    ∃ e', Denotes node e' := by
  induction path generalizing doc e with
  | nil =>
    cases hpath
    exact ⟨e, h⟩
  | cons step path ih =>
    obtain ⟨item, hstep, hitem⟩ := Option.bind_eq_some_iff.1 hpath
    obtain ⟨e', he'⟩ := h.of_step hstep
    exact ih he' hitem

end Denotes

/-- What is decoded is what the grammar says, wherever it stands in a document. -/
theorem decodeAt_eq_ok_iff : Form.mixed.decodeAt path doc = .ok e ↔ Denotes doc e := by
  induction path, doc using Form.decodeAt_induction .mixed generalizing e with
  | defect path doc defect hview =>
    rw [Form.decodeAt_of_defect hview]
    refine ⟨by rintro ⟨⟩, fun h => ?_⟩
    have hviewed := viewed doc
    rw [hview] at hviewed
    cases hviewed with
    | unknown href hnone =>
      obtain ⟨code, hcode⟩ := h.isShaped_isKnown.2 _ href
      exact absurd hcode (hnone code)
    | misshapen _ hshaped => exact absurd h.isShaped_isKnown.1 hshaped
  | literal path doc s hview =>
    rw [Form.decodeAt_of_literal hview]
    have hs := Form.ofJson?_of_view hview
    constructor
    · rintro ⟨⟩
      exact .literal hs
    · intro h
      cases h with
      | literal hs' => cases hs.symm.trans hs'; rfl
      | op href => cases href.ofJson?_eq_none.symm.trans hs
  | op path doc code operands hview ih =>
    have hviewed := viewed doc
    rw [hview] at hviewed
    cases hviewed with
    | @op ref _ items href hcode hitems =>
      have hoperands es : (children doc).mapM (fun o => Form.mixed.decodeAt (path ++ [o.1]) o.2)
          = .ok es ↔ Forall₂ Denotes items es := by
        rw [← hitems.map_children, mapM_eq_ok_iff, forall₂_map_left_iff]
        have hiff : ∀ o ∈ children doc, ∀ e',
            Form.mixed.decodeAt (path ++ [o.1]) o.2 = .ok e' ↔ Denotes o.2 e' :=
          fun o ho e' => ih o.1 o.2 ho
        constructor
        · intro h
          exact ((forall₂_and_left _ _).2 ⟨hiff, h⟩).imp fun o e' h => (h.1 e').1 h.2
        · intro h
          exact ((forall₂_and_left _ _).2 ⟨hiff, h⟩).imp fun o e' h => (h.1 e').2 h.2
      rw [Form.decodeAt_op hview]
      constructor
      · intro h
        cases hes : (children doc).mapM fun o => Form.mixed.decodeAt (path ++ [o.1]) o.2 with
        | error err => rw [hes] at h; cases h
        | ok es =>
          rw [hes] at h
          cases h
          exact .op href hcode hitems ((hoperands es).1 hes)
      · intro h
        cases h with
        | literal hs => cases href.ofJson?_eq_none.symm.trans hs
        | op href' hcode' hitems' hes =>
          obtain rfl := href.unique href'
          rw [← hitems'.map_children, hitems.map_children] at hes
          rw [(hoperands _).2 hes]
          cases (Reference.read_eq_ok.2 hcode).symm.trans (Reference.read_eq_ok.2 hcode')
          rfl

/-! ### What is refused -/

/-- Decoding stops at the first node, in document order, that is out of shape or refers to no
operator. -/
theorem exists_follow_of_decodeAt {base : List Step} {r : Rejection}
    (h : Form.mixed.decodeAt base doc = .error r) :
    ∃ path node, r.path = base ++ path ∧ follow? path doc = some node ∧
      Form.mixed.view node = .error r.defect ∧
      ∀ path' node', Precedes path' path → follow? path' doc = some node' →
        IsShaped node' ∧ IsKnown node' := by
  induction base, doc using Form.decodeAt_induction .mixed with
  | defect base doc defect hview =>
    rw [Form.decodeAt_of_defect hview] at h
    cases h
    refine ⟨[], doc, (append_nil base).symm, rfl, hview, ?_⟩
    rintro path' node' ⟨⟩
  | literal base doc s hview =>
    rw [Form.decodeAt_of_literal hview] at h
    cases h
  | op base doc code operands hview ih =>
    rw [Form.decodeAt_op hview] at h
    have hviewed := viewed doc
    rw [hview] at hviewed
    cases hviewed with
    | op href hcode hitems =>
      cases hes : (children doc).mapM fun o => Form.mixed.decodeAt (base ++ [o.1]) o.2 with
      | ok es => rw [hes] at h; cases h
      | error err =>
        rw [hes] at h
        cases h
        obtain ⟨before, o, after, hsplit, herror, hbefore⟩ := exists_of_mapM_eq_error hes
        have ho : o ∈ children doc := hsplit ▸ mem_append_right before mem_cons_self
        have hstep := mem_children.1 ho
        obtain ⟨path, node, hpath, hfollow, hdefect, hfirst⟩ := ih o.1 o.2 ho herror
        refine ⟨o.1 :: path, node, ?_, ?_, hdefect, fun path' node' hprecedes hfollow' => ?_⟩
        · rw [hpath, append_assoc, singleton_append]
        · rw [follow?, foldlM_cons, hstep]
          exact hfollow
        cases path' with
        | nil =>
          cases hfollow'
          refine ⟨.inr ⟨_, _, href, hitems⟩, fun ref' href' => ?_⟩
          obtain rfl := href.unique href'
          exact ⟨_, hcode⟩
        | cons step' path' =>
          obtain ⟨item, hstep', hitem⟩ := Option.bind_eq_some_iff.1 hfollow'
          have hmem : (step', item) ∈ children doc := mem_children.2 hstep'
          cases hprecedes with
          | cons hprecedes =>
            cases hstep'.symm.trans hstep
            exact hfirst path' node' hprecedes hitem
          | rel hplace =>
            -- An operand further to the left has been decoded.
            obtain ⟨e', he'⟩ := hbefore _ (mem_before_of_place_lt hsplit hmem hplace)
            obtain ⟨e'', he''⟩ := (decodeAt_eq_ok_iff.1 he').of_follow hitem
            exact he''.isShaped_isKnown

/-- Decoding accepts just the documents of the grammar, and gives what they stand for. If it refuses
a document, following the path that it reports leads to the first node in document order that is out
of shape or refers to no operator. What is reported is the unknown operator of that node, or else
invalid input, in which case the node is out of shape. -/
theorem decode_iff_denotes (doc : Json) :
    (∀ e, Form.mixed.decode doc = .ok e ↔ Denotes doc e) ∧
    (∀ e, Denotes doc e → Form.mixed.graph doc = .ok (.ofExpr e)) ∧
    ∀ r, Form.mixed.decode doc = .error r →
      ∃ node, follow? r.path doc = some node ∧
        (∀ path' node', Precedes path' r.path → follow? path' doc = some node' →
          IsShaped node' ∧ IsKnown node') ∧
        ((∃ ref, Refers node ref ∧ (∀ code, ¬ ref.Means code) ∧
            r.defect = .unknownOperator ref.error ∧
            (Cause.document r).code = "LinearizeError::Op" ∧
            (Cause.document r).message = ref.error.message) ∨
          (¬ IsShaped node ∧ (∀ error, r.defect ≠ .unknownOperator error) ∧
            (Cause.document r).code = "LinearizeError::InvalidInput" ∧
            (Cause.document r).message = s!"Invalid input at {displayPath r.path}")) := by
  refine ⟨fun e => decodeAt_eq_ok_iff, fun e h => ?_, fun r h => ?_⟩
  · have hdecode : Form.mixed.decode doc = .ok e := decodeAt_eq_ok_iff.2 h
    rw [Form.graph, hdecode]
    rfl
  · obtain ⟨path, node, hpath, hfollow, hview, hfirst⟩ := exists_follow_of_decodeAt h
    obtain ⟨form, _, defect⟩ := r
    obtain rfl : form = .mixed := Form.form_of_decodeAt h
    obtain rfl : _ = path := hpath
    have hviewed := viewed node
    rw [hview] at hviewed
    refine ⟨node, hfollow, hfirst, ?_⟩
    cases hviewed with
    | unknown href hnone => exact .inl ⟨_, href, hnone, rfl, rfl, rfl⟩
    | misshapen hdefect hshaped =>
      refine .inr ⟨hshaped, hdefect, ?_⟩
      cases defect with
      | unknownOperator error => exact absurd rfl (hdefect error)
      | _ => exact ⟨rfl, rfl⟩

/-- The object without a name is reported, not the empty array to the right of it. Without the two
the document is of the grammar. -/
theorem decode_iff_denotes_two_defects :
    Form.mixed.decode (.arr [.int 19, .null, .arr [.int 19, .obj [], .arr []]])
      = .error ⟨.mixed, [.item 2, .item 1], .invalidOperator⟩ ∧
    follow? [.item 2, .item 1] (.arr [.int 19, .null, .arr [.int 19, .obj [], .arr []]])
      = some (.obj []) ∧
    ¬ IsShaped (.obj []) ∧ IsKnown (.arr [.int 19, .obj [], .arr []]) ∧
    Form.mixed.decode (.arr [.int 19, .null, .arr [.int 19]])
      = .ok (.op () .coalesce [.lit () .null, .op () .coalesce []]) := by
  have hinner : ∀ path, Form.mixed.decodeAt path (.arr [.int 19, .obj [], .arr []])
      = .error ⟨.mixed, path ++ [.item 1], .invalidOperator⟩ := by
    intro path
    have hview : Form.mixed.view (.arr [.int 19, .obj [], .arr []])
        = .ok (.op .coalesce [(.item 1, .obj []), (.item 2, .arr [])]) := rfl
    have hfirst : ∀ path, Form.mixed.decodeAt path (.obj [])
        = .error ⟨.mixed, path, .invalidOperator⟩ := fun path => Form.decodeAt_of_defect rfl
    rw [Form.decodeAt_op hview, List.mapM_cons, hfirst]
    rfl
  have hdecode : Form.mixed.decode (.arr [.int 19, .null, .arr [.int 19, .obj [], .arr []]])
      = .error ⟨.mixed, [.item 2, .item 1], .invalidOperator⟩ := by
    have hview : Form.mixed.view (.arr [.int 19, .null, .arr [.int 19, .obj [], .arr []]])
        = .ok (.op .coalesce [(.item 1, .null), (.item 2, .arr [.int 19, .obj [], .arr []])]) := rfl
    have hnull : ∀ path, Form.mixed.decodeAt path .null = .ok (.lit () .null) :=
      fun path => Form.decodeAt_of_literal rfl
    rw [Form.decode, Form.decodeAt_op hview, List.mapM_cons, List.mapM_cons, hnull, hinner]
    rfl
  obtain ⟨-, -, hrefused⟩ := decode_iff_denotes
    (.arr [.int 19, .null, .arr [.int 19, .obj [], .arr []]])
  obtain ⟨node, hnode, hfirst, hdefect⟩ := hrefused _ hdecode
  obtain rfl : .obj [] = node := Option.some.inj hnode
  refine ⟨hdecode, hnode, ?_, ?_, ?_⟩
  · rcases hdefect with ⟨_, _, _, h, -⟩ | ⟨hshaped, -⟩
    · cases h
    · exact hshaped
  · exact (hfirst [.item 2] _ (.cons .nil) rfl).2
  · exact ((decode_iff_denotes _).1 _).2 (.op (.array rfl) rfl .array
      (.cons (.literal rfl) (.cons (.op (.array rfl) rfl .array .nil) .nil)))

end OpTree.Document
