import Mathlib.Data.List.TFAE
import OpTree.Proofs.Document.RoundTrip
import OpTree.Proofs.Labels.Layout

/-!
# Equality of expressions and of their documents

Doubles are equal by value, so that equality of expressions is coarser than sameness at one place:
the two zeros are equal. It is finer at another, because a NaN differs from itself.
Apart from that an expression equals another one exactly if the two are the same once their labels
are erased and one zero is put for both (`Expr.equals_iff_standard_eq`). Equality is therefore an
equivalence relation, and it does not depend on how the nodes are laid out.

Documents are compared as values of their own (`Json.equals`): a whole number is never equal to a
double. Each form of a document compares as the expression that it is written from
(`Expr.equals_toArray`, `Expr.equals_toTree`), and documents that are equal are the same, because
decoding undoes encoding.

Main statement: `Graph.equals_tfae_encodings`.
-/

namespace OpTree

variable {α β γ : Type}

/-! ### Numbers -/

namespace Number

open Float.Model (UnpackedFloat)

/-- One zero for both; any other double as it is. -/
def standard (x : Float) : Float :=
  if isZero x then ofInt 0 else x

/-- Numbers that are unpacked to the same are the same. -/
theorem unpack_inj {x y : Float} (h : unpack x = unpack y) : x = y := by
  rw [← ofModel_pack_unpack x, ← ofModel_pack_unpack y, h]

/-- Exact values are canonical, and so those of the same order are the same, except for zeros. -/
private theorem eq_of_compare {u v : UnpackedFloat} (h : u.compare v = some .eq) :
    u = v ∨ (∃ s, u = .zero s) ∧ ∃ s, v = .zero s := by
  cases u with
  | notANumber => cases v <;> cases h
  | infinity s =>
    cases v with
    | infinity t => cases s <;> cases t <;> first | exact .inl rfl | cases h
    | notANumber | zero | finite => cases s <;> cases h
  | zero s =>
    cases v with
    | zero t => exact .inr ⟨⟨s, rfl⟩, t, rfl⟩
    | notANumber => cases h
    | infinity t | finite t => cases t <;> cases h
  | finite s m e hm =>
    cases v with
    | notANumber => cases s <;> cases h
    | infinity t => cases s <;> cases t <;> cases h
    | zero t => cases s <;> cases h
    | finite t n f hn =>
      left
      have hsame : s = t ∧ (compare e f).then (compare m n) = .eq := by
        cases s <;> cases t
        · exact ⟨rfl, Ordering.swap_eq_eq.1 (Option.some.inj h)⟩
        · cases h
        · cases h
        · exact ⟨rfl, Option.some.inj h⟩
      obtain ⟨rfl, hcompare⟩ := hsame
      obtain ⟨hexponent, hmantissa⟩ := Ordering.then_eq_eq.1 hcompare
      obtain rfl := Std.compare_eq_iff_eq.1 hexponent
      obtain rfl := Std.compare_eq_iff_eq.1 hmantissa
      rfl

/-- Whatever is not NaN compares equal to itself. -/
private theorem compare_self {u : UnpackedFloat} (h : u.isNaN = false) :
    u.compare u = some .eq := by
  cases u with
  | notANumber => cases h
  | infinity s => cases s <;> rfl
  | zero s => rfl
  | finite s m e hm =>
    have hsame : (compare e e).then (compare m m) = .eq := by simp
    cases s with
    | negative => exact congrArg (fun o => some o.swap) hsame
    | positive => exact congrArg some hsame

/-- Zeros are unpacked to zeros. -/
private theorem isZero_iff {x : Float} : isZero x ↔ ∃ s, unpack x = .zero s := by
  rw [isZero]
  cases unpack x <;> simp

/-- Being a zero does not depend on the sign. -/
private theorem isZero_standard (x : Float) : isZero (standard x) = isZero x := by
  rw [standard]
  split
  · rename_i hx
    exact hx.symm
  · rfl

/-- Only zeros are equal without being the same, and only a NaN differs from itself. -/
theorem beq_iff {x y : Float} (hx : x.isNaN = false) :
    (x == y) = true ↔ isZero x ∧ isZero y ∨ x = y := by
  have hbeq : (x == y) = ((unpack x).compare (unpack y) == some .eq) := rfl
  rw [hbeq, beq_iff_eq]
  constructor
  · intro h
    rcases eq_of_compare h with h | ⟨hzx, hzy⟩
    · exact .inr (unpack_inj h)
    · exact .inl ⟨isZero_iff.2 hzx, isZero_iff.2 hzy⟩
  · rintro (⟨hzx, hzy⟩ | rfl)
    · obtain ⟨s, hs⟩ := isZero_iff.1 hzx
      obtain ⟨t, ht⟩ := isZero_iff.1 hzy
      rw [hs, ht]
      rfl
    · exact compare_self hx

/-- Numbers other than NaN are equal just if they are the same but for the sign of zero. -/
theorem beq_iff_standard_eq {x y : Float} (hx : x.isNaN = false) :
    (x == y) = true ↔ standard x = standard y := by
  rw [beq_iff hx]
  constructor
  · rintro (⟨hzx, hzy⟩ | rfl)
    · rw [standard, standard, if_pos hzx, if_pos hzy]
    · rfl
  · intro h
    have hzero : isZero x = isZero y := by rw [← isZero_standard x, h, isZero_standard]
    by_cases hzx : isZero x
    · exact .inl ⟨hzx, hzero ▸ hzx⟩
    · rw [standard, standard, if_neg hzx, if_neg (hzero ▸ hzx)] at h
      exact .inr h

/-- Only negative zero changes. -/
theorem standard_eq_self {x : Float} (hx : isNegativeZero x = false) : standard x = x := by
  rw [standard]
  split
  · rename_i hzero
    obtain ⟨s, hs⟩ := isZero_iff.1 hzero
    rw [isNegativeZero, hs] at hx
    cases s with
    | negative => cases hx
    | positive => exact unpack_inj hs.symm
  · rfl

end Number

/-! ### Scalars -/

namespace Scalar

/-- Whether the scalar is a NaN. -/
def isNaN : Scalar → Bool
  | .num x => x.isNaN
  | _ => false

/-- Whether the scalar is zero with the sign bit set. -/
def isNegativeZero : Scalar → Bool
  | .num x => Number.isNegativeZero x
  | _ => false

/-- One zero for both; any other scalar as it is. -/
def standard : Scalar → Scalar
  | .num x => .num (Number.standard x)
  | s => s

variable {s t : Scalar}

/-- Scalars other than NaN are equal just if they are the same but for the sign of zero. -/
theorem equals_iff_standard_eq (hs : s.isNaN = false) : s.equals t ↔ s.standard = t.standard := by
  cases s <;> cases t <;> simp only [equals, standard, beq_iff_eq, num.injEq, str.injEq,
    bool.injEq, reduceCtorEq, Bool.false_eq_true]
  exact Number.beq_iff_standard_eq hs

/-- Only negative zero changes. -/
theorem standard_eq_self (hs : s.isNegativeZero = false) : s.standard = s := by
  cases s with
  | num x => exact congrArg num (Number.standard_eq_self hs)
  | null | str | bool => rfl

/-- A valid scalar is not NaN. -/
theorem isNaN_of_isValid (hs : s.isValid) : s.isNaN = false := by
  cases s with
  | num x =>
    change (Number.unpack x).isFinite at hs
    change (Number.unpack x).isNaN = false
    cases hx : Number.unpack x <;> rw [hx] at hs <;> first | rfl | cases hs
  | null | str | bool => rfl

end Scalar

/-! ### Expressions -/

namespace Expr

/-- No literal is a NaN. -/
def HasNoNaN (e : Expr α) : Prop :=
  ∀ s ∈ e.literals, s.isNaN = false

/-- All numbers among the literals are finite, and none of them is negative zero. -/
structure IsStandard (e : Expr α) : Prop where
  isFinite : e.IsFinite
  not_negative_zero : ∀ s ∈ e.literals, s.isNegativeZero = false

/-- The operands of a standard expression are standard. -/
theorem IsStandard.of_mem {a : α} {code : Operator} {es : List (Expr α)}
    (h : (op a code es).IsStandard) : ∀ e ∈ es, e.IsStandard := fun e he =>
  ⟨h.isFinite.of_mem e he, fun s hs => h.not_negative_zero s (literals_subset he hs)⟩

/-- Finite numbers are not NaN. -/
theorem IsStandard.hasNoNaN {e : Expr α} (h : e.IsStandard) : e.HasNoNaN :=
  fun s hs => Scalar.isNaN_of_isValid (h.isFinite s hs)

/-- The expression without its labels, one zero being put for both. -/
def standard (e : Expr α) : Expr Unit :=
  (e.mapLiterals Scalar.standard).erase

/-- The labels are dropped, and the operands are made standard. -/
theorem standard_op (a : α) (c : Operator) (es : List (Expr α)) :
    (op a c es).standard = op () c (es.map standard) := by
  rw [standard, mapLiterals, mapLiteralsAll_eq, erase, map, mapAll_eq, List.map_map]
  rfl

/-- An expression that is standard already loses its labels only. -/
theorem IsStandard.standard_eq {e : Expr α} (h : e.IsStandard) : e.standard = e.erase := by
  rw [standard, mapLiterals_eq_self fun s hs => Scalar.standard_eq_self (h.not_negative_zero s hs)]

private theorem equalsAll_iff {es : List (Expr α)} {fs : List (Expr β)}
    (h : ∀ e ∈ es, ∀ f : Expr β, e.equals f ↔ e.standard = f.standard) :
    equalsAll es fs ↔ es.map standard = fs.map standard := by
  induction es generalizing fs with
  | nil => cases fs <;> simp [equalsAll]
  | cons e es ih =>
    rw [List.forall_mem_cons] at h
    cases fs with
    | nil => simp [equalsAll]
    | cons f fs =>
      rw [equalsAll, Bool.and_eq_true, h.1 f, ih h.2, List.map_cons, List.map_cons,
        List.cons.injEq]

/-- **Equality is sameness of the standard forms**, unless a literal is a NaN. -/
theorem equals_iff_standard_eq {e : Expr α} {f : Expr β} (he : e.HasNoNaN) :
    e.equals f ↔ e.standard = f.standard := by
  induction e generalizing f with
  | lit a s =>
    cases f with
    | lit b t =>
      rw [equals, Scalar.equals_iff_standard_eq (he s (List.mem_singleton_self s))]
      simp [standard, mapLiterals, erase, map]
    | op => simp [equals, standard, mapLiterals, erase, map]
  | op a c es ih =>
    cases f with
    | lit => simp [equals, standard, mapLiterals, erase, map]
    | op b d fs =>
      have hes : equalsAll es fs ↔ es.map standard = fs.map standard :=
        equalsAll_iff fun e hmem f => ih e hmem fun s hs => he s (literals_subset hmem hs)
      rw [standard_op, standard_op, equals, Bool.and_eq_true, Bool.and_eq_true, hes, beq_iff_eq,
        beq_iff_eq]
      constructor
      · rintro ⟨⟨rfl, -⟩, h⟩
        rw [h]
      · intro h
        obtain ⟨-, rfl, hmap⟩ := op.inj h
        exact ⟨⟨rfl, by simpa using congrArg List.length hmap⟩, hmap⟩

section

variable (f : β → γ)

mutual

/-- Labels do not matter on the right-hand side either. -/
theorem equals_map_right : (e : Expr α) → (e' : Expr β) → e.equals (e'.map f) = e.equals e'
  | lit .., lit .. | lit .., op .. | op .., lit .. => rfl
  | op _ c es, op _ d fs => by
    rw [map, equals, equals, equalsAll_mapAll_right es fs, mapAll_eq, List.length_map]

private theorem equalsAll_mapAll_right : (es : List (Expr α)) → (fs : List (Expr β)) →
    equalsAll es (mapAll f fs) = equalsAll es fs
  | [], [] | [], _ :: _ | _ :: _, [] => rfl
  | e :: es, e' :: fs => by
    rw [mapAll, equalsAll, equalsAll, equals_map_right e e', equalsAll_mapAll_right es fs]

end

end

/-- Equality only depends on the expressions without their labels. -/
theorem equals_erase (e : Expr α) (f : Expr β) : e.erase.equals f.erase = e.equals f := by
  rw [erase, erase, equals_map, equals_map_right]

end Expr

/-! ### Documents -/

namespace Json

mutual

/-- Equality of documents: numbers are equal by value, but whole numbers and doubles are kept apart.
The fields of an object come in the order of their names on both sides. -/
def equals : Json → Json → Bool
  | .null, .null => true
  | .bool b, .bool c => b == c
  | .int m, .int n => m == n
  | .float x, .float y => x == y
  | .str s, .str t => s == t
  | .arr items, .arr items' => equalsItems items items'
  | .obj fields, .obj fields' => equalsFields fields fields'
  | _, _ => false

/-- Equality of arrays, item by item. -/
def equalsItems : List Json → List Json → Bool
  | [], [] => true
  | item :: rest, item' :: rest' => equals item item' && equalsItems rest rest'
  | _, _ => false

/-- Equality of objects, field by field. -/
def equalsFields : List (String × Json) → List (String × Json) → Bool
  | [], [] => true
  | (name, value) :: rest, (name', value') :: rest' =>
    name == name' && equals value value' && equalsFields rest rest'
  | _, _ => false

end

end Json

namespace Scalar

/-- A finite number is written either way, as a whole number or as a double. -/
private theorem toJson_num {x : Float} (hx : x.isFinite) :
    (∃ n, Number.toSafeInt? x = some n ∧ (num x).toJson = .int n) ∨
      Number.toSafeInt? x = none ∧ (num x).toJson = .float x := by
  rw [toJson]
  cases Number.toSafeInt? x with
  | some n => exact .inl ⟨n, rfl, rfl⟩
  | none => exact .inr ⟨rfl, by simp [hx]⟩

/-- Written scalars compare as the scalars do. -/
theorem equals_toJson {s t : Scalar} (hs : s.isValid) (ht : t.isValid)
    (hs' : s.isNegativeZero = false) (ht' : t.isNegativeZero = false) :
    s.toJson.equals t.toJson = s.equals t := by
  have hsame : s.equals t ↔ s = t := by
    rw [equals_iff_standard_eq (isNaN_of_isValid hs), standard_eq_self hs', standard_eq_self ht']
  cases s with
  | num x =>
    cases t with
    | num y =>
      rw [num.injEq] at hsame
      rcases toJson_num hs with ⟨n, hn, hx⟩ | ⟨hn, hx⟩ <;>
        rcases toJson_num ht with ⟨m, hm, hy⟩ | ⟨hm, hy⟩ <;> rw [hx, hy, Bool.eq_iff_iff, hsame]
      · rw [Json.equals, beq_iff_eq]
        constructor
        · rintro rfl
          rw [← Number.ofInt_of_toSafeInt? hn, Number.ofInt_of_toSafeInt? hm]
        · rintro rfl
          exact Option.some.inj (hn.symm.trans hm)
      · refine iff_of_false Bool.false_ne_true ?_
        rintro rfl
        cases hn.symm.trans hm
      · refine iff_of_false Bool.false_ne_true ?_
        rintro rfl
        cases hn.symm.trans hm
      · exact hsame
    | null | str | bool =>
      rcases toJson_num hs with ⟨n, -, hx⟩ | ⟨-, hx⟩ <;> rw [hx] <;> rfl
  | null | str | bool =>
    cases t with
    | num y =>
      rcases toJson_num ht with ⟨n, -, hy⟩ | ⟨-, hy⟩ <;> rw [hy] <;> rfl
    | null | str | bool => rfl

end Scalar

namespace Expr

/-- Written operands compare as the operands do, if each of them does. -/
private theorem equalsItems_map {write : Expr α → Json} {write' : Expr β → Json}
    {es : List (Expr α)} {fs : List (Expr β)}
    (h : ∀ e ∈ es, ∀ f ∈ fs, (write e).equals (write' f) = e.equals f) :
    Json.equalsItems (es.map write) (fs.map write')
      = (es.length == fs.length && equalsAll es fs) := by
  induction es generalizing fs with
  | nil => cases fs <;> rfl
  | cons e es ih =>
    cases fs with
    | nil => rfl
    | cons f fs =>
      simp only [List.forall_mem_cons] at h
      obtain ⟨⟨he, -⟩, hrest⟩ := h
      have hes := ih fun e hmem => (hrest e hmem).2
      have hlen : (es.length + 1 == fs.length + 1) = (es.length == fs.length) := by simp
      rw [List.map_cons, List.map_cons, Json.equalsItems, he, hes, equalsAll, List.length_cons,
        List.length_cons, hlen, Bool.and_left_comm]

variable {e : Expr α} {f : Expr β}

/-- No literal is written as an operator is in the array form. -/
private theorem equals_toJson_arr (s : Scalar) (items : List Json) :
    s.toJson.equals (.arr items) = false ∧ (Json.arr items).equals s.toJson = false := by
  have hread := s.ofJson?_toJson
  cases hs : s.toJson with
  | arr => rw [hs] at hread; cases hread
  | null | bool | int | float | str | obj => exact ⟨rfl, rfl⟩

/-- No literal is written as an operator is in the tree form. -/
private theorem equals_toJson_obj (s : Scalar) (fields : List (String × Json)) :
    s.toJson.equals (.obj fields) = false ∧ (Json.obj fields).equals s.toJson = false := by
  have hread := s.ofJson?_toJson
  cases hs : s.toJson with
  | obj => rw [hs] at hread; cases hread
  | null | bool | int | float | str | arr => exact ⟨rfl, rfl⟩

/-- Literals are written alike just if they are equal. -/
private theorem equals_toJson_of_isStandard {a : α} {b : β} {s t : Scalar}
    (he : (lit a s).IsStandard) (hf : (lit b t).IsStandard) :
    s.toJson.equals t.toJson = s.equals t :=
  Scalar.equals_toJson (he.isFinite s (List.mem_singleton_self s))
    (hf.isFinite t (List.mem_singleton_self t))
    (he.not_negative_zero s (List.mem_singleton_self s))
    (hf.not_negative_zero t (List.mem_singleton_self t))

/-- **The array form compares as the expression does.** -/
theorem equals_toArray (he : e.IsStandard) (hf : f.IsStandard) :
    e.toArray.equals f.toArray = e.equals f := by
  induction e generalizing f with
  | lit a s =>
    cases f with
    | lit b t => exact equals_toJson_of_isStandard he hf
    | op => exact (equals_toJson_arr s _).1
  | op a c es ih =>
    cases f with
    | lit b t => exact (equals_toJson_arr t _).2
    | op b d fs =>
      have hitems : Json.equalsItems (es.map toArray) (fs.map toArray)
          = (es.length == fs.length && equalsAll es fs) :=
        equalsItems_map fun e hmem f hmem' => ih e hmem (he.of_mem e hmem) (hf.of_mem f hmem')
      have hnumber : ((c.number : Int) == d.number) = (c == d) := by
        cases c <;> cases d <;> rfl
      rw [toArray, toArray, toArrayAll_eq, toArrayAll_eq, Json.equals, Json.equalsItems, hitems,
        Json.equals, hnumber, equals, Bool.and_assoc]

/-- **The tree form compares as the expression does.** -/
theorem equals_toTree (he : e.IsStandard) (hf : f.IsStandard) :
    e.toTree.equals f.toTree = e.equals f := by
  induction e generalizing f with
  | lit a s =>
    cases f with
    | lit b t => exact equals_toJson_of_isStandard he hf
    | op => exact (equals_toJson_obj s _).1
  | op a c es ih =>
    cases f with
    | lit b t => exact (equals_toJson_obj t _).2
    | op b d fs =>
      have hitems : Json.equalsItems (es.map toTree) (fs.map toTree)
          = (es.length == fs.length && equalsAll es fs) :=
        equalsItems_map fun e hmem f hmem' => ih e hmem (he.of_mem e hmem) (hf.of_mem f hmem')
      have hname : (c.name == d.name) = (c == d) := by
        cases c <;> cases d <;> decide
      simp only [toTree, toTreeAll_eq, Json.equals, Json.equalsFields, hitems, hname, equals,
        beq_self_eq_true, Bool.true_and, Bool.and_true, Bool.and_assoc]

/-- The array form tells apart what equality does: it is read back. -/
private theorem toArray_eq_iff (he : e.IsStandard) (hf : f.IsStandard) :
    e.toArray = f.toArray ↔ e.erase = f.erase := by
  constructor
  · intro h
    have hread := Document.Form.decodeAt_toArray e []
    rw [h, Document.Form.decodeAt_toArray f [], written_of_isFinite he.isFinite,
      written_of_isFinite hf.isFinite] at hread
    exact (Except.ok.inj hread).symm
  · intro h
    rw [← e.toArray_map fun _ => (), ← f.toArray_map fun _ => ()]
    exact congrArg toArray h

/-- The tree form tells apart what equality does: it is read back. -/
private theorem toTree_eq_iff (he : e.IsStandard) (hf : f.IsStandard) :
    e.toTree = f.toTree ↔ e.erase = f.erase := by
  constructor
  · intro h
    have hread := Document.Form.decodeAt_toTree .tree e []
    rw [h, Document.Form.decodeAt_toTree .tree f [], written_of_isFinite he.isFinite,
      written_of_isFinite hf.isFinite] at hread
    exact (Except.ok.inj hread).symm
  · intro h
    rw [← e.toTree_map fun _ => (), ← f.toTree_map fun _ => ()]
    exact congrArg toTree h

end Expr

/-! ### Graphs -/

/-- **Equality is equality of encodings.** On graphs without a NaN among their literals equality is
an equivalence relation. It only depends on the expressions that the graphs unfold to: not on the
addresses of the nodes, on what else the stores hold or on which nodes are shared. If in two graphs
all numbers are finite and none is negative zero, then they are equal if and only if their array
forms are equal, and if and only if their tree forms are; and documents written from such graphs are
equal only if they are the same. -/
theorem Graph.equals_tfae_encodings :
    Equivalence (fun g h : {g : Graph // g.tree.HasNoNaN} => g.1.equals h.1 = true) ∧
      (∀ g g' h h' : Graph, g.tree.erase = g'.tree.erase → h.tree.erase = h'.tree.erase →
        g.equals h = g'.equals h') ∧
      ∀ g h : Graph, g.tree.IsStandard → h.tree.IsStandard →
        List.TFAE [g.equals h = true, g.tree.toArray.equals h.tree.toArray = true,
          g.tree.toTree.equals h.tree.toTree = true, g.tree.toArray = h.tree.toArray,
          g.tree.toTree = h.tree.toTree] := by
  refine ⟨?_, fun g g' h h' hg hh => ?_, fun g h hg hh => ?_⟩
  · have hkernel (g h : {g : Graph // g.tree.HasNoNaN}) :
        g.1.equals h.1 = true ↔ g.1.tree.standard = h.1.tree.standard :=
      Expr.equals_iff_standard_eq g.2
    simp only [hkernel]
    exact ⟨fun _ => rfl, Eq.symm, Eq.trans⟩
  · rw [equals, equals, ← Expr.equals_erase, hg, hh, Expr.equals_erase]
  · have hsame : g.equals h = true ↔ g.tree.erase = h.tree.erase := by
      rw [equals, Expr.equals_iff_standard_eq hg.hasNoNaN, hg.standard_eq, hh.standard_eq]
    rw [Expr.equals_toArray hg hh, Expr.equals_toTree hg hh]
    tfae_have 1 ↔ 2 := Iff.rfl
    tfae_have 1 ↔ 3 := Iff.rfl
    tfae_have 1 ↔ 4 := hsame.trans (Expr.toArray_eq_iff hg hh).symm
    tfae_have 1 ↔ 5 := hsame.trans (Expr.toTree_eq_iff hg hh).symm
    tfae_finish

/-- A difference whose second operand comes first in the store. -/
def Graph.difference : Graph where
  nodes := #[.lit (.num 2), .lit (.num 0.5), .op .sub [⟨1⟩, ⟨0⟩]]
  tree := .op ⟨2⟩ .sub [.lit ⟨1⟩ (.num 0.5), .lit ⟨0⟩ (.num 2)]
  unfolds := .op rfl (List.forall_mem_cons.2 ⟨.lit rfl, List.forall_mem_singleton.2 (.lit rfl)⟩)

/-- The same difference with its operands in order. -/
theorem Graph.equals_tfae_encodings_difference :
    let ordered : Graph := .ofExpr difference.tree.erase
    ordered.nodes ≠ difference.nodes ∧ ordered.tree.erase = difference.tree.erase ∧
      ordered.tree.IsStandard ∧ difference.tree.IsStandard ∧
      ordered.equals difference = true ∧ difference.equals ordered = true ∧
      ordered.tree.toArray.equals difference.tree.toArray = true ∧
      ordered.tree.toTree.equals difference.tree.toTree = true := by
  intro ordered
  have hnodes : ordered.nodes ≠ difference.nodes := by decide +kernel
  have herase : ordered.tree.erase = difference.tree.erase := rfl
  have hstandard {α : Type} {a b c : α} :
      (Expr.op a .sub [.lit b (.num 0.5), .lit c (.num 2)]).IsStandard := by
    constructor
    · change ∀ s ∈ [Scalar.num 0.5, .num 2], s.isValid
      decide +kernel
    · change ∀ s ∈ [Scalar.num 0.5, .num 2], s.isNegativeZero = false
      decide +kernel
  have ho : ordered.tree.IsStandard := hstandard
  have hd : difference.tree.IsStandard := hstandard
  obtain ⟨hequiv, hlayout, htfae⟩ := Graph.equals_tfae_encodings
  have hrefl : difference.equals difference = true := hequiv.refl ⟨difference, hd.hasNoNaN⟩
  have hequal : ordered.equals difference = true :=
    (hlayout ordered difference difference difference herase rfl).trans hrefl
  have hsymm : difference.equals ordered = true :=
    hequiv.symm (x := ⟨ordered, ho.hasNoNaN⟩) (y := ⟨difference, hd.hasNoNaN⟩) hequal
  have htfae := htfae ordered difference ho hd
  exact ⟨hnodes, herase, ho, hd, hequal, hsymm, (htfae.out 0 1).1 hequal, (htfae.out 0 2).1 hequal⟩

end OpTree
