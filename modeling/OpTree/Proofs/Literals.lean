import OpTree.Expr.Basic

/-!
# The literals of an expression

Literals are read off an expression from left to right (`literals`), or replaced in place
(`mapLiterals`). An expression whose numbers are finite (`IsFinite`) equals every expression that
only differs from it in the labels (`equals_of_erase_eq`); what is not a number would not even equal
itself.
-/

namespace OpTree

open Float.Model (UnpackedFloat)

/-- A finite number equals itself. -/
theorem Number.beq_self {x : Float} (hx : x.isFinite) : (x == x) = true := by
  change x.toModel.unpack.beq x.toModel.unpack = true
  change x.toModel.unpack.isFinite at hx
  generalize x.toModel.unpack = u at hx ⊢
  cases u with
  | infinity | notANumber => cases hx
  | zero s => rfl
  | finite s m e hm =>
    have hsame : (compare e e).then (compare m m) = .eq := by simp
    cases s with
    | positive =>
      change (some ((compare e e).then (compare m m)) == some .eq) = true
      rw [hsame]
      rfl
    | negative =>
      change (some ((compare e e).then (compare m m)).swap == some .eq) = true
      rw [hsame]
      rfl

theorem Scalar.equals_self {s : Scalar} (hs : s.isValid) : s.equals s := by
  cases s with
  | null => rfl
  | num x => exact Number.beq_self hs
  | str => exact beq_self_eq_true _
  | bool => exact beq_self_eq_true _

namespace Expr

variable {α β : Type}

mutual

/-- The values of the literals, from left to right. -/
def literals : Expr α → List Scalar
  | lit _ s => [s]
  | op _ _ es => literalsAll es

/-- The values of the literals in a list of expressions. -/
def literalsAll : List (Expr α) → List Scalar
  | [] => []
  | e :: es => literals e ++ literalsAll es

end

/-- Every number that is spelled out is finite. -/
def IsFinite (e : Expr α) : Prop :=
  ∀ s ∈ e.literals, s.isValid

private theorem literals_subset_literalsAll {e : Expr α} {es : List (Expr α)} (he : e ∈ es) :
    e.literals ⊆ literalsAll es := by
  induction es with
  | nil => exact absurd he List.not_mem_nil
  | cons e' es ih =>
    rcases List.mem_cons.1 he with rfl | he
    · exact List.subset_append_left _ _
    · exact List.subset_append_of_subset_right _ (ih he)

/-- The literals of an operand are literals of its operator. -/
theorem literals_subset {a : α} {code : Operator} {e : Expr α} {es : List (Expr α)}
    (he : e ∈ es) : e.literals ⊆ (op a code es).literals :=
  literals_subset_literalsAll he

theorem IsFinite.of_mem {a : α} {code : Operator} {es : List (Expr α)}
    (h : (op a code es).IsFinite) : ∀ e ∈ es, e.IsFinite :=
  fun _ he s hs => h s (literals_subset he hs)

theorem isFinite_op {a : α} {code : Operator} {es : List (Expr α)} (h : ∀ e ∈ es, e.IsFinite) :
    (op a code es).IsFinite := by
  have hall : ∀ s ∈ literalsAll es, s.isValid := by
    induction es with
    | nil => exact fun s hs => absurd hs List.not_mem_nil
    | cons e es ih =>
      rw [List.forall_mem_cons] at h
      exact fun s hs => (List.mem_append.1 hs).elim (h.1 s) (ih h.2 s)
  exact hall

private theorem equalsAll_of_forall : ∀ {es : List (Expr α)} {fs : List (Expr β)},
    es.map erase = fs.map erase → (∀ e ∈ es, ∀ f : Expr β, e.erase = f.erase → e.equals f) →
      equalsAll es fs
  | [], [], _, _ => rfl
  | e :: es, f :: fs, h, heq => by
    obtain ⟨he, hes⟩ := List.cons.inj h
    rw [List.forall_mem_cons] at heq
    rw [equalsAll, heq.1 f he, equalsAll_of_forall hes heq.2]
    rfl

/-- Expressions that only differ in their labels are equal if their numbers are finite. -/
theorem equals_of_erase_eq {e : Expr α} {f : Expr β} (he : e.IsFinite) (h : e.erase = f.erase) :
    e.equals f := by
  induction e generalizing f with
  | lit a s =>
    cases f with
    | lit =>
      cases h
      exact Scalar.equals_self (he s (List.mem_singleton_self s))
    | op => cases h
  | op a code es ih =>
    cases f with
    | lit => cases h
    | op b code' fs =>
      rw [erase_op, erase_op] at h
      obtain ⟨-, rfl, hes⟩ := op.inj h
      have hlen : es.length = fs.length := by simpa using congrArg List.length hes
      rw [equals, hlen, beq_self_eq_true, beq_self_eq_true, Bool.and_self, Bool.true_and]
      exact equalsAll_of_forall hes fun e hmem f => ih e hmem (he.of_mem e hmem)

mutual

/-- Replaces the value of every literal. -/
def mapLiterals (f : Scalar → Scalar) : Expr α → Expr α
  | lit a s => lit a (f s)
  | op a c es => op a c (mapLiteralsAll f es)

/-- Replaces the value of every literal in a list of expressions. -/
def mapLiteralsAll (f : Scalar → Scalar) : List (Expr α) → List (Expr α)
  | [] => []
  | e :: es => mapLiterals f e :: mapLiteralsAll f es

end

theorem mapLiteralsAll_eq (f : Scalar → Scalar) (es : List (Expr α)) :
    mapLiteralsAll f es = es.map (mapLiterals f) := by
  induction es with
  | nil => rfl
  | cons e es ih => rw [mapLiteralsAll, ih, List.map_cons]

/-- Replacing each literal by itself changes nothing. -/
theorem mapLiterals_eq_self {f : Scalar → Scalar} {e : Expr α}
    (h : ∀ s ∈ e.literals, f s = s) : e.mapLiterals f = e := by
  induction e with
  | lit a s => rw [mapLiterals, h s (List.mem_singleton_self s)]
  | op a c es ih =>
    have hes : ∀ e ∈ es, e.mapLiterals f = e := fun e he =>
      ih e he fun s hs => h s (literals_subset he hs)
    rw [mapLiterals, mapLiteralsAll_eq, List.map_congr_left hes, List.map_id']

end Expr

end OpTree
