import Mathlib.Data.List.Forall2
import OpTree.Proofs.Evaluation.Related

/-!
# Comparing the operators

An operator says nothing about how its operands are evaluated, so it agrees with itself on both
sides of a comparison as soon as the visits of its operands do. `related_apply` says so for the
operators that only combine the values of their operands (the *plain* ones, all but `call`,
`lookup`, `scope` and `lambda`); the others come in the modules that follow. `PlainFault` lists what
can go wrong at a plain operator itself.
-/

namespace OpTree

/-- Whether the operator only combines the values of its operands. -/
def Operator.isPlain (code : Operator) : Bool :=
  code ∉ [.call, .lookup, .scope, .lambda]

/-- The other operators are those that have to do with names. -/
theorem Operator.isPlain_or (code : Operator) :
    code.isPlain ∨ code = .call ∨ code = .lookup ∨ code = .scope ∨ code = .lambda := by
  cases code <;> decide

/-- A plain operator is none of the others. -/
theorem Operator.ne_of_isPlain {code other : Operator} (h : code.isPlain)
    (hother : other.isPlain = false) : code ≠ other := by
  rintro rfl
  cases h.symm.trans hother

/-- The operators whose values are numbers that are computed. -/
def Operator.arithmetic : List Operator := [.add, .sub, .mul, .div, .mod]

/-- The operators that compare numbers by their order. -/
def Operator.ordering : List Operator := [.lt, .le, .ge, .gt]

/-- What can go wrong at a plain operator, its operands having values. -/
inductive PlainFault : Operator → EvalError Unit → Prop
  | invalidOperand {code found} : code ∈ Operator.arithmetic ++ Operator.ordering →
      found = .string ∨ found = .boolean → PlainFault code (.invalidOperand () code found)
  | zeroDivision {code} : code = .div ∨ code = .mod → PlainFault code (.zeroDivision ())
  | overflow {code} : code ∈ Operator.arithmetic → PlainFault code (.overflow ())

namespace Comparison

open Eval List

variable {α β : Type} {cmp : Comparison α β} {visit : Expr α → EvalM α Scalar}
  {visit' : Expr β → EvalM β Scalar} {node : α} {node' : β} {P : State α → State β → Prop}

/-- Visiting the one expression agrees with visiting the other. -/
def Visits (cmp : Comparison α β) (visit : Expr α → EvalM α Scalar)
    (visit' : Expr β → EvalM β Scalar) (P : State α → State β → Prop) (e : Expr α)
    (f : Expr β) : Prop :=
  cmp.Related P P cmp.Same (visit e) (visit' f)

/-- A fault of the operator on the left is answered by the same fault on the right. -/
def Faults (cmp : Comparison α β) (node : α) (node' : β) (code : Operator) : Prop :=
  ∀ err, PlainFault code err →
    cmp.Accepts (err.map fun _ => node) (err.map fun _ => node')

variable {code : Operator} {e e₁ e₂ : Expr α} {f f₁ f₂ : Expr β} {es : List (Expr α)}
  {fs : List (Expr β)}

/-! ### Numbers -/

/-- Both sides find the same number, none, or the same fault. -/
theorem related_numberOf (hc : code ∈ Operator.arithmetic ++ Operator.ordering)
    (hf : cmp.Faults node node' code) (hv : cmp.Visits visit visit' P e f) :
    cmp.Related P P Eq (numberOf visit node code e) (numberOf visit' node' code f) := by
  refine hv.bind ?_
  rintro v _ ⟨rfl, -⟩
  cases v with
  | null => exact .pure rfl
  | num x => exact .pure rfl
  | str s => exact .fail (hf _ (.invalidOperand hc (.inl rfl)))
  | bool b => exact .fail (hf _ (.invalidOperand hc (.inr rfl)))

/-- A result that is not finite is a fault on both sides. -/
theorem related_finite (hc : code ∈ Operator.arithmetic) (hf : cmp.Faults node node' code)
    (x : Float) : cmp.Related P P cmp.Same (finite node x) (finite node' x) := by
  simp only [finite]
  split
  · rename_i hx
    exact .pure (same_of_isValid hx)
  · exact .fail (hf _ (.overflow hc))

/-- Both sides arrive at the same total. -/
theorem related_accumulate (combine : Float → Float → Float) (hc : code ∈ Operator.arithmetic)
    (hf : cmp.Faults node node' code) (hv : Forall₂ (cmp.Visits visit visit' P) es fs) :
    ∀ total : Option Float, (∀ x, total = some x → x.isFinite) →
      cmp.Related P P cmp.Same (accumulate visit node code combine total es)
        (accumulate visit' node' code combine total fs) := by
  -- the total so far is finite, or else the combination has failed before
  induction hv with
  | nil =>
    intro total ht
    refine .pure ?_
    cases total with
    | none => exact same_of_isValid rfl
    | some x => exact same_of_isValid (ht x rfl)
  | cons h _ ih =>
    intro total ht
    refine (related_numberOf (List.mem_append_left _ hc) hf h).bind ?_
    rintro x _ rfl
    cases x with
    | none => exact .pure (same_of_isValid rfl)
    | some x =>
      dsimp only
      split
      · rename_i hx
        exact ih _ fun y hy => Option.some.inj hy ▸ hx
      · exact .fail (hf _ (.overflow hc))

/-- Both sides go on with the same numbers, if they find any. -/
theorem related_withNumbers {k : Float → Float → EvalM α Scalar}
    {l : Float → Float → EvalM β Scalar} (hc : code ∈ Operator.arithmetic ++ Operator.ordering)
    (hf : cmp.Faults node node' code) (h₁ : cmp.Visits visit visit' P e₁ f₁)
    (h₂ : cmp.Visits visit visit' P e₂ f₂)
    (hk : ∀ x y, cmp.Related P P cmp.Same (k x y) (l x y)) :
    cmp.Related P P cmp.Same (withNumbers visit node code e₁ e₂ k)
      (withNumbers visit' node' code f₁ f₂ l) := by
  refine (related_numberOf hc hf h₁).bind ?_
  rintro x _ rfl
  cases x with
  | none => exact .pure (same_of_isValid rfl)
  | some x =>
    refine (related_numberOf hc hf h₂).bind ?_
    rintro y _ rfl
    cases y with
    | none => exact .pure (same_of_isValid rfl)
    | some y => exact hk x y

/-- Both sides find the same quotient, or the divisor to be zero. -/
theorem related_divide (quotient : Float → Float → Float) (hc : code = .div ∨ code = .mod)
    (hf : cmp.Faults node node' code) (x y : Float) :
    cmp.Related P P cmp.Same (divide node quotient x y) (divide node' quotient x y) := by
  have ha : code ∈ Operator.arithmetic := by rcases hc with rfl | rfl <;> decide
  simp only [divide]
  split
  · exact .fail (hf _ (.zeroDivision hc))
  · exact related_finite ha hf _

/-! ### Truth, equality and choice -/

/-- Both sides come to the same decision at the same operand. -/
theorem related_connect (combine : Bool → Bool → Bool)
    (hv : Forall₂ (cmp.Visits visit visit' P) es fs) : ∀ result,
    cmp.Related P P cmp.Same (connect visit combine result es)
      (connect visit' combine result fs) := by
  induction hv with
  | nil => exact fun result => .pure (same_of_isValid rfl)
  | cons h _ ih =>
    intro result
    refine h.bind ?_
    rintro v _ ⟨rfl, -⟩
    split
    · exact .pure (same_of_isValid rfl)
    · exact ih _

/-- Both sides find the operands equal, or different. -/
theorem related_compareEqual (expected : Bool) (h₁ : cmp.Visits visit visit' P e₁ f₁)
    (h₂ : cmp.Visits visit visit' P e₂ f₂) :
    cmp.Related P P cmp.Same (compareEqual visit e₁ e₂ expected)
      (compareEqual visit' f₁ f₂ expected) := by
  refine h₁.bind ?_
  rintro v _ ⟨rfl, -⟩
  split
  · exact .pure (same_of_isValid rfl)
  · refine h₂.bind ?_
    rintro w _ ⟨rfl, -⟩
    split <;> exact .pure (same_of_isValid rfl)

/-- Both sides choose the same branch. -/
theorem related_choose : ∀ {es : List (Expr α)} {fs : List (Expr β)},
    Forall₂ (cmp.Visits visit visit' P) es fs →
      cmp.Related P P cmp.Same (choose visit es) (choose visit' fs)
  | [], [], _ => .pure (same_of_isValid rfl)
  | [_], [_], .cons h _ => h
  | _ :: _ :: _, _ :: _ :: _, .cons hg (.cons hv hr) => by
    refine hg.bind ?_
    rintro v _ ⟨rfl, -⟩
    split
    · exact hv
    · exact related_choose hr

/-- Both sides stop at the same operand. -/
theorem related_firstNonNull (hv : Forall₂ (cmp.Visits visit visit' P) es fs) :
    cmp.Related P P cmp.Same (firstNonNull visit es) (firstNonNull visit' fs) := by
  induction hv with
  | nil => exact .pure (same_of_isValid rfl)
  | cons h _ ih =>
    refine h.bind ?_
    rintro v _ ⟨rfl, hval⟩
    split
    · exact ih
    · exact .pure ⟨rfl, hval⟩

/-! ### Plain operators -/

private theorem exists_single {R : Expr α → Expr β → Prop} (hn : es.length = 1)
    (hv : Forall₂ R es fs) : ∃ e f, es = [e] ∧ fs = [f] ∧ R e f := by
  obtain ⟨e, rfl⟩ := List.length_eq_one_iff.1 hn
  obtain ⟨f, _, he, hr, rfl⟩ := List.forall₂_cons_left_iff.1 hv
  obtain rfl := List.forall₂_nil_left_iff.1 hr
  exact ⟨e, f, rfl, rfl, he⟩

private theorem exists_pair {R : Expr α → Expr β → Prop} (hn : es.length = 2)
    (hv : Forall₂ R es fs) :
    ∃ e₁ e₂ f₁ f₂, es = [e₁, e₂] ∧ fs = [f₁, f₂] ∧ R e₁ f₁ ∧ R e₂ f₂ := by
  obtain ⟨e₁, e₂, rfl⟩ := List.length_eq_two.1 hn
  obtain ⟨f₁, _, h₁, hv₂, rfl⟩ := List.forall₂_cons_left_iff.1 hv
  obtain ⟨f₂, _, h₂, hr, rfl⟩ := List.forall₂_cons_left_iff.1 hv₂
  obtain rfl := List.forall₂_nil_left_iff.1 hr
  exact ⟨e₁, e₂, f₁, f₂, rfl, rfl, h₁, h₂⟩

/-- **Plain operators agree** on operands whose visits agree, if their own faults do. -/
theorem related_apply (hp : code.isPlain) (ha : code.arity.accepts es.length)
    (hf : cmp.Faults node node' code) (hv : Forall₂ (cmp.Visits visit visit' P) es fs) :
    cmp.Related P P cmp.Same (apply visit node code es) (apply visit' node' code fs) := by
  -- the arity settles the shape of the operands, and so the equation that applies
  have one (h : code.arity = .exactly 1) := exists_single (by simpa [h, Arity.accepts] using ha) hv
  have two (h : code.arity = .exactly 2) := exists_pair (by simpa [h, Arity.accepts] using ha) hv
  cases code with
  | expression =>
    obtain ⟨e, f, rfl, rfl, h⟩ := one rfl
    exact h
  | add => exact related_accumulate _ (by decide) hf hv none (by simp)
  | sub => exact related_accumulate _ (by decide) hf hv none (by simp)
  | mul => exact related_accumulate _ (by decide) hf hv none (by simp)
  | div =>
    obtain ⟨e₁, e₂, f₁, f₂, rfl, rfl, h₁, h₂⟩ := two rfl
    exact related_withNumbers (by decide) hf h₁ h₂ (related_divide _ (.inl rfl) hf)
  | mod =>
    obtain ⟨e₁, e₂, f₁, f₂, rfl, rfl, h₁, h₂⟩ := two rfl
    exact related_withNumbers (by decide) hf h₁ h₂ (related_divide _ (.inr rfl) hf)
  | not =>
    obtain ⟨e, f, rfl, rfl, h⟩ := one rfl
    refine h.bind ?_
    rintro v _ ⟨rfl, -⟩
    exact .pure (same_of_isValid (by cases v.truth? <;> rfl))
  | or => exact related_connect _ hv false
  | and => exact related_connect _ hv true
  | eq =>
    obtain ⟨e₁, e₂, f₁, f₂, rfl, rfl, h₁, h₂⟩ := two rfl
    exact related_compareEqual true h₁ h₂
  | ne =>
    obtain ⟨e₁, e₂, f₁, f₂, rfl, rfl, h₁, h₂⟩ := two rfl
    exact related_compareEqual false h₁ h₂
  | lt | le | ge | gt =>
    obtain ⟨e₁, e₂, f₁, f₂, rfl, rfl, h₁, h₂⟩ := two rfl
    exact related_withNumbers (by decide) hf h₁ h₂ fun x y => .pure (same_of_isValid rfl)
  | condition => exact related_choose hv
  | coalesce => exact related_firstNonNull hv
  | isNull =>
    obtain ⟨e, f, rfl, rfl, h⟩ := one rfl
    refine h.bind ?_
    rintro v _ ⟨rfl, -⟩
    exact .pure (same_of_isValid rfl)
  | typeOf =>
    obtain ⟨e, f, rfl, rfl, h⟩ := one rfl
    refine h.bind ?_
    rintro v _ ⟨rfl, -⟩
    exact .pure (same_of_isValid rfl)
  | call | lookup | scope | lambda => cases hp

end Comparison

end OpTree
