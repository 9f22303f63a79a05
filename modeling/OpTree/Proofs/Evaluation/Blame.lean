import Mathlib.Data.List.Duplicate
import OpTree.Proofs.Evaluation.Contracts

/-!
# What the errors of an evaluation say is true

An error blames a node and says what is wrong with it. `EvalError.IsTrue` spells out what each error
says of the expression and of the limits: the node is a part of the expression (`Expr.HasPart`), it
has the operator that the error is about, and the numbers in the error are those of the node or of
the limits.

A node may be evaluated far from where it stands, as the body of a lambda is. But the expression of
a site and the bodies of the lambdas that are visible there are always parts of the whole
expression, and so a fault at a site blames one of its parts (`Site.Fault.isTrue`).

That a host call is blamed for its value says more than where the call stands: there is a reply to
it with a value that is not valid (`Host.MayGiveInvalid`).

Main statements: `Expr.isTrue_of_runWithin` and `Expr.mayGiveInvalid_of_runWithin`.
-/

namespace OpTree

open List

variable {α : Type}

/-- The expression has a part: itself, or a part of one of its operands. -/
inductive Expr.HasPart (e : Expr α) : Expr α → Prop
  | self : HasPart e e
  | operand {a code es x} : HasPart e (.op a code es) → x ∈ es → HasPart e x

/-- The expression has a node of an operator. -/
def Expr.HasNode (e : Expr α) (node : α) (code : Operator) : Prop :=
  ∃ es, e.HasPart (.op node code es)

/-- The operators that have operands which give a name. -/
def Operator.naming : List Operator := [.lookup, .call, .scope, .lambda]

/-- What an error says of an expression and of the limits of its evaluation is true. -/
def EvalError.IsTrue (limits : Limits) (e : Expr α) : EvalError α → Prop
  | invalidArity node code expected got =>
    expected = code.arity ∧ code.arity.accepts got = false ∧
      ∃ es, e.HasPart (.op node code es) ∧ es.length = got
  | invalidName node code => code ∈ Operator.naming ∧ e.HasNode node code
  | duplicateName node name _ =>
    e.HasNode node .scope ∨
      ∃ es, e.HasPart (.op node .lambda es) ∧ Duplicate name (es.dropLast.filterMap Expr.name?)
  | misplacedLambda node => e.HasNode node .lambda
  | invalidOperand node code found =>
    code ∈ Operator.arithmetic ++ Operator.ordering ∧ e.HasNode node code ∧
      (found = .string ∨ found = .boolean)
  | zeroDivision node => e.HasNode node .div ∨ e.HasNode node .mod
  | overflow node =>
    (∃ code ∈ Operator.arithmetic, e.HasNode node code) ∨
      ∃ x : Float, e.HasPart (.lit node (.num x)) ∧ x.isFinite = false
  | limitExceeded excess =>
    limits.bound (.counter excess.counter) = some excess.bound ∧ excess.bound < excess.value
  | timeout budget => limits.bound .evaluationTime = some budget
  | callTimeout node _ budget => e.HasNode node .call ∧ limits.bound .callTime = some budget
  | undefinedCall node _ | callNotAllowed node _ | callFailed node _ _ | invalidCallReturn node _
  | recursion node _ => e.HasNode node .call
  | lambdaArity node _ expected got =>
    expected ≠ got ∧ ∃ n args, e.HasPart (.op node .call (n :: args)) ∧ args.length = got
  | uninitializedVariable node _ => e.HasNode node .lookup
  | unfinished => True

/-- The host call of a name has a reply with a value that is not valid. -/
def Host.MayGiveInvalid (host : Host) (name : String) : Prop :=
  ∃ call, host.find? name = some call ∧ ∃ history args delay value,
    call.reply host.lookups history args = .answer delay (.ok value) ∧ value.isValid = false

/-- If an error blames a host call for its value, the call may give one that is not valid. -/
def EvalError.IsWarranted (host : Host) : EvalError α → Prop
  | invalidCallReturn _ name => host.MayGiveInvalid name
  | _ => True

/-! ### Lambdas that cannot be declared -/

namespace Lambda

variable {node blamed : α} {ps es : List (Expr α)} {seen : List String} {name : String}
  {space : Namespace}

private theorem duplicate_of_paramNames :
    paramNames node seen ps = .error (.duplicateName blamed name space) →
      name ∈ seen ∧ name ∈ ps.filterMap Expr.name? ∨
        Duplicate name (ps.filterMap Expr.name?) := by
  induction ps generalizing seen with
  | nil => simp [paramNames]
  | cons p ps ih =>
    intro h
    rw [paramNames] at h
    cases hp : p.name? with
    | none =>
      rw [hp] at h
      cases h
    | some spelled =>
      rw [filterMap_cons_some hp]
      simp only [hp] at h
      split at h
      · rename_i hseen
        cases h
        exact .inl ⟨hseen, mem_cons_self⟩
      · have hrest : paramNames node (spelled :: seen) ps
            = .error (.duplicateName blamed name space) := by
          cases hr : paramNames node (spelled :: seen) ps with
          | ok names =>
            rw [hr] at h
            cases h
          | error err =>
            rw [hr] at h
            exact h
        rcases ih hrest with ⟨hmem, hname⟩ | hdup
        · rcases mem_cons.1 hmem with rfl | hmem
          · exact .inr (Mem.duplicate_cons_self hname)
          · exact .inl ⟨hmem, mem_cons_of_mem _ hname⟩
        · exact .inr (hdup.duplicate_cons _)

/-- A lambda with a duplicate parameter has a parameter of that name twice. -/
theorem duplicate_of_declare (h : declare node es = .error (.duplicateName blamed name space)) :
    Duplicate name (es.dropLast.filterMap Expr.name?) := by
  rw [declare] at h
  cases hb : es.getLast? with
  | none =>
    rw [hb] at h
    cases h
  | some body =>
    rw [hb] at h
    cases hp : paramNames node [] es.dropLast with
    | ok names =>
      rw [hp] at h
      cases h
    | error err =>
      rw [hp] at h
      obtain rfl : err = .duplicateName blamed name space := Except.error.inj h
      rcases duplicate_of_paramNames hp with ⟨hmem, -⟩ | hdup
      · cases hmem
      · exact hdup

end Lambda

/-- What is said of a lambda node that declares nothing is true. -/
theorem EvalError.isTrue_of_declare {limits : Limits} {e : Expr α} {label : α}
    {ps : List (Expr α)} {err : EvalError α} (hpart : e.HasPart (.op label .lambda ps))
    (h : Lambda.declare label ps = .error err) : err.IsTrue limits e := by
  rcases Lambda.declare_eq_error h with ⟨rfl, rfl⟩ | rfl | ⟨name, rfl⟩
  · exact ⟨rfl, rfl, [], hpart, rfl⟩
  · exact ⟨by decide, ps, hpart⟩
  · exact .inr ⟨ps, hpart, Lambda.duplicate_of_declare h⟩

/-! ### Faults -/

section

variable {setting : Setting} {e : Expr α} {node : α} {code : Operator} {name : String}
  {err : EvalError Unit}

/-- What a plain operator is blamed for is true. -/
private theorem PlainFault.isTrue (h : PlainFault code err) (hnode : e.HasNode node code)
    (limits : Limits) : (err.map fun _ => node).IsTrue limits e := by
  cases h with
  | invalidOperand hcode hfound => exact ⟨hcode, hnode, hfound⟩
  | zeroDivision hcode =>
    rcases hcode with rfl | rfl
    · exact .inl hnode
    · exact .inr hnode
  | overflow hcode => exact .inl ⟨code, hcode, hnode⟩

/-- What a host call is blamed for is true. -/
private theorem HostFault.isTrue (h : HostFault setting name err) (hnode : e.HasNode node .call) :
    (err.map fun _ => node).IsTrue setting.limits e := by
  cases h with
  | undefinedCall | callFailed | invalidCallReturn => exact hnode
  | callTimeout hbound => exact ⟨hnode, hbound⟩
  | timeout hbound => exact hbound
  | unfinished => trivial

/-- **A fault at a site is true** of the whole expression if the expression of the site is a part
of it. -/
theorem Site.Fault.isTrue {κ : Site α} {err : EvalError α} (h : κ.Fault setting err)
    (hκ : e.HasPart κ.expr) : err.IsTrue setting.limits e := by
  cases h with
  | @literal σ a s calls hs =>
    cases s with
    | num x => exact .inr ⟨x, hκ, hs⟩
    | null | str | bool => cases hs
  | arity ha => exact ⟨rfl, ha, _, hκ, rfl⟩
  | plain _ hfault => exact hfault.isTrue ⟨_, hκ⟩ _
  | lambda => exact ⟨_, hκ⟩
  | name hcode => exact ⟨by rcases hcode with rfl | rfl <;> decide, _, hκ⟩
  | bindingName => exact ⟨by decide, _, hκ⟩
  | duplicateConstant | duplicateLambda => exact .inl ⟨_, hκ⟩
  | @declare σ a es frame n label ps rest calls err hb hdecl =>
    have hmem : .op label .lambda ps ∈ es := hb.suffix.subset (by simp)
    exact EvalError.isTrue_of_declare (.operand hκ hmem) hdecl
  | lookup => exact ⟨_, hκ⟩
  | lambdaArity _ _ hlen => exact ⟨hlen, _, _, hκ, rfl⟩
  | recursion => exact ⟨_, hκ⟩
  | host _ _ hfault => exact hfault.isTrue ⟨_, hκ⟩
  | limitExceeded hbound hlt => exact ⟨hbound, hlt⟩
  | timeout hbound => exact hbound

/-- **Only a host call is blamed for its value**, and only for one that it may give. -/
theorem Site.Fault.isWarranted {κ : Site α} {err : EvalError α} (h : κ.Fault setting err) :
    err.IsWarranted setting.host := by
  cases h with
  | plain _ hfault => cases hfault <;> trivial
  | declare _ hdecl =>
    rcases Lambda.declare_eq_error hdecl with ⟨rfl, -⟩ | rfl | ⟨name, rfl⟩ <;> trivial
  | host _ _ hfault =>
    cases hfault with
    | invalidCallReturn hcall hreply hvalue => exact ⟨_, hcall, _, _, _, _, hreply, hvalue⟩
    | undefinedCall | callFailed | callTimeout | timeout | unfinished => trivial
  | literal | arity | lambda | name | bindingName | duplicateConstant | duplicateLambda | lookup
  | lambdaArity | recursion | limitExceeded | timeout => trivial

end

/-! ### Runs -/

namespace Contract

/-- What is evaluated is part of an expression, and what the errors say of it is true. -/
def truthful (limits : Limits) (e : Expr α) : Contract α where
  holds κ := κ.Everywhere e.HasPart
  error := EvalError.IsTrue limits e
  trace _ := True
  invokes _ := True

theorem kept_truthful (setting : Setting) (e : Expr α) :
    (truthful setting.limits e).Kept setting where
  leads hκ _ h := h.everywhere hκ fun _ _ _ hop _ hx => .operand hop hx
  fault hκ _ h := h.isTrue hκ.expr
  notes _ _ _ _ _ := trivial
  leave _ := trivial
  invokes _ _ _ := trivial

/-- Host calls are blamed for their values only where they may be. -/
def warranted (host : Host) : Contract α where
  holds _ := True
  error := EvalError.IsWarranted host
  trace _ := True
  invokes _ := True

theorem kept_warranted (setting : Setting) :
    (warranted setting.host : Contract α).Kept setting where
  leads _ _ _ := trivial
  fault _ _ h := h.isWarranted
  notes _ _ _ _ _ := trivial
  leave _ := trivial
  invokes _ _ _ := trivial

end Contract

/-- **What the error of a run says is true**, however deep the run may be nested. -/
theorem Expr.isTrue_of_runWithin {e : Expr α} {depth : Nat} {setting : Setting}
    {err : EvalError α} (h : (e.runWithin depth setting).outcome = .error err) :
    err.IsTrue setting.limits e := by
  have hmet := (Contract.kept_truthful setting e).met trivial (Site.everywhere_start .self) trivial
    depth
  exact hmet.error err h

/-- **A host call is blamed for its value** only if it may give one that is not valid. -/
theorem Expr.mayGiveInvalid_of_runWithin {e : Expr α} {depth : Nat} {setting : Setting} {node : α}
    {name : String}
    (h : (e.runWithin depth setting).outcome = .error (.invalidCallReturn node name)) :
    setting.host.MayGiveInvalid name := by
  have hmet := (Contract.kept_warranted setting).met (e := e) trivial trivial trivial depth
  exact hmet.error _ h

end OpTree
