import OpTree.Proofs.Check.Walk
import OpTree.Proofs.Evaluation.Blame

/-!
# What the errors of the check say is true

The check reports the same errors as an evaluation does, and what they say is true in the same sense
(`EvalError.IsTrue`). All that the check goes through is part of the whole expression
(`Inside.hasPart`), and what it blames a part for is true (`Check.Fault.isTrue`). So a walk along
the check that lets true errors pass meets no others (`Check.truthWalk`).

Main statement: `Expr.isTrue_of_error`, for runs and for the check.
-/

namespace OpTree

variable {α : Type}

/-- What is inside of a part is a part. -/
theorem Inside.hasPart {root e x : Expr α} {ss ss' : List (List (Expr α))}
    (h : Inside ss e ss' x) (he : root.HasPart e) : root.HasPart x := by
  induction h with
  | here => exact he
  | operand _ _ hmem _ ih => exact ih (.operand he hmem)
  | name hmem _ ih => exact ih (.operand he (mem_of_mem_bindings hmem).1)
  | value hmem _ _ ih => exact ih (.operand he (mem_of_mem_bindings hmem).2)
  | @lambda _ _ _ _ v _ _ _ hmem hbody _ ih =>
    have hv : root.HasPart v := .operand he (mem_of_mem_bindings hmem).2
    match v, hbody with
    | .op _ .lambda _, hbody => exact ih (.operand hv (List.mem_of_getLast? hbody))
  | body hbody _ ih => exact ih (.operand he (List.mem_of_getLast? hbody))

namespace Check

variable {limits : Limits} {root : Expr α}

/-- What the check of a part says of its node is true. -/
theorem Fault.isTrue {x : Expr α} {a : α} {err : EvalError α} (h : Fault x a err)
    (hx : root.HasPart x) : err.IsTrue limits root := by
  cases h with
  | arity ha => exact ⟨rfl, ha, _, hx, rfl⟩
  | lambda | lookup | call => exact ⟨_, hx⟩
  | @name _ code _ n hn =>
    have hcode : code ∈ Operator.naming := by
      cases code <;> first | decide | cases hn
    exact ⟨hcode, _, hx⟩
  | lambdaArity hk => exact ⟨hk, _, _, hx, rfl⟩
  | duplicate => exact .inl ⟨_, hx⟩
  | declare hmem hdecl =>
    exact EvalError.isTrue_of_declare (.operand hx (mem_of_mem_bindings hmem).2) hdecl

variable (limits root)

/-- A check beside itself. Errors pass if they are true, and no others do. -/
def truth : CheckComparison α α where
  waives := EvalError.IsTrue limits root
  blames _ _ := False

/-- The check of a part meets parts only, and its errors are true. -/
def truthWalk (allowed : Option (List String)) : Walk (truth limits root) where
  left := allowed
  right := allowed
  labels := Eq
  site _ := root.HasPart
  frames _ _ := True
  reports _ _ _ := True
  site_inside := Inside.hasPart
  frames_scope _ _ := trivial
  frames_params _ _ := trivial
  count _ _ := trivial
  call := by
    rintro os ss a _ n args s fr fr' hpart - - hlike rfl
    have hbad {err : EvalError α} (h : Fault (.op a .call (n :: args)) a err) :
        (truth limits root).Accepts err err := .inl (h.isTrue hpart)
    refine .bind (.record (Q := fun _ _ => True) fun _ _ _ => trivial) fun _ _ _ => ?_
    exact CheckComparison.related_checkCall_of_eq hlike (fun _ _ _ _ _ => trivial)
      (fun _ _ _ _ _ => trivial) (fun _ _ _ _ _ => trivial) (fun _ hk => hbad (.lambdaArity hk))
      (hbad .call)
  warn _ _ _ := trivial
  error hpart hfault _ := .inl (hfault.isTrue hpart)

variable {limits root}

/-- The error of a check is true. -/
theorem isTrue_of_check_eq_error {allowed : Option (List String)} {r : Report α}
    {err : EvalError α} (h : check allowed [] root r = .error err) :
    err.IsTrue limits root := by
  have hpaired : (truthWalk limits root allowed).Paired root root :=
    Walk.paired_self (fun _ => rfl) root
  have hends : (truth limits root).Agree _ _ (check allowed [] root r) (check allowed [] root r) :=
    hpaired.agree .self trivial trivial
  rw [h] at hends
  cases hends with
  | error hfalse => exact hfalse.elim
  | waived htrue => exact htrue

end Check

/-- **Errors are truthful.** If a run fails, under any limits and any host, or if the check does,
with any list of allowed calls, then what the error says is true: the node that it blames is part of
the expression and of the kind that the error is about, the numbers in it are those of the node, and
a counter is only said to be above its bound if it is. -/
theorem Expr.isTrue_of_error (e : Expr α) (setting : Setting) (allowed : Option (List String))
    {err : EvalError α}
    (h : (e.run setting).outcome = .error err ∨ e.check allowed = .error err) :
    err.IsTrue setting.limits e := by
  rcases h with hrun | hcheck
  · exact isTrue_of_runWithin hrun
  · change (Check.check allowed [] e .empty >>= fun p => Except.ok p.2) = .error err at hcheck
    cases hr : Check.check allowed [] e .empty with
    | error err' =>
      rw [hr] at hcheck
      obtain rfl : err' = err := Except.error.inj hcheck
      exact Check.isTrue_of_check_eq_error hr
    | ok p =>
      rw [hr] at hcheck
      cases hcheck

/-- The body of a lambda is blamed where it stands, though the call is elsewhere. -/
theorem Expr.isTrue_of_error_lambda_body :
    let e : Expr Nat := .op 0 .scope [.lit 1 (.str "f"),
      .op 2 .lambda [.op 3 .add [.lit 4 (.str "s")]], .op 5 .call [.lit 6 (.str "f")]]
    let setting : Setting := ⟨.unlimited, .empty, .untimed⟩
    let err : EvalError Nat := .invalidOperand 3 .add .string
    (e.run setting).outcome = .error err ∧ err.IsTrue setting.limits e := by
  intro e setting err
  have hrun : (e.run setting).outcome = .error err := rfl
  exact ⟨hrun, e.isTrue_of_error setting none (.inl hrun)⟩

end OpTree
