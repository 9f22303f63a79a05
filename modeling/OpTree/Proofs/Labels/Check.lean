import OpTree.Proofs.Check.Walk
import OpTree.Proofs.Labels.Evaluation

/-!
# Labels do not matter to the check

The check of a relabelled expression gives the relabelled report, or fails for the same reason at
the relabelled node. The walk that shows it is `Check.relabelledWalk`; what it has to know of nodes
is only that each step does the same with a report and with the relabelled one.

Main statement: `Expr.check_map`.
-/

namespace OpTree

variable {α β : Type}

/-- Relabels what a check reports. -/
def Report.map (f : α → β) (r : Report α) : Report β :=
  ⟨r.opCount, r.calls, r.warnings.map (Warning.map f)⟩

namespace Report

variable (f : α → β) (r : Report α)

/-- A warning of a relabelled node. -/
theorem map_warn (w : Warning α) : (r.warn w).map f = (r.map f).warn (w.map f) := by
  simp only [warn, map, List.map_append, List.map_singleton]

/-- The list of calls has no labels. -/
theorem map_addCall (name : String) : (r.addCall name).map f = (r.map f).addCall name := by
  by_cases h : name ∈ r.calls <;> simp [addCall, map, h]

end Report

namespace Check

variable (f : α → β)

/-- An error of the right-hand check is the relabelled one of the left-hand check. -/
def relabelled : CheckComparison α β where
  waives _ := False
  blames err err' := err' = err.map f

variable {f} in
/-- A fault is blamed on the label of its node only. -/
theorem Fault.map {x : Expr α} {a : α} {err : EvalError α} (h : Fault x a err) :
    err.map (fun _ => f a) = err.map f := by
  cases h with
  | declare _ hdecl =>
    rcases Lambda.declare_eq_error hdecl with ⟨rfl, -⟩ | rfl | ⟨name, rfl⟩ <;> rfl
  | _ => rfl

/-- The check of an expression beside that of the relabelled one. The right-hand report is the
relabelled left-hand one. -/
def relabelledWalk (allowed : Option (List String)) : Walk (relabelled f) where
  left := allowed
  right := allowed
  labels a b := b = f a
  site _ _ := True
  frames _ _ := True
  reports _ r ρ := ρ = r.map f
  site_inside _ _ := trivial
  frames_scope _ _ := trivial
  frames_params _ _ := trivial
  count := by
    rintro _ _ _ r _ - rfl
    rfl
  call := by
    rintro os ss a _ n args s fr fr' - - - hlike rfl
    refine .bind (Q := fun r ρ => ρ = r.map f) (.record ?_) fun _ _ _ => ?_
    · rintro r _ rfl
      rfl
    · refine CheckComparison.related_checkCall_of_eq hlike (fun _ _ _ _ h => h) ?_ ?_
        (fun _ _ => .inr rfl) (.inr rfl)
      · rintro - - r _ rfl
        exact (r.map_addCall f s).symm
      · rintro - - r _ rfl
        exact (r.map_warn f (.unresolvedCall a s)).symm
  warn := by
    rintro _ _ r _ w - rfl rfl
    rw [r.map_warn f w]
    cases w <;> rfl
  error _ hfault := by
    rintro rfl
    exact .inr hfault.map

/-- The relabelled expression is checked alike. -/
theorem check_map_agrees (allowed : Option (List String)) (e : Expr α) (r : Report α) :
    check allowed [] (e.map f) (r.map f) =
      ((check allowed [] e r).map fun p => (p.1, p.2.map f)).mapError (EvalError.map f) := by
  have hpaired : (relabelledWalk f allowed).Paired e (e.map f) :=
    Walk.paired_map f (fun _ => rfl) e
  have hends : (relabelled f).Agree _ _ (check allowed [] e r)
      (check allowed [] (e.map f) (r.map f)) := hpaired.agree trivial trivial rfl
  generalize check allowed [] e r = s at hends ⊢
  generalize check allowed [] (e.map f) (r.map f) = t at hends ⊢
  cases hends with
  | ok _ hr => exact congrArg (fun ρ => Except.ok ((), ρ)) hr
  | error he => exact congrArg Except.error he
  | waived hfalse => exact hfalse.elim

end Check

open Check in
/-- **Labels do not matter.** The check of a relabelled expression gives the relabelled report, or
fails for the same reason at the relabelled node. -/
theorem Expr.check_map (f : α → β) (e : Expr α) (allowed : Option (List String)) :
    (e.map f).check allowed
      = ((e.check allowed).map (Report.map f)).mapError (EvalError.map f) := by
  have hcheck := check_map_agrees f allowed e .empty
  change (Check.check allowed [] (e.map f) .empty >>= fun p => Except.ok p.2)
    = ((Check.check allowed [] e .empty >>= fun p => Except.ok p.2).map _).mapError _
  change Check.check allowed [] (e.map f) .empty = _ at hcheck
  rw [hcheck]
  cases Check.check allowed [] e .empty <;> rfl

end OpTree
