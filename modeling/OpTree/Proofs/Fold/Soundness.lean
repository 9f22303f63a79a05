import OpTree.Proofs.Fold.Root

/-!
# Folding cannot be observed

What can be observed of a run is the value or the error that it ends with, the error apart from the
node to blame, and the host calls with their arguments in the order in which they are made. What
is used up is not: folding is there to use up less.

Main statement: `Expr.observed_run_of_optimize`, an expression and what it is optimized to cannot be
told apart without limits.
-/

namespace OpTree

open Comparison Eval Fold

variable {α : Type}

/-- What can be observed of a run: how it ends, whichever node is to blame, and the host calls. -/
def Run.observed (run : Run α) : Except (EvalError Unit) Scalar × List Invocation :=
  ((run.outcome.map Evaluation.result).mapError (EvalError.map fun _ => ()), run.calls)

namespace Fold

variable {e : Expr α} {host : Host} {executor : Executor}

/-- The whole folded expression agrees with the expression, wrapped or not. -/
private theorem agree_history_foldRoot (he : Regular e) :
    (folding α NodeId host executor).Agree (folding α NodeId host executor).Same
      (fun c d => c.history = d.history) (unbounded e ⟨.unlimited, host, executor⟩ .start)
      (unbounded (foldRoot e #[]).1 ⟨.unlimited, host, executor⟩ .start) := by
  -- what it costs does not matter here
  have hknown : FoldedKnown (fun _ => true) e := fun _ _ => rfl
  exact (agree_foldRoot he hknown host executor).mono (fun _ _ h => h) fun _ _ h => h.history

/-- Evaluations that agree at the start are the same to an observer. -/
private theorem observed_run_of_agree {β : Type} {f : Expr β}
    (hagree : (folding α β host executor).Agree (folding α β host executor).Same
      (fun c d => c.history = d.history) (unbounded e ⟨.unlimited, host, executor⟩ .start)
      (unbounded f ⟨.unlimited, host, executor⟩ .start)) :
    (f.run ⟨.unlimited, host, executor⟩).observed =
      (e.run ⟨.unlimited, host, executor⟩).observed := by
  rw [Expr.run_eq_unbounded, Expr.run_eq_unbounded]
  generalize unbounded e ⟨.unlimited, host, executor⟩ .start = r at hagree ⊢
  generalize unbounded f ⟨.unlimited, host, executor⟩ .start = r' at hagree ⊢
  cases hagree with
  | @ok v _ c d hv hhistory =>
    obtain ⟨rfl, -⟩ := hv
    simp only [Run.observed, hhistory]
    rfl
  | @error err err' c d herr hhistory =>
    have herr : err'.map (fun _ => ()) = err.map fun _ => () := herr.symm
    simp only [Run.observed, hhistory, Except.map, Except.mapError, herr]
  | waived hw => exact hw.elim

end Fold

namespace Expr

variable {e : Expr α} {g : Graph}

/-- **Folding cannot be observed.** If an expression whose numbers are finite is optimized, then
without limits and with whatever host calls a run of the result ends with the same value as a run of
the expression, or with the same error but for the node to blame, and it makes the same host calls
with the same arguments in the same order. -/
theorem observed_run_of_optimize (hfinite : e.IsFinite) (h : e.optimize = .ok g)
    {setting : Setting} (hlimits : setting.limits = .unlimited) :
    (g.run setting).observed = (e.run setting).observed := by
  obtain ⟨_, host, executor⟩ := setting
  obtain rfl := hlimits
  obtain ⟨he, htree⟩ := regular_of_optimize hfinite h
  rw [Graph.run_eq, htree]
  exact observed_run_of_agree (agree_history_foldRoot he)

/-- A host call with an argument that is folded. -/
theorem observed_run_of_optimize_call :
    let f : CallTable := ⟨⟨[("f", .constant .null)]⟩⟩
    let setting : Setting := ⟨.unlimited, ⟨f, none, .empty⟩, .timed⟩
    let e : Expr Nat := .op 0 .call [.lit 1 (.str "f"), .op 2 .typeOf [.lit 3 .null]]
    e.IsFinite ∧ ∃ g, e.optimize = .ok g ∧
      g.tree.erase = .op () .call [.lit () (.str "f"), .lit () (.str "null")] ∧
      (g.run setting).observed = (e.run setting).observed := by
  intro f setting e
  have hfinite : e.IsFinite := by
    change ∀ s ∈ [Scalar.str "f", .null], s.isValid
    decide
  exact ⟨hfinite, _, rfl, rfl, observed_run_of_optimize hfinite rfl rfl⟩

end Expr

end OpTree
