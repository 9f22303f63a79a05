import OpTree.Proofs.Fold.Context
import OpTree.Proofs.Limits.Exactness

/-!
# Independence of the context

What evaluating an expression on its own comes to, without scopes around it, host calls and limits,
it comes to in every state: the scopes in it are arbitrary, and so are the lambdas that are busy in
them. There are two exceptions, since a name that the expression does not find on its own may be
found in a scope around it or among the host calls.

Main statement: `Expr.eval_of_evaluate`.
-/

namespace OpTree

open Comparison Eval

variable {α : Type}

/-- Without limits none is exceeded. -/
theorem Eval.ne_limitExceeded_of_eval {depth : Nat} {e : Expr α} {host : Host}
    {executor : Executor} {err : EvalError α} {c : State α}
    (h : eval depth e ⟨.unlimited, host, executor⟩ .start = (.error err, c)) (x : Usage.Excess) :
    err ≠ .limitExceeded x := by
  have htracked : Tracked .unlimited (eval depth e ⟨.unlimited, host, executor⟩ .start)
      (eval depth e ⟨.unlimited, host, executor⟩ .start) :=
    exact_eval ⟨rfl, rfl⟩ depth e .start (.inl .zero)
  rw [h] at htracked
  cases htracked with
  | error hne => exact hne x
  | stopped hreports => cases hreports.1

namespace Expr

/-- **Independence of the context.** Let an expression be evaluated on its own, and in a state with
any scopes, usage and history, under any host, nested deep enough. If it has a value on its own it
has this value there. No host call is made, no time passes, and the scopes are left as they were.
All counters grow by what the evaluation on its own has counted, and the greatest scope depth is at
most raised to the one before plus the one on its own. If it fails on its own, and not for want of a
name, it fails there with the same error. -/
theorem eval_of_evaluate {e : Expr α} {depth : Nat} (hdepth : e.extent.nesting ≤ depth)
    (alone executor : Executor) (host : Host) (d : State α) :
    (∀ v s, e.evaluate ⟨.unlimited, .empty, alone⟩ = .ok ⟨v, s⟩ →
      ∃ d', eval depth e ⟨.unlimited, host, executor⟩ d = (.ok v, d') ∧
        d'.history = d.history ∧ d'.clock = d.clock ∧ d'.scopes = d.scopes ∧
        (∀ counter, counter ≠ .scopeDepth →
          d'.usage.stats.value counter = d.usage.stats.value counter + s.value counter) ∧
        d.usage.stats.scopeDepthMax ≤ d'.usage.stats.scopeDepthMax ∧
        d'.usage.stats.scopeDepthMax ≤
          max d.usage.stats.scopeDepthMax (d.usage.scopeDepth + s.scopeDepthMax)) ∧
    ∀ err, e.evaluate ⟨.unlimited, .empty, alone⟩ = .error err →
      (∀ a name, err ≠ .uninitializedVariable a name) → (∀ a name, err ≠ .undefinedCall a name) →
      (eval depth e ⟨.unlimited, host, executor⟩ d).1 = .error err := by
  have houter : ScopeStack.Extends d.scopes.visible .empty d.scopes := rfl
  have hvisits : (embedding .unlimited alone ⟨.unlimited, host, executor⟩).Visits (eval depth)
      (eval depth) (At (Beside d) .empty d.scopes) e e :=
    related_embedding_eval alone d rfl rfl depth (Site.sound_start e) houter
  have hrun := hvisits .start d ⟨rfl, rfl, .start d⟩
  change Comparison.Agree _ _ _ (eval depth e ⟨.unlimited, .empty, alone⟩ .start)
    (eval depth e ⟨.unlimited, host, executor⟩ d) at hrun
  have hpeak := (forward_eval depth e ⟨.unlimited, host, executor⟩ d).stats .scopeDepth
  rw [evaluate_eq_eval hdepth]
  generalize hown : eval depth e ⟨.unlimited, .empty, alone⟩ .start = r at hrun
  generalize eval depth e ⟨.unlimited, host, executor⟩ d = r' at hrun hpeak
  cases hrun with
  | @ok v _ c d' hv hq =>
    obtain ⟨rfl, -⟩ := hv
    obtain ⟨-, hscopes, hk⟩ := hq
    refine ⟨fun w s hw => ?_, nofun⟩
    cases hw
    exact ⟨d', rfl, hk.history, hk.clock, hscopes, hk.counters, hpeak, hk.peak⟩
  | error he =>
    refine ⟨nofun, fun err herr _ _ => ?_⟩
    cases herr
    exact congrArg Except.error (he : _ = _).symm
  | waived he =>
    refine ⟨nofun, fun err herr hvariable hcall => ?_⟩
    cases herr
    -- without a name that is not found nothing is waived
    rcases he with ⟨x, rfl⟩ | ⟨a, name, rfl⟩ | ⟨a, name, rfl⟩
    · exact absurd rfl (ne_limitExceeded_of_eval hown x)
    · exact absurd rfl (hvariable a name)
    · exact absurd rfl (hcall a name)

/-- A lambda of the same name is visible outside and busy. -/
theorem eval_of_evaluate_shadowed :
    let e : Expr Nat := .op 0 .scope [.lit 1 (.str "f"),
      .op 2 .lambda [.op 3 .typeOf [.lit 4 .null]], .op 5 .call [.lit 6 (.str "f")]]
    let busy : Frame Nat := ⟨.empty, ⟨[("f", ⟨7, ["x"], .lit 8 .null, true⟩)]⟩⟩
    let d : State Nat := { State.start with scopes := ⟨[busy], []⟩ }
    e.extent.nesting ≤ 10 ∧
      e.evaluate ⟨.unlimited, .empty, .timed⟩ = .ok ⟨.str "null", ⟨4, 2, 2, 1, 0, 0⟩⟩ ∧
      ∃ d', eval 10 e ⟨.unlimited, .empty, .untimed⟩ d = (.ok (.str "null"), d') ∧
        d'.history = d.history ∧ d'.scopes = d.scopes ∧ d'.usage.stats.opCount = 4 := by
  intro e busy d
  have hdepth : e.extent.nesting ≤ 10 := by decide
  have halone : e.evaluate ⟨.unlimited, .empty, .timed⟩
      = .ok ⟨.str "null", ⟨4, 2, 2, 1, 0, 0⟩⟩ := rfl
  obtain ⟨d', heval, hhistory, -, hscopes, hcounters, -⟩ :=
    (eval_of_evaluate hdepth .timed .untimed .empty d).1 _ _ halone
  exact ⟨hdepth, halone, d', heval, hhistory, hscopes, hcounters .opCount nofun⟩

end Expr

end OpTree
