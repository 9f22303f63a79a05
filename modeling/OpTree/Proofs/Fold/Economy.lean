import OpTree.Proofs.Fold.Root
import OpTree.Proofs.Limits.Exactness

/-!
# Folded expressions under limits

An expression that succeeds under limits can fail under the same limits once it has been folded. The
name of a type is not counted as a string, but the literal that it is folded to is; and a literal at
the root is wrapped, so that a second node is visited. Nothing else can cost more than before: with
an allowance for both, the folded expression succeeds with the same value under all limits that
admit the allowance, and stays within it.

Main statement: `Expr.run_of_optimize_of_ok`.
-/

namespace OpTree

open Eval Fold

variable {α : Type} [DecidableEq α]

/-- The number of visits of `typeOf` nodes that lie in parts which folding replaces by a string. -/
def Fold.typeVisits (e : Expr α) (run : Run α) : Nat :=
  visitsOf (fun a => a ∈ foldedTypes e) run.trace

namespace Expr

variable {e : Expr α} {g : Graph} {limits : Limits} {host : Host} {executor : Executor} {v : Scalar}
  {s : Stats}

/-- Without limits the folded expression succeeds where the expression does, within the
allowance. -/
private theorem exists_run_unlimited (hfinite : e.IsFinite) (h : e.optimize = .ok g)
    (hrun : (e.run ⟨.unlimited, host, executor⟩).outcome = .ok ⟨v, s⟩) :
    ∃ s', (g.tree.run ⟨.unlimited, host, executor⟩).outcome = .ok ⟨v, s'⟩ ∧
      ∀ counter, s'.value counter ≤
        (allowance e s (typeVisits e (e.run ⟨.unlimited, host, executor⟩))).value counter := by
  obtain ⟨he, htree⟩ := regular_of_optimize hfinite h
  have hknown : FoldedKnown (fun a => decide (a ∈ foldedTypes e)) e :=
    fun _ ha => decide_eq_true ha
  have hagree := agree_foldRoot he hknown host executor
  rw [htree]
  rw [run_eq_unbounded] at hrun ⊢
  rw [run_eq_unbounded, typeVisits]
  dsimp only at hrun ⊢
  rw [visitsOf_reverse]
  generalize unbounded e ⟨.unlimited, host, executor⟩ .start = r at hagree hrun ⊢
  generalize unbounded (foldRoot e #[]).1 ⟨.unlimited, host, executor⟩ .start = r' at hagree ⊢
  cases hagree with
  | @ok w _ c d hv hq =>
    obtain ⟨rfl, -⟩ := hv
    obtain ⟨rfl, rfl⟩ := Evaluation.mk.inj (Except.ok.inj hrun)
    exact ⟨d.usage.stats, rfl, hq.stats⟩
  | error => cases hrun
  | waived hw => exact hw.elim

/-- **Folding under limits.** If an expression whose numbers are finite is optimized and succeeds
under limits without time budgets, then there is a bound on what the result uses up: what the
expression uses up, a string of seven characters more for every visit of a `typeOf` node in a part
that is replaced by a string, and two nodes at least if everything is replaced. The result succeeds
with the same value under all limits that admit this much. The same limits do if no such node is
visited and, where everything is replaced, there are two nodes already; then no counter is higher
than before. -/
theorem run_of_optimize_of_ok (hfinite : e.IsFinite) (h : e.optimize = .ok g)
    (hu : limits.IsUntimed) (hrun : (e.run ⟨limits, host, executor⟩).outcome = .ok ⟨v, s⟩) :
    ∃ s', (∀ counter, s'.value counter ≤
        (allowance e s (typeVisits e (e.run ⟨limits, host, executor⟩))).value counter) ∧
      (∀ limits' : Limits, limits'.IsUntimed →
        limits'.Admits (allowance e s (typeVisits e (e.run ⟨limits, host, executor⟩))) →
          (g.run ⟨limits', host, executor⟩).outcome = .ok ⟨v, s'⟩) ∧
      (typeVisits e (e.run ⟨limits, host, executor⟩) = 0 → (isFoldedAway e → 2 ≤ s.opCount) →
        (g.run ⟨limits, host, executor⟩).outcome = .ok ⟨v, s'⟩ ∧
          ∀ counter, s'.value counter ≤ s.value counter) := by
  obtain ⟨heq, hadmits⟩ := run_unlimited_of_ok hu hrun
  rw [← heq] at hrun ⊢
  obtain ⟨s', hs', hle⟩ := exists_run_unlimited hfinite h hrun
  have hall : ∀ limits' : Limits, limits'.IsUntimed →
      limits'.Admits (allowance e s (typeVisits e (e.run ⟨.unlimited, host, executor⟩))) →
        (g.run ⟨limits', host, executor⟩).outcome = .ok ⟨v, s'⟩ := by
    intro limits' hu' hadmits'
    rw [Graph.run_eq, run_of_admits hu' hs' (hadmits'.mono hle), hs']
  refine ⟨s', hle, hall, fun hzero htwo => ?_⟩
  have hself := allowance_eq_self htwo
  rw [hzero, hself] at hle
  rw [hzero, hself] at hall
  exact ⟨hall limits hu hadmits, hle⟩

/-- **The same limits need not suffice**: the name of a type is not counted, but the literal is; and
a literal on its own is wrapped. -/
theorem exists_optimize_limitExceeded :
    let type : Expr Nat := .op 0 .typeOf [.lit 1 .null]
    let noStrings : Setting := ⟨Limits.unlimited.set (.counter .strCount) (some 0), .empty, .timed⟩
    let null : Expr Nat := .lit 0 .null
    let oneNode : Setting := ⟨Limits.unlimited.set (.counter .opCount) (some 1), .empty, .timed⟩
    (type.IsFinite ∧ noStrings.limits.IsUntimed ∧
      (type.run noStrings).outcome = .ok ⟨.str "null", ⟨2, 0, 0, 0, 0, 0⟩⟩ ∧
      ∃ g, type.optimize = .ok g ∧
        (g.run noStrings).outcome = .error (.limitExceeded ⟨.strCount, 1, 0⟩)) ∧
    (null.IsFinite ∧ oneNode.limits.IsUntimed ∧
      (null.run oneNode).outcome = .ok ⟨.null, ⟨1, 0, 0, 0, 0, 0⟩⟩ ∧
      ∃ g, null.optimize = .ok g ∧
        (g.run oneNode).outcome = .error (.limitExceeded ⟨.opCount, 2, 1⟩)) := by
  intro type noStrings null oneNode
  have htype : type.IsFinite := by
    change ∀ s ∈ [Scalar.null], s.isValid
    decide
  have hnull : null.IsFinite := by
    change ∀ s ∈ [Scalar.null], s.isValid
    decide
  exact ⟨⟨htype, ⟨rfl, rfl⟩, rfl, _, rfl, rfl⟩, hnull, ⟨rfl, rfl⟩, rfl, _, rfl, rfl⟩

/-- The name of a type, which is a string more than before. -/
theorem run_of_optimize_of_ok_typeOf :
    let e : Expr Nat := .op 0 .typeOf [.lit 1 .null]
    let limits := Limits.unlimited.set (.counter .strCount) (some 0)
    e.IsFinite ∧ limits.IsUntimed ∧
      (e.run ⟨limits, .empty, .timed⟩).outcome = .ok ⟨.str "null", ⟨2, 0, 0, 0, 0, 0⟩⟩ ∧
      ∃ g, e.optimize = .ok g ∧ ∃ s',
        (∀ counter, s'.value counter ≤ (⟨2, 0, 0, 0, 1, 7⟩ : Stats).value counter) ∧
        ∀ limits' : Limits, limits'.IsUntimed → limits'.Admits ⟨2, 0, 0, 0, 1, 7⟩ →
          (g.run ⟨limits', .empty, .timed⟩).outcome = .ok ⟨.str "null", s'⟩ := by
  intro e limits
  have hfinite : e.IsFinite := by
    change ∀ s ∈ [Scalar.null], s.isValid
    decide
  have hu : limits.IsUntimed := ⟨rfl, rfl⟩
  have hrun : (e.run ⟨limits, .empty, .timed⟩).outcome =
      .ok ⟨.str "null", ⟨2, 0, 0, 0, 0, 0⟩⟩ := rfl
  have hallowance : allowance e ⟨2, 0, 0, 0, 0, 0⟩
      (typeVisits e (e.run ⟨limits, .empty, .timed⟩)) = ⟨2, 0, 0, 0, 1, 7⟩ := rfl
  obtain ⟨s', hle, hall, -⟩ := run_of_optimize_of_ok hfinite rfl hu hrun
  rw [hallowance] at hle hall
  exact ⟨hfinite, hu, hrun, _, rfl, s', hle, hall⟩

end Expr

end OpTree
