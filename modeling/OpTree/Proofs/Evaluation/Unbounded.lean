import Mathlib.Algebra.Order.BigOperators.Group.List
import Mathlib.Algebra.Order.Group.Nat
import OpTree.Proofs.Evaluation.Forward
import OpTree.Proofs.Evaluation.Nesting

/-!
# Evaluation without a depth

How deep an evaluation may be nested does not matter once it is deep enough, and how deep that is
can be told from the expression and the scopes. `Eval.unbounded` takes this depth from the state in
which it starts. It satisfies the equation that one would take for the definition of an evaluation
(`Site.unbounded_eq`), it is what every deep enough evaluation does (`Site.eval_eq_unbounded`), and
runs are made of it (`Expr.run_eq_unbounded`). Statements about it are proved along the visits
that an evaluation makes, since there is no infinite chain of them (`Site.leads_wellFounded`).
-/

namespace OpTree

open Comparison Eval

variable {α β γ : Type}

namespace Site

/-- A bound on the heights of the expression and of the bodies of the visible lambdas. -/
def bound (κ : Site α) : Nat :=
  κ.expr.height +
    ((κ.scopes.visible.flatMap fun f => f.lambdas.entries).map fun x => x.2.body.height).sum

theorem low_bound (κ : Site α) : κ.Low κ.bound := by
  refine ⟨Nat.le_add_right _ _, fun f hf name l hl => ?_⟩
  have hentry : (name, l) ∈ κ.scopes.visible.flatMap fun f => f.lambdas.entries := by
    obtain ⟨before, after, he, -⟩ := List.lookup_eq_some_iff.1 hl
    exact List.mem_flatMap.2 ⟨f, hf, by simp [he]⟩
  have hsum : l.body.height ≤ ((κ.scopes.visible.flatMap fun f => f.lambdas.entries).map
      fun x => x.2.body.height).sum :=
    List.single_le_sum (fun _ _ => Nat.zero_le _) _ (List.mem_map.2 ⟨_, hentry, rfl⟩)
  exact hsum.trans (Nat.le_add_left _ _)

/-- **There is no infinite chain of visits.** -/
theorem leads_wellFounded : WellFounded fun κ' κ : Site α => κ.Leads κ' := by
  refine ⟨fun κ => ?_⟩
  -- the bound stays that of the first site
  have key : ∀ n (κ' : Site α), κ'.Low κ.bound → κ'.rank κ.bound < n →
      Acc (fun κ' κ : Site α => κ.Leads κ') κ' := by
    intro n
    induction n with
    | zero => exact fun _ _ h => absurd h (Nat.not_lt_zero _)
    | succ n ih =>
      intro κ' hlow hr
      refine ⟨κ', fun κ'' h => ih κ'' (h.low hlow) ?_⟩
      have hlt := h.rank_lt hlow
      omega
  exact key _ κ κ.low_bound (Nat.lt_succ_self _)

end Site

/-- Evaluates an expression, nesting as deep as the scopes and the expression ask for. -/
noncomputable def Eval.unbounded (e : Expr α) : EvalM α Scalar := fun setting c =>
  let κ : Site α := ⟨c.scopes, e, []⟩
  eval (κ.rank κ.bound + 1) e setting c

namespace Eval

/-- Without a depth, too, evaluation takes nothing back. -/
theorem forward_unbounded (e : Expr α) : Forward (unbounded e) :=
  fun setting c => forward_eval _ e setting c

theorem visited_unbounded (e : Expr α) (setting : Setting) (c : State α) :
    (c.visited e.label).Precedes (unbounded e setting c).2 :=
  visited_evalNode (forward_eval _) e setting c

end Eval

/-- Nothing is promised but that the heights stay bounded. -/
private def low (α : Type) (bound : Nat) : Contract α := .ofSites fun κ => κ.Low bound

private theorem kept_low (setting : Setting) (bound : Nat) : (low α bound).Kept setting :=
  Contract.kept_ofSites setting fun hκ h => h.low hκ

namespace Contract

variable {C : Contract α} {setting : Setting} {visit visit' : Expr α → EvalM α Scalar}
  {κ : Site α} {c : State α}

/-- Where two ways of visiting agree they do the same. -/
theorem Agrees.eq (h : C.Agrees setting visit visit' κ) (hc : C.Between κ.calls c c)
    (hs : c.scopes = κ.scopes) : visit κ.expr setting c = visit' κ.expr setting c := by
  have hrun := h c c ⟨hs, hs, rfl, hc.calls, hc.trace, hc.history⟩
  change (C.comparison setting).Agree _ _ (visit κ.expr setting c) (visit' κ.expr setting c) at hrun
  generalize visit κ.expr setting c = r at hrun ⊢
  generalize visit' κ.expr setting c = r' at hrun ⊢
  cases hrun with
  | ok hv hq =>
    obtain ⟨hc, hd, hk⟩ := hq
    rw [hv.1, State.ext_bare (hc.trans hd.symm) hk.eq]
  | error he hq =>
    obtain ⟨hc, hd, hk⟩ := hq
    rw [he.1, State.ext_bare (hc.trans hd.symm) hk.eq]
  | waived h => exact h.elim

end Contract

namespace Site

variable {κ : Site α} {c : State α}

private theorem eval_eq_eval (hs : κ.Sound) {bound depth depth' : Nat} (hlow : κ.Low bound)
    (h : κ.rank bound < depth) (h' : κ.rank bound < depth') (setting : Setting)
    (hc : c.scopes = κ.scopes) : eval depth κ.expr setting c = eval depth' κ.expr setting c := by
  have hagree := (kept_low setting bound).agrees_of_rank (Site.rank bound)
    (fun hκ _ h => h.rank_lt hκ) depth depth' ⟨κ.scopes, κ.expr, inProgress c.trace⟩
    ⟨hlow.expr, hlow.bodies⟩ ⟨hs.constants, hs.lambdas⟩ h h'
  exact hagree.eq ⟨rfl, rfl, trivial, fun _ _ => trivial⟩ hc

/-- Every evaluation that is deep enough does the same. -/
theorem eval_eq_unbounded (hs : κ.Sound) {bound depth : Nat} (hlow : κ.Low bound)
    (h : κ.rank bound < depth) (setting : Setting) (hc : c.scopes = κ.scopes) :
    eval depth κ.expr setting c = unbounded κ.expr setting c := by
  have hdepth : unbounded κ.expr setting c = eval (κ.rank κ.bound + 1) κ.expr setting c := by
    rw [unbounded, hc]
    rfl
  -- the two depths may belong to different bounds on the heights
  have hmore : κ.rank bound < depth + (κ.rank κ.bound + 1) := by omega
  have hmore' : κ.rank κ.bound < depth + (κ.rank κ.bound + 1) := by omega
  rw [hdepth, eval_eq_eval hs hlow h hmore setting hc,
    eval_eq_eval hs κ.low_bound (Nat.lt_succ_self _) hmore' setting hc]

/-- **The equation of evaluation.** The evaluation of a node is made of the evaluations of its
operands. -/
theorem unbounded_eq (hs : κ.Sound) (setting : Setting) (hc : c.scopes = κ.scopes) :
    unbounded κ.expr setting c = evalNode unbounded κ.expr setting c := by
  have hkept := kept_low (α := α) setting κ.bound
  have hstep : (low α κ.bound).Agrees setting (evalNode (eval (κ.rank κ.bound)))
      (evalNode unbounded) ⟨κ.scopes, κ.expr, inProgress c.trace⟩ := by
    refine hkept.agrees_evalNode ⟨κ.low_bound.expr, κ.low_bound.bodies⟩
      ⟨hs.constants, hs.lambdas⟩ fun κ' h => ?_
    have hlow : κ'.Low κ.bound := h.low ⟨κ.low_bound.expr, κ.low_bound.bodies⟩
    have hs' : κ'.Sound := h.sound ⟨hs.constants, hs.lambdas⟩
    have hrank : κ'.rank κ.bound < κ.rank κ.bound :=
      h.rank_lt ⟨κ.low_bound.expr, κ.low_bound.bodies⟩
    have hagree := hkept.agrees_of_rank (Site.rank κ.bound) (fun hκ _ h => h.rank_lt hκ) _ _ κ'
      hlow hs' hrank hrank
    intro c d hcd
    rw [← eval_eq_unbounded hs' hlow hrank _ hcd.2.1]
    exact hagree c d hcd
  rw [← eval_eq_unbounded hs κ.low_bound (Nat.lt_succ_self _) setting hc, eval_succ]
  exact hstep.eq ⟨rfl, rfl, trivial, fun _ _ => trivial⟩ hc

section

variable {cmp : Comparison α β} {κ : Site α} {κ' : Site β} {σ : ScopeStack α} {τ : ScopeStack β}
  {K Q : State α → State β → Prop} {V : γ → Scalar → Prop} {W : Scalar → γ → Prop}

/-- An evaluation on the left is related to something if its node is. -/
theorem related_unbounded_left {y : EvalM β γ} (hs : κ.Sound)
    (h : cmp.Related (At K κ.scopes τ) Q W (evalNode unbounded κ.expr) y) :
    cmp.Related (At K κ.scopes τ) Q W (unbounded κ.expr) y := by
  intro c d hcd
  rw [unbounded_eq hs _ hcd.1]
  exact h c d hcd

/-- An evaluation on the right is related to something if its node is. -/
theorem related_unbounded_right {x : EvalM α γ} (hs : κ'.Sound)
    (h : cmp.Related (At K σ κ'.scopes) Q V x (evalNode unbounded κ'.expr)) :
    cmp.Related (At K σ κ'.scopes) Q V x (unbounded κ'.expr) := by
  intro c d hcd
  rw [unbounded_eq hs _ hcd.2.1]
  exact h c d hcd

end

end Site

namespace Expr

/-- The equation at the start. -/
theorem unbounded_start (e : Expr α) (setting : Setting) :
    unbounded e setting .start = evalNode unbounded e setting .start :=
  Site.unbounded_eq (Site.sound_start e) setting rfl

/-- The nesting of the extent is deep enough for every expression, also where parts are shared. -/
theorem eval_eq_unbounded {e : Expr α} {depth : Nat}
    (hdepth : (e.lambdaCount + 1) * (e.height + 1) ≤ depth) (setting : Setting) :
    eval depth e setting .start = unbounded e setting .start :=
  Site.eval_eq_unbounded (Site.sound_start e) (Site.low_start e)
    ((Site.rank_start_lt e).trans_le hdepth) setting rfl

/-- **Runs without a depth.** What a run comes to can be told from the evaluation without a
depth. -/
theorem run_eq_unbounded (e : Expr α) (setting : Setting) :
    e.run setting =
      { outcome := (unbounded e setting .start).1.map fun value =>
          ⟨value, (unbounded e setting .start).2.usage.stats⟩
        calls := (unbounded e setting .start).2.history.reverse
        trace := (unbounded e setting .start).2.trace.reverse } := by
  have heval : eval e.extent.nesting e setting .start = unbounded e setting .start :=
    eval_eq_unbounded (Nat.le_refl _) setting
  rw [run, runWithin, heval]

/-- An expression is evaluated as deep as its extent asks for, and any greater depth gives the same
outcome. -/
theorem evaluate_eq_eval {e : Expr α} {depth : Nat} (hdepth : e.extent.nesting ≤ depth)
    (setting : Setting) :
    e.evaluate setting = (eval depth e setting .start).1.map fun v =>
      ⟨v, (eval depth e setting .start).2.usage.stats⟩ := by
  rw [eval_eq_unbounded hdepth, evaluate, run_eq_unbounded]

end Expr

end OpTree
