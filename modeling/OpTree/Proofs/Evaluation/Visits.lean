import OpTree.Proofs.Evaluation.Unbounded

/-!
# The visits that an evaluation makes

A `Visit` is an evaluation of an expression that starts in a state. What it comes to depends on the
visits of operands that it makes, and on no others: `Visit.Makes setting v w` says that what `v`
comes to would be another if `w` alone came to something else. Every visit of an operand is one of
these, because no error is ever handled, and so `v` cannot but fail where it fails
(`Visit.Makes.of_fails`). `Visit.OfRun` are the visits of a run.

The scopes in which a visit is made are among those that the site leads to (`Visit.Makes.leads`). At
a call, what is made once the name is known is what the name leads to (`Visit.Makes.call`).
-/

namespace OpTree

open Comparison Contract Eval List

variable {α β : Type}

/-! ### What a visit leaves behind -/

namespace Eval

variable {visit : Expr α → EvalM α Scalar}

theorem checkTime_snd (setting : Setting) (c : State α) :
    (checkTime setting c).2 = c := by
  simp only [checkTime, EvalM.bind_apply, EvalM.setting]
  cases setting.limits.bound .evaluationTime with
  | none => rfl
  | some budget =>
    simp only [EvalM.bind_apply, EvalM.state]
    split <;> rfl

theorem checkLimits_snd (setting : Setting) (c : State α) :
    (checkLimits setting c).2 = c := by
  simp only [checkLimits, EvalM.bind_apply, EvalM.setting, EvalM.state]
  cases c.usage.exceeded? setting.limits <;> rfl

/-- What a node does that has an accepted number of operands. -/
theorem evalNode_op {a : α} {code : Operator} {es : List (Expr α)}
    (h : code.arity.accepts es.length) :
    evalNode visit (.op a code es) = tick a >>= fun _ => apply visit a code es := by
  rw [evalNode_eq, answer, if_pos h]
  rfl

/-- A node that is counted leaves no other trace in the state. -/
theorem tick_snd (node : α) (setting : Setting) (c : State α) :
    (tick node setting c).2 = c.visited node := by
  change ((checkTime >>= fun _ => checkLimits) setting (c.visited node)).2 = c.visited node
  have htime := checkTime_snd setting (c.visited node)
  rw [EvalM.bind_apply]
  generalize checkTime setting (c.visited node) = r at htime ⊢
  obtain ⟨_ | _, d⟩ := r
  · exact htime
  · exact (checkLimits_snd setting d).trans htime

end Eval

/-- A node that is evaluated without limits does what its operator does. -/
theorem Eval.eval_op {depth : Nat} {a : α} {code : Operator} {es : List (Expr α)} {host : Host}
    {executor : Executor} (h : code.arity.accepts es.length) (c : State α) :
    eval (depth + 1) (.op a code es) ⟨.unlimited, host, executor⟩ c =
      apply (eval depth) a code es ⟨.unlimited, host, executor⟩ (c.visited a) := by
  rw [eval_succ, evalNode_op h]
  rfl

namespace Contract

/-- Nothing is promised of an evaluation. -/
def silent (α : Type) : Contract α := .ofSites fun _ => True

theorem kept_silent (setting : Setting) : (silent α).Kept setting :=
  kept_ofSites setting fun _ _ => trivial

end Contract

/-- Soundness is about the scopes only. -/
theorem Site.Sound.of_scopes {κ κ' : Site α} (hs : κ.Sound) (h : κ'.scopes = κ.scopes) :
    κ'.Sound := by
  exact ⟨fun f hf => hs.constants f (h ▸ hf), fun f hf => hs.lambdas f (h ▸ hf)⟩

/-- The site of a state in which an expression is visited. -/
def State.site (c : State α) (e : Expr α) : Site α :=
  ⟨c.scopes, e, inProgress c.trace⟩

/-- **Every evaluation restores the scopes**, and no call that it has begun is in progress in the
end, whether it ends with a value or an error. If it ends with a value then the value is valid. -/
theorem Eval.eval_restores {e : Expr α} {c : State α} (hs : (c.site e).Sound) (depth : Nat)
    (setting : Setting) :
    (eval depth e setting c).2.scopes = c.scopes ∧
      inProgress (eval depth e setting c).2.trace = inProgress c.trace ∧
      ∀ v, (eval depth e setting c).1 = .ok v → v.isValid := by
  have hrun := (kept_silent setting).agrees_eval trivial depth (c.site e) trivial hs c c
    ⟨rfl, rfl, rfl, rfl, trivial, fun _ _ => trivial⟩
  change ((silent α).comparison setting).Agree _ _ (eval depth e setting c)
    (eval depth e setting c) at hrun
  generalize eval depth e setting c = r at hrun
  cases hrun with
  | ok hv hq =>
    refine ⟨hq.1, hq.2.2.calls, ?_⟩
    rintro v ⟨⟩
    exact hv.2
  | error _ hq => exact ⟨hq.1, hq.2.2.calls, nofun⟩
  | waived hw => exact hw.elim

/-- A name is found without a change of the scopes. -/
theorem Eval.nameOf_restores {a : α} {code : Operator} {n : Expr α} {c c' : State α} {depth : Nat}
    {setting : Setting} {name : String} (hs : (c.site n).Sound)
    (h : nameOf (eval depth) a code n setting c = (.ok name, c')) :
    c'.scopes = c.scopes ∧ inProgress c'.trace = inProgress c.trace := by
  cases hn : n.name? with
  | some name =>
    simp only [nameOf, hn] at h
    cases h
    exact ⟨rfl, rfl⟩
  | none =>
    simp only [nameOf, hn] at h
    obtain ⟨hscopes, hcalls, -⟩ := eval_restores hs depth setting
    obtain ⟨v, d, hv, h⟩ := EvalM.bind_eq_ok.1 h
    rw [hv] at hscopes hcalls
    cases v with
    | str s =>
      cases h
      exact ⟨hscopes, hcalls⟩
    | null | num | bool => cases h

/-! ### Visits -/

/-- An evaluation of an expression from some state on, nested at most as deep as it is told to. -/
structure Visit (α : Type) where
  depth : Nat
  expr : Expr α
  state : State α

namespace Visit

variable (setting : Setting)

/-- What a visit comes to. -/
def outcome (v : Visit α) : Except (EvalError α) Scalar × State α :=
  eval v.depth v.expr setting v.state

/-- The site of a visit. -/
def site (v : Visit α) : Site α := v.state.site v.expr

/-- The evaluation of the operands. -/
def visitOperand (v : Visit α) : Expr α → EvalM α Scalar := eval (v.depth - 1)

/-- The one visit makes the other: it would come to something else if only the other one did. -/
def Makes (v w : Visit α) : Prop :=
  v.depth = w.depth + 1 ∧ ∃ visit : Expr α → EvalM α Scalar,
    (∀ e c, e ≠ w.expr ∨ c ≠ w.state → visit e setting c = eval w.depth e setting c) ∧
      evalNode visit v.expr setting v.state ≠ v.outcome setting

/-- The visits of a run. -/
inductive OfRun (e : Expr α) : Visit α → Prop
  | start : OfRun e ⟨e.extent.nesting, e, .start⟩
  | next {v w} : OfRun e v → v.Makes setting w → OfRun e w

variable {setting} {v w : Visit α} {e : Expr α}

/-- A visit is made if it cannot fail without the other one failing likewise. -/
theorem Makes.of_fails (hdepth : v.depth = w.depth + 1)
    (hfails : ∀ (visit : Expr α → EvalM α Scalar) (err : EvalError α),
      (∀ e c, e ≠ w.expr ∨ c ≠ w.state → visit e setting c = eval w.depth e setting c) →
      (visit w.expr setting w.state).1 = .error err →
        (evalNode visit v.expr setting v.state).1 = .error err) : v.Makes setting w := by
  classical
  obtain ⟨err, herr⟩ : ∃ err, (v.outcome setting).1 ≠ .error err := by
    by_contra hall
    simp only [not_exists, not_not] at hall
    have hsame := (hall .unfinished).symm.trans (hall (.timeout 0))
    cases hsame
  let visit : Expr α → EvalM α Scalar := fun e s c =>
    if e = w.expr ∧ c = w.state then (.error err, c) else eval w.depth e s c
  have hother : ∀ e c, e ≠ w.expr ∨ c ≠ w.state →
      visit e setting c = eval w.depth e setting c := fun e c h =>
    if_neg fun ⟨he, hc⟩ => h.elim (fun hne => hne he) fun hne => hne hc
  have hvisit : visit w.expr setting w.state = (.error err, w.state) := if_pos ⟨rfl, rfl⟩
  exact ⟨hdepth, visit, hother, fun heq =>
    herr (heq ▸ hfails visit err hother (congrArg Prod.fst hvisit))⟩

/-- Ways of visiting that are the same but at one visit agree at all sites but that of the visit. -/
private theorem agrees_of_ne {visit : Expr α → EvalM α Scalar}
    (hvisit : ∀ e c, e ≠ w.expr ∨ c ≠ w.state → visit e setting c = eval w.depth e setting c)
    {κ : Site α} (hs : κ.Sound) (hne : κ ≠ w.site) :
    (silent α).Agrees setting visit (eval w.depth) κ := by
  rintro c d hcd
  have hagree := (kept_silent setting).agrees_eval trivial w.depth κ trivial hs c d hcd
  obtain ⟨hc, -, hk⟩ := hcd
  have hother : κ.expr ≠ w.expr ∨ c ≠ w.state := by
    by_contra h
    obtain ⟨he, rfl⟩ := not_or.1 h |>.imp not_not.1 not_not.1
    obtain ⟨σ, e, calls⟩ := κ
    obtain rfl : w.state.scopes = σ := hc
    obtain rfl : inProgress w.state.trace = calls := hk.calls
    exact hne (congrArg w.state.site he)
  change (silent α |>.comparison setting).Agree _ _ (visit κ.expr setting c)
    (eval w.depth κ.expr setting d)
  rw [hvisit κ.expr c hother]
  exact hagree

/-- A visit that is made is one that the site leads to. -/
theorem Makes.leads (h : v.Makes setting w) (hs : v.site.Sound) : v.site.Leads w.site := by
  obtain ⟨hdepth, visit, hvisit, hne⟩ := h
  by_contra hnot
  refine hne ?_
  have hagree : (silent α).Agrees setting (evalNode visit) (evalNode (eval w.depth)) v.site :=
    (kept_silent setting).agrees_evalNode trivial hs fun κ hκ =>
      agrees_of_ne hvisit (hκ.sound hs) fun heq => hnot (heq ▸ hκ)
  rw [outcome, hdepth, eval_succ]
  exact hagree.eq ⟨rfl, rfl, trivial, fun _ _ => trivial⟩ rfl

/-- Once the name is known, a call goes on as if it were spelled out. -/
private theorem evalCall_eq (visit : Expr α → EvalM α Scalar) (a : α) (n : Expr α)
    (args : List (Expr α)) :
    evalCall visit a n args = nameOf visit a .call n >>= fun name =>
      evalCall visit a (.lit a (.str name)) args := rfl

/-- **What a call makes** is the visit of its operand for the name, or what the name leads to that
has come out of it. -/
theorem Makes.call {a : α} {n : Expr α} {args : List (Expr α)} (h : v.Makes setting w)
    (hs : v.site.Sound) (he : v.expr = .op a .call (n :: args)) :
    w.expr = n ∧ w.state = v.state.visited a ∨
      ∃ name c, nameOf v.visitOperand a .call n setting (v.state.visited a) = (.ok name, c) ∧
        Site.Leads ⟨v.state.scopes, .op a .call (.lit a (.str name) :: args), v.site.calls⟩
          w.site := by
  obtain ⟨hdepth, visit, hvisit, hne⟩ := h
  have hoperands : v.visitOperand = eval w.depth := by rw [visitOperand, hdepth, Nat.add_sub_cancel]
  rw [hoperands]
  by_contra hnot
  obtain ⟨hnot, hnot'⟩ := not_or.1 hnot
  have hname : nameOf visit a .call n setting (v.state.visited a)
      = nameOf (eval w.depth) a .call n setting (v.state.visited a) := by
    cases hn : n.name? with
    | some name => simp only [nameOf, hn, EvalM.pure_apply]
    | none =>
      simp only [nameOf, hn]
      rw [EvalM.bind_apply, EvalM.bind_apply, hvisit]
      by_contra hsame
      obtain ⟨hn, hc⟩ := not_or.1 hsame |>.imp not_not.1 not_not.1
      exact hnot ⟨hn.symm, hc.symm⟩
  have hcall : evalCall visit a n args setting (v.state.visited a)
      = evalCall (eval w.depth) a n args setting (v.state.visited a) := by
    rw [evalCall_eq, evalCall_eq, EvalM.bind_apply, EvalM.bind_apply, hname]
    cases hr : nameOf (eval w.depth) a .call n setting (v.state.visited a) with
    | mk r c =>
      cases r with
      | error err => rfl
      | ok name =>
        have hoperand : ((v.state.visited a).site n).Sound := hs.of_scopes rfl
        obtain ⟨hscopes, hcalls⟩ := nameOf_restores hoperand hr
        have hs' : Site.Sound ⟨v.state.scopes, .op a .call (.lit a (.str name) :: args),
            v.site.calls⟩ := hs.of_scopes rfl
        have hagree : (silent α).Agrees setting
            (fun _ => evalCall visit a (.lit a (.str name)) args)
            (fun _ => evalCall (eval w.depth) a (.lit a (.str name)) args)
            ⟨v.state.scopes, .op a .call (.lit a (.str name) :: args), v.site.calls⟩ := by
          refine (kept_silent setting).parallel.evalCall trivial hs' rfl ?_
          rintro κ _ hκ rfl
          exact agrees_of_ne hvisit (hκ.sound hs') fun heq =>
            hnot' ⟨name, c, hr, heq ▸ hκ⟩
        exact hagree.eq ⟨rfl, hcalls, trivial, fun _ _ => trivial⟩ hscopes
  refine hne ?_
  have hlabel : (Expr.op a .call (n :: args)).label = a := rfl
  have htick := tick_snd a setting v.state
  rw [outcome, hdepth, eval_succ, he, evalNode_eq, evalNode_eq, EvalM.bind_apply,
    EvalM.bind_apply, hlabel]
  generalize tick a setting v.state = r at htick
  obtain ⟨_ | _, c⟩ := r
  · rfl
  · obtain rfl : c = v.state.visited a := htick
    dsimp only
    rw [answer, answer]
    split
    · exact hcall
    · rfl

/-- All sites of a run are sound. -/
theorem OfRun.sound (h : OfRun setting e v) : v.site.Sound := by
  induction h with
  | start => exact Site.sound_start e
  | next _ h ih => exact (h.leads ih).sound ih

end Visit

end OpTree
