import OpTree.Proofs.Evaluation.Parallel

/-!
# Contracts of an evaluation

A `Contract` is a property of sites with what it promises of errors, of what happens and of the host
calls. It is kept if the property holds again of every visit that a site leads to, and if the
promises hold of what happens at one site.

Main statements: `Contract.Kept.agrees_evalNode` is the step, for two ways of visiting operands
that agree wherever the site leads to; `Contract.Kept.met` and `Contract.Kept.met_of_rank` are what
follows for whole runs.
-/

namespace OpTree

open Comparison Eval List

variable {α : Type}

/-- A counter that is found to be above its bound is. -/
theorem Usage.exceeded?_eq_some {usage : Usage} {limits : Limits} {excess : Excess}
    (h : usage.exceeded? limits = some excess) :
    limits.bound (.counter excess.counter) = some excess.bound ∧ excess.bound < excess.value := by
  obtain ⟨counter, -, hc⟩ := List.exists_of_findSome?_eq_some h
  rw [excess?] at hc
  split at hc
  · rename_i bound hb
    split at hc
    · rename_i hlt
      cases hc
      exact ⟨hb, hlt⟩
    · cases hc
  · cases hc

/-- A property of sites, and what it promises of an evaluation that starts at one. -/
structure Contract (α : Type) where
  holds : Site α → Prop
  error : EvalError α → Prop
  /-- What is promised of all that has happened so far, the latest first. -/
  trace : List (Event α) → Prop
  /-- What is promised of the names of the host calls that are invoked. -/
  invokes : String → Prop

namespace Contract

variable (C : Contract α)

/-- Nothing is promised but that a property of sites is kept. -/
def ofSites (holds : Site α → Prop) : Contract α where
  holds := holds
  error _ := True
  trace _ := True
  invokes _ := True

/-- Where the property holds it holds of every visit that follows, and the promises are kept at the
node itself. -/
structure Kept (setting : Setting) : Prop where
  leads : ∀ {κ κ'}, C.holds κ → κ.Sound → κ.Leads κ' → C.holds κ'
  fault : ∀ {κ err}, C.holds κ → κ.Sound → κ.Fault setting err → C.error err
  notes : ∀ {κ event before}, C.holds κ → κ.Sound → κ.Notes event → inProgress before = κ.calls →
    C.trace before → C.trace (event :: before)
  leave : ∀ {before}, C.trace before → C.trace (.leave :: before)
  invokes : ∀ {κ name}, C.holds κ → κ.Sound → κ.Invokes setting name → C.invokes name

/-- A run beside another one that differs in how operands are visited. -/
def comparison (setting : Setting) : Comparison α α where
  left := setting
  right := setting
  waives _ := False
  blames err err' := err = err' ∧ C.error err
  value v := v.isValid
  value_of_isValid _ hv := hv

/-- The states are the same, these calls are in progress, and so far the promises are kept. -/
structure Between (calls : List α) (c d : State α) : Prop where
  eq : c = d
  calls : inProgress c.trace = calls
  trace : C.trace c.trace
  history : ∀ i ∈ c.history, C.invokes i.name

/-- The relation between the states at a site. -/
abbrev AtSite (κ : Site α) : State α → State α → Prop :=
  At (C.Between κ.calls) κ.scopes κ.scopes

/-- Two ways of visiting operands agree at a site. -/
def Agrees (setting : Setting) (visit visit' : Expr α → EvalM α Scalar) (κ : Site α) : Prop :=
  (C.comparison setting).Visits visit visit' (C.AtSite κ) κ.expr κ.expr

variable {C} {setting : Setting} {visit visit' : Expr α → EvalM α Scalar} {κ : Site α}

theorem kept_ofSites {holds : Site α → Prop} (setting : Setting)
    (h : ∀ {κ κ'}, holds κ → κ.Leads κ' → holds κ') : (ofSites holds).Kept setting where
  leads hκ _ hl := h hκ hl
  fault _ _ _ := trivial
  notes _ _ _ _ _ := trivial
  leave _ := trivial
  invokes _ _ _ := trivial

namespace Kept

/-- A contract that is kept makes runs agree that differ in how operands are visited. -/
theorem parallel (hC : C.Kept setting) : (C.comparison setting).Parallel C.holds C.Between Eq where
  valid hv := hv
  constants := by
    rintro σ _ name v rfl h
    exact h
  lambdas := by
    rintro σ _ name depth l rfl h
    exact ⟨depth, l, h, .inl ⟨rfl, rfl, rfl⟩⟩
  push frame h := congrArg (·.push frame) h
  noConstant := by
    rintro σ _ name rfl h
    exact .inl h
  noLambda := by
    rintro σ _ name rfl h
    exact .inl ⟨h, fun _ => {
      host := rfl
      executor := rfl
      evaluationTime := rfl
      callTime := rfl
      history := fun hk => congrArg State.history hk.eq
      clock := fun hk => congrArg State.clock hk.eq
      pass := fun n hk => ⟨by rw [hk.eq], hk.calls, hk.trace, hk.history⟩ }⟩
  fault hκ hs h := .inr ⟨rfl, hC.fault hκ hs h⟩
  checks := by
    intro κ hκ hs calls σ τ
    refine ⟨related_checkTime rfl ?_ fun budget hb => .inr ⟨rfl, hC.fault hκ hs (.timeout hb)⟩,
      related_checkLimits ?_⟩
    · rintro - c d ⟨-, -, hk⟩
      exact (congrArg State.clock hk.eq : c.bare.clock = d.bare.clock)
    · rintro c d ⟨-, -, hk⟩
      -- both sides have counted the same
      have husage : d.usage = c.usage :=
        (congrArg State.usage hk.eq.symm : d.bare.usage = c.bare.usage)
      rw [husage]
      cases hx : c.usage.exceeded? setting.limits with
      | none => exact .inl ⟨hx, hx⟩
      | some x =>
        obtain ⟨hb, hlt⟩ := Usage.exceeded?_eq_some hx
        exact .inr ⟨x, hx, .inr ⟨x, hx, rfl, hC.fault hκ hs (.limitExceeded hb hlt)⟩⟩
  counts _ hk := ⟨by rw [hk.eq], hk.calls, hk.trace, hk.history⟩
  visit hκ hs hk :=
    ⟨by rw [hk.eq], hk.calls, hC.notes hκ hs .visit hk.calls hk.trace, hk.history⟩
  external hκ hs hn hk :=
    ⟨by rw [hk.eq], hk.calls, hC.notes hκ hs hn hk.calls hk.trace, hk.history⟩
  enter hκ hs hn hk :=
    ⟨by rw [hk.eq], congrArg _ hk.calls, hC.notes hκ hs hn hk.calls hk.trace, hk.history⟩
  leave hk := ⟨by rw [hk.eq], congrArg List.tail hk.calls, hC.leave hk.trace, hk.history⟩
  invoke hκ hs hi _ hk :=
    ⟨by rw [hk.eq], hk.calls, hk.trace,
      List.forall_mem_cons.2 ⟨hC.invokes hκ hs hi, hk.history⟩⟩

/-- **One step.** Two ways of visiting operands that agree at every visit that follows make the
evaluations of the node agree, and the promises are kept meanwhile. -/
theorem agrees_evalNode (hC : C.Kept setting) (hκ : C.holds κ) (hs : κ.Sound)
    (hv : ∀ κ', κ.Leads κ' → C.Agrees setting visit visit' κ') :
    C.Agrees setting (evalNode visit) (evalNode visit') κ := by
  refine hC.parallel.related_evalNode hκ hs rfl ?_
  rintro κ' _ h rfl
  exact hv κ' h

/-- What is kept at one depth is kept at the next. -/
theorem agrees_eval (hC : C.Kept setting) (hun : C.error .unfinished) (depth : Nat) :
    ∀ κ, C.holds κ → κ.Sound → C.Agrees setting (eval depth) (eval depth) κ := by
  induction depth with
  -- without any depth an evaluation is cut off
  | zero => exact fun κ hκ hs => .fail (.inr ⟨rfl, hun⟩)
  | succ depth ih =>
    intro κ hκ hs
    exact hC.agrees_evalNode hκ hs fun κ' h => ih κ' (hC.leads hκ hs h) (h.sound hs)

/-- If a rank falls with every visit that follows, all depths above the rank agree. -/
theorem agrees_of_rank (hC : C.Kept setting) (rank : Site α → Nat)
    (hrank : ∀ {κ κ'}, C.holds κ → κ.Sound → κ.Leads κ' → rank κ' < rank κ) (depth : Nat) :
    ∀ depth' κ, C.holds κ → κ.Sound → rank κ < depth → rank κ < depth' →
      C.Agrees setting (eval depth) (eval depth') κ := by
  induction depth with
  | zero => exact fun _ _ _ _ h => absurd h (Nat.not_lt_zero _)
  | succ depth ih =>
    intro depth' κ hκ hs hr hr'
    obtain ⟨depth', rfl⟩ : ∃ k, depth' = k + 1 := ⟨depth' - 1, by omega⟩
    refine hC.agrees_evalNode hκ hs fun κ' h => ?_
    have hlt := hrank hκ hs h
    exact ih depth' κ' (hC.leads hκ hs h) (h.sound hs) (by omega) (by omega)

end Kept

/-- What a contract says of a run. -/
structure Met (C : Contract α) (run : Run α) : Prop where
  error : ∀ err, run.outcome = .error err → C.error err
  trace : C.trace run.trace.reverse
  invokes : ∀ i ∈ run.calls, C.invokes i.name
  valid : ∀ result, run.outcome = .ok result → result.result.isValid

/-- Where two ways of visiting agree at the start, the runs are the same and the promises are
kept. -/
private theorem met_of_agrees {e : Expr α} {depth depth' : Nat}
    (h : C.Agrees setting (eval depth) (eval depth') (.start e)) (ht : C.trace []) :
    e.runWithin depth setting = e.runWithin depth' setting ∧ C.Met (e.runWithin depth setting) := by
  have hrun := h .start .start ⟨rfl, rfl, rfl, rfl, ht, nofun⟩
  change (C.comparison setting).Agree _ _ (eval depth e setting .start)
    (eval depth' e setting .start) at hrun
  rw [Expr.runWithin, Expr.runWithin]
  generalize eval depth e setting .start = r at hrun ⊢
  generalize eval depth' e setting .start = r' at hrun ⊢
  have hhistory {c : State α} (hh : ∀ i ∈ c.bare.history, C.invokes i.name) :
      ∀ i ∈ c.history.reverse, C.invokes i.name := fun i hi => hh i (List.mem_reverse.1 hi)
  cases hrun with
  | @ok v _ c d hv hq =>
    obtain ⟨rfl, hvalid⟩ := hv
    obtain ⟨hc, hd, hk⟩ := hq
    have hcd : c = d := State.ext_bare (hc.trans hd.symm) hk.eq
    subst hcd
    refine ⟨rfl, nofun, ?_, hhistory hk.history, ?_⟩
    · rw [List.reverse_reverse]
      exact hk.trace
    · rintro _ ⟨⟩
      exact hvalid
  | @error err _ c d he hq =>
    obtain ⟨rfl, herr⟩ := he
    obtain ⟨hc, hd, hk⟩ := hq
    have hcd : c = d := State.ext_bare (hc.trans hd.symm) hk.eq
    subst hcd
    refine ⟨rfl, ?_, ?_, hhistory hk.history, nofun⟩
    · rintro _ ⟨⟩
      exact herr
    · rw [List.reverse_reverse]
      exact hk.trace
  | waived h => exact h.elim

namespace Kept

variable {e : Expr α}

/-- **Runs keep what their start promises**, however deep they may be nested. -/
theorem met (hC : C.Kept setting) (hun : C.error .unfinished) (hstart : C.holds (.start e))
    (ht : C.trace []) (depth : Nat) : C.Met (e.runWithin depth setting) :=
  (met_of_agrees (hC.agrees_eval hun depth _ hstart (Site.sound_start e)) ht).2

/-- **Runs do not depend on the depth** if it is above a rank that falls with every visit, and then
they need not promise anything of an evaluation that is nested too deep. -/
theorem met_of_rank (hC : C.Kept setting) (rank : Site α → Nat)
    (hrank : ∀ {κ κ'}, C.holds κ → κ.Sound → κ.Leads κ' → rank κ' < rank κ)
    (hstart : C.holds (.start e)) (ht : C.trace []) {depth depth' : Nat}
    (h : rank (.start e) < depth) (h' : rank (.start e) < depth') :
    e.runWithin depth setting = e.runWithin depth' setting ∧ C.Met (e.runWithin depth setting) :=
  met_of_agrees (hC.agrees_of_rank rank hrank depth depth' _ hstart (Site.sound_start e) h h') ht

end Kept

end Contract

end OpTree
