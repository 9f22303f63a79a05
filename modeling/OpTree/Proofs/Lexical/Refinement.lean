import OpTree.Proofs.Evaluation.Calls
import OpTree.Proofs.Lexical.Environment

/-!
# Evaluation is lexically scoped

The evaluation with a stack of scopes does what the reference semantics does: it ends the same way,
and leaves the same state behind. The stack stands for the environment all along (`Represents`), and
all else that is in the two states is equal.

Main statement: `Expr.run_eq_lexical`.
-/

namespace OpTree

open Comparison Eval List

variable {α : Type}

namespace Lexical

/-! ### New frames -/

namespace IsNew

variable {frame new : Frame α} {name : String}

theorem empty : IsNew (.empty : Frame α) :=
  nofun

/-- A frame without lambdas is new. -/
theorem of_lambdas (h : frame.lambdas = .empty) : IsNew frame := by
  intro name lambda hl
  rw [h] at hl
  cases hl

/-- A constant may be declared. -/
theorem bindConstant? {value : Scalar} (h : IsNew frame)
    (hnew : frame.bindConstant? name value = some new) : IsNew new := by
  obtain ⟨-, rfl⟩ := Frame.bindConstant?_eq_some.1 hnew
  exact h

/-- A lambda may be declared, since it is not busy then. -/
theorem bindLambda? {label : α} {es : List (Expr α)} {lambda : Lambda α} (h : IsNew frame)
    (hl : Lambda.declare label es = .ok lambda)
    (hnew : frame.bindLambda? name lambda = some new) : IsNew new := by
  obtain ⟨-, rfl⟩ := Frame.bindLambda?_eq_some.1 hnew
  obtain ⟨-, hbusy, hnodup, -⟩ := Lambda.declare_eq_ok hl
  intro other l hother
  rw [NameMap.find?_insert] at hother
  split at hother
  · cases hother
    exact ⟨hbusy, hnodup⟩
  · exact h other l hother

end IsNew

/-! ### The comparison -/

/-- The evaluation with a stack, beside the reference semantics. -/
def reference (setting : Setting) : Comparison α α where
  left := setting
  right := setting
  waives _ := False
  blames := Eq
  value _ := True
  value_of_isValid _ _ := trivial

/-- The states are equal, and `n` entries have been counted before. -/
def InStep (n : Nat) (c d : State α) : Prop :=
  c = d ∧ n ≤ c.usage.stats.scopeCount

/-- The states at a place where the stack is `σ`, the scopes of the reference being unused. -/
abbrev Here (n : Nat) (σ : ScopeStack α) : State α → State α → Prop :=
  At (InStep n) σ .empty

/-- At a place where the stack is `σ` the step does what the reference does. -/
abbrev Refines (setting : Setting) (n : Nat) (σ : ScopeStack α) (x y : EvalM α Scalar) : Prop :=
  (reference setting).Related (Here n σ) (Here n σ) (reference (α := α) setting).Same x y

/-- Wherever the stack stands for the environment, the visits agree. -/
def Agrees (setting : Setting) (visit : Expr α → EvalM α Scalar)
    (visit' : Env α → List Instance → Expr α → EvalM α Scalar) : Prop :=
  ∀ {n active env σ}, Represents n active env σ.visible →
    ∀ e, Refines setting n σ (visit e) (visit' env active e)

variable {setting : Setting} {n : Nat} {active : List Instance} {env : Env α}
  {σ : ScopeStack α} {node : α} {frame : Frame α} {name : String}
  {visit : Expr α → EvalM α Scalar} {visit' : Env α → List Instance → Expr α → EvalM α Scalar}

theorem accepts_self (err : EvalError α) : (reference setting).Accepts err err :=
  .inr rfl

/-- Counting never takes an entry back. -/
theorem le_scopeCount {f : Usage → Usage} (hf : Usage.Counts f) (u : Usage) :
    u.stats.scopeCount ≤ (f u).stats.scopeCount := by
  cases hf with
  | openScope => exact Nat.le_succ _
  | op | var | string | closeScope => exact Nat.le_refl _

private theorem related_limits (τ : ScopeStack α) :
    (reference setting).Related (At (InStep n) σ τ) (At (InStep n) σ τ) (fun _ _ => True)
      checkLimits checkLimits := by
  refine related_checkLimits fun c d h => ?_
  have husage : c.usage = d.usage := (congrArg State.usage h.2.2.1 : c.bare.usage = d.bare.usage)
  rw [← husage]
  cases hx : c.usage.exceeded? setting.limits with
  | none => exact .inl ⟨hx, hx⟩
  | some x => exact .inr ⟨x, hx, .inr ⟨x, hx, rfl⟩⟩

theorem metered : (reference (α := α) setting).Metered (InStep n) := by
  refine .of_checkLimits (fun σ τ => related_limits τ) ?_
  rintro c _ f hf ⟨rfl, hn⟩
  exact ⟨rfl, Nat.le_trans hn (le_scopeCount hf c.usage)⟩

theorem hosted : (reference (α := α) setting).Hosted (InStep n) where
  host := rfl
  executor := rfl
  evaluationTime := rfl
  callTime := rfl
  history h := congrArg State.history h.1
  clock h := congrArg State.clock h.1
  pass := by
    rintro c _ ms ⟨rfl, hn⟩
    exact ⟨rfl, hn⟩

/-- What is noted on both sides leaves the states in step. -/
theorem InStep.note {c d : State α} (h : InStep n c d) (event : Event α) :
    InStep n (c.note event) (d.note event) := by
  obtain ⟨rfl, hn⟩ := h
  exact ⟨rfl, hn⟩

private theorem related_tick :
    (reference setting).Related (Here n σ) (Here n σ) (fun _ _ => True) (tick node)
      (tick node) := by
  have htime : (reference setting).Related (Here n σ) (Here n σ) (fun _ _ => True)
      (checkTime (α := α)) checkTime := by
    refine related_checkTime rfl (fun _ c d h => ?_) fun budget _ => accepts_self _
    exact (congrArg State.clock h.2.2.1 : c.bare.clock = d.bare.clock)
  refine Comparison.related_tick htime (related_limits .empty) ?_
  rintro c _ ⟨rfl, hn⟩
  exact ⟨rfl, hn⟩

/-- A name is the same on both sides. -/
private theorem names (hv : Agrees setting visit visit') (h : Represents n active env σ.visible)
    (code : Operator) (e : Expr α) :
    (reference setting).Names visit (visit' env active) node node code (Here n σ) e e := by
  cases hn : e.name? with
  | some name => exact names_of_literal hn hn
  | none => exact names_of_computed hn hn (accepts_self _) (hv h e)

/-! ### Lookups and scopes -/

/-- A constant that the stack finds is the one that the environment finds. -/
private theorem related_lookUp (hv : Agrees setting visit visit')
    (h : Represents n active env σ.visible) (e : Expr α) :
    Refines setting n σ (Eval.lookUp visit node e) (lookUp visit' env active node e) := by
  refine (names hv h .lookup e).bind ?_
  rintro name _ ⟨rfl, -⟩
  refine .state_bind_left fun c d hcd => ?_
  rw [hcd.1, h.constant?_eq]
  cases constant? env name with
  | some value =>
    exact (metered.countString σ .empty value).bind (fun _ _ _ => .pure ⟨rfl, trivial⟩) c d hcd
  | none => exact Related.fail (accepts_self _) c d hcd

/-- A scope is entered on both sides, and gets the number of the entries before it. -/
private theorem related_inScope {x : EvalM α Scalar} {y : Scope α → EvalM α Scalar}
    (h : ∀ number, n ≤ number →
      Refines setting (number + 1) (σ.push frame) x (y ⟨number, frame⟩)) :
    Refines setting n σ (Eval.inScope frame x) (inScope frame y) := by
  rintro c d ⟨hc, hd, heq, hn⟩
  have husage : c.usage = d.usage := (congrArg State.usage heq : c.bare.usage = d.bare.usage)
  have hbody := (h d.usage.stats.scopeCount (husage ▸ hn)).andFinally (R := Here n σ)
    (f := fun state => { state with scopes := state.scopes.pop, usage := state.usage.closeScope })
    (g := fun state => { state with usage := state.usage.closeScope }) <| by
      rintro c' d' ⟨hc', hd', heq', hn'⟩
      refine ⟨by rw [hc', ScopeStack.pop_push], hd', ?_, ?_⟩
      · exact congrArg (fun s => { s with usage := s.usage.closeScope }) heq'
      · have hle : n ≤ d.usage.stats.scopeCount := husage ▸ hn
        exact Nat.le_trans hle (Nat.le_of_succ_le hn')
  refine hbody { c with usage := c.usage.openScope, scopes := c.scopes.push frame }
    { d with usage := d.usage.openScope } ⟨by rw [hc], hd, ?_, ?_⟩
  · exact congrArg (fun s => { s with usage := s.usage.openScope }) heq
  · exact Nat.le_of_eq (congrArg (fun u => u.stats.scopeCount + 1) husage.symm)

/-- A binding adds to the frame what it adds to the new scope. -/
private theorem related_declare (hv : Agrees setting visit visit')
    (h : Represents n active env σ.visible) (hf : IsNew frame) (name : String) (e : Expr α) :
    (reference setting).Related (Here n σ) (Here n σ) (fun new new' => new = new' ∧ IsNew new)
      (declare visit node frame name e) (declare (visit' env active) node frame name e) := by
  cases he : e.isLambda with
  | false =>
    refine related_declare_constant he he (hv h e) rfl
      (fun x new _ hnew => ⟨?_, hf.bindConstant? hnew⟩) fun _ => accepts_self _
    obtain ⟨-, rfl⟩ := Frame.bindConstant?_eq_some.1 hnew
    rfl
  | true =>
    match e, he with
    | .op label .lambda es, _ =>
      refine related_declare_lambda (fun l hl => ⟨l, hl, ?_⟩) fun err herr =>
        .inr ⟨err, herr, rfl⟩
      cases hnew : frame.bindLambda? name l with
      | some new => exact ⟨rfl, hf.bindLambda? hl hnew⟩
      | none => exact accepts_self _

/-- A scope is evaluated in the environment that has it as the innermost scope. -/
private theorem related_evalScope (hv : Agrees setting visit visit')
    (h : Represents n active env σ.visible) :
    ∀ (es : List (Expr α)) (frame : Frame α), IsNew frame →
      Refines setting n σ (Eval.evalScope visit node frame es)
        (evalScope visit' env active node frame es)
  | [], _, _ => .pure ⟨rfl, trivial⟩
  | [b], frame, hf => related_inScope fun number hn => hv ((h.mono hn).cons hf) b
  | n :: e :: es, frame, hf => by
    refine (names hv h .scope n).bind ?_
    rintro name _ ⟨rfl, -⟩
    refine (metered.countVar σ .empty).bind fun _ _ _ => ?_
    refine (related_declare hv h hf name e).bind ?_
    rintro new _ ⟨rfl, hnew⟩
    exact related_evalScope hv h es new hnew

/-! ### Calls -/

/-- The arguments are evaluated in the environment of the call and the body in that of the closure,
and the stack is as before in the end. -/
private theorem related_callLambda (hv : Agrees setting visit visit') {depth : Nat}
    {lambda : Lambda α}
    (hl : σ.lambda? name = some (depth, lambda)) {closure : Closure α}
    (hlambda : lambda = { closure.lambda with busy := decide (closure.id ∈ active) })
    (hnodup : closure.lambda.params.Nodup)
    (hargs : Represents n (closure.id :: active) env (σ.mark depth name true).visible)
    (hbody : Represents n (closure.id :: active) closure.env
      ((σ.mark depth name true).narrow depth).visible) (args : List (Expr α)) :
    Refines setting n σ (callLambda visit node name depth lambda args)
      (callClosure visit' env active node name closure args) := by
  rw [callLambda, callClosure, hlambda]
  by_cases hlen : closure.lambda.params.length = args.length
  case neg =>
    rw [if_pos hlen, if_pos hlen]
    exact .fail (accepts_self _)
  rw [if_neg (not_not.2 hlen), if_neg (not_not.2 hlen)]
  by_cases hbusy : closure.id ∈ active
  case pos =>
    rw [if_pos (decide_eq_true hbusy), if_pos hbusy]
    exact .fail (accepts_self _)
  rw [if_neg (by simpa using hbusy), if_neg hbusy]
  have hfree : lambda.busy = false := by
    rw [hlambda]
    exact decide_eq_false hbusy
  -- the arguments, and what follows them
  have hrun : Refines setting n (σ.mark depth name true)
      (do
        let frame ← bindParams visit node .empty closure.lambda.params args
        EvalM.modifyScopes (·.narrow depth)
        (Eval.inScope frame (visit closure.lambda.body)).andFinally fun state =>
          { state with scopes := state.scopes.widen })
      (do
        let frame ← bindParams (visit' env (closure.id :: active)) node .empty
          closure.lambda.params args
        inScope frame fun scope =>
          visit' (scope :: closure.env) (closure.id :: active) closure.lambda.body) := by
    refine (related_bindParams metered (forall₂_same.2 fun e _ => hv hargs e)
      closure.lambda.params [] .empty .empty hlen hnodup .empty).bind fun frame frame' hf => ?_
    obtain rfl := hf.eq
    have hinside : Refines setting n ((σ.mark depth name true).narrow depth)
        (Eval.inScope frame (visit closure.lambda.body)) (inScope frame fun scope =>
          visit' (scope :: closure.env) (closure.id :: active) closure.lambda.body) :=
      related_inScope fun number hn =>
        hv ((hbody.mono hn).cons (.of_lambdas hf.lambdas)) closure.lambda.body
    refine .bind_left (R := Here n ((σ.mark depth name true).narrow depth)) (a := ())
      (fun c d hcd => ⟨_, rfl, congrArg (·.narrow depth) hcd.1, hcd.2⟩)
      (hinside.andFinally_left ?_)
    rintro c d ⟨hc, hd, hk⟩
    exact ⟨by rw [hc, ScopeStack.widen_narrow], hd, hk⟩
  refine .modify_bind (R := Here n σ) ?_ (.bind_left (R := Here n (σ.mark depth name true))
    (a := ()) (fun c d hcd => ⟨_, rfl, congrArg (·.mark depth name true) hcd.1, hcd.2⟩)
    (hrun.andFinally ?_))
  · rintro c d ⟨hc, hd, hk⟩
    exact ⟨hc, hd, hk.note _⟩
  · rintro c d ⟨hc, hd, hk⟩
    refine ⟨?_, hd, hk.note .leave⟩
    change c.scopes.mark depth name false = σ
    rw [hc, ScopeStack.mark_mark hl hfree]

/-- A call is one of the closure, or of the host. -/
private theorem related_evalCall (hv : Agrees setting visit visit')
    (h : Represents n active env σ.visible) (operand : Expr α) (args : List (Expr α)) :
    Refines setting n σ (Eval.evalCall visit node operand args)
      (evalCall visit' env active node operand args) := by
  refine (names hv h .call operand).bind ?_
  rintro name _ ⟨rfl, -⟩
  refine .state_bind_left fun c d hcd => ?_
  rw [hcd.1]
  cases hl : σ.lambda? name with
  | some found =>
    obtain ⟨depth, lambda⟩ := found
    obtain ⟨closure, hclosure, hnodup, hlambda, hargs, hbody⟩ := h.lambda? hl
    rw [hclosure]
    exact related_callLambda hv hl hlambda hnodup hargs hbody args c d hcd
  | none =>
    rw [h.closure?_eq_none hl]
    refine related_callHost metered hosted (fun err _ => accepts_self _) (fun hk => hk.note _) ?_
      (fun _ => forall₂_same.2 fun e _ => hv h e) c d hcd
    rintro c _ values - - ⟨rfl, hn⟩
    exact ⟨rfl, hn⟩

/-! ### Nodes -/

/-- The operators refine those of the lexical semantics. -/
private theorem related_apply (hv : Agrees setting visit visit')
    (h : Represents n active env σ.visible) {code : Operator} {es : List (Expr α)}
    (ha : code.arity.accepts es.length) :
    Refines setting n σ (Eval.apply visit node code es)
      (apply visit' env active node code es) := by
  rcases code.isPlain_or with hp | rfl | rfl | rfl | rfl
  · have happly : apply visit' env active node code es
        = Eval.apply (visit' env active) node code es := by
      cases code <;> first | rfl | cases hp
    rw [happly]
    exact Comparison.related_apply hp ha (fun err _ => accepts_self _)
      (forall₂_same.2 fun e _ => hv h e)
  · cases es with
    | nil => cases ha
    | cons operand args => exact related_evalCall hv h operand args
  · obtain ⟨e, rfl⟩ := List.length_eq_one_iff.1 (beq_iff_eq.1 ha)
    exact related_lookUp hv h e
  · exact related_evalScope hv h es .empty .empty
  · exact .fail (accepts_self _)

/-- **The stack is the environment.** By induction on the nesting, the evaluation with a stack does
at every place what the reference semantics does there. -/
theorem agrees_eval (setting : Setting) (depth : Nat) :
    Agrees setting (Eval.eval depth) (eval (α := α) depth) := by
  induction depth with
  | zero => exact fun _ _ => .fail (accepts_self _)
  | succ depth ih =>
    intro n active env σ h e
    refine related_tick.bind fun _ _ _ => ?_
    cases e with
    | lit node value =>
      dsimp only
      split
      · exact (metered.countString σ .empty value).bind fun _ _ _ => .pure ⟨rfl, trivial⟩
      · exact .fail (accepts_self _)
    | op node code es =>
      dsimp only
      split
      · rename_i ha
        exact related_apply ih h ha
      · exact .fail (accepts_self _)

end Lexical

/-- An evaluation ends as the reference semantics has it, and leaves the same state behind. -/
theorem Eval.eval_eq_lexical (depth : Nat) (setting : Setting) (e : Expr α) :
    eval depth e setting .start = Lexical.eval depth [] [] e setting .start := by
  have h : (Lexical.reference setting).Agree _ _ (eval depth e setting .start)
      (Lexical.eval depth [] [] e setting .start) :=
    Lexical.agrees_eval setting depth .nil e .start .start ⟨rfl, rfl, rfl, Nat.zero_le _⟩
  generalize eval depth e setting .start = r at h
  generalize Lexical.eval depth [] [] e setting .start = t at h
  cases h with
  | ok hv hq => rw [hv.1, State.ext_bare (hq.1.trans hq.2.1.symm) hq.2.2.1]
  | error hb hq => rw [hb, State.ext_bare (hq.1.trans hq.2.1.symm) hq.2.2.1]
  | waived hw => exact hw.elim

/-- **Evaluation is lexically scoped.** With any limits and host calls, an expression has the
outcome that the reference semantics gives it, with the same counters, the same host calls and the
same trace; and in whatever depth of nesting both are stopped, they are stopped in the same
state. -/
theorem Expr.run_eq_lexical (setting : Setting) (e : Expr α) :
    e.run setting = Lexical.run setting e ∧
      ∀ depth, Eval.eval depth e setting .start = Lexical.eval depth [] [] e setting .start := by
  refine ⟨?_, fun depth => Eval.eval_eq_lexical depth setting e⟩
  rw [Expr.run, Expr.runWithin, Lexical.run, Eval.eval_eq_lexical]

end OpTree
