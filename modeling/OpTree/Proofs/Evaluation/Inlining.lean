import OpTree.Proofs.Evaluation.Validity

/-!
# Calls of lambdas as scopes

A call of a lambda can be replaced by a scope that declares the arguments under the names of the
parameters and has the body of the lambda for its own. This is so if the innermost frame declares
the lambda, since then the body sees the same frames in both places. There are two differences.
While the call is in progress the lambda is busy. This shows only in calls of that lambda, and the
evaluation that makes one fails; so two evaluations are compared of which the left-hand one has more
busy lambdas (`ScopeStack.Frees`), and nothing is claimed once a busy lambda is called. And the call
counts a variable when its argument has a value, the scope before it evaluates the argument. In
between the scope is ahead of the call by one variable (`State.Ahead`), and if the argument fails
then it stays ahead; so the two are compared step by step in such a way that the states that they
leave matter only if there are values (`Follows`).

Main statement: `Eval.eval_letIn_of_call`.
-/

namespace OpTree

open Comparison Eval List

variable {α γ δ ε ζ : Type}

namespace Expr

/-- The operands by which a scope declares values under names. -/
def declarations (names values : List (Expr α)) : List (Expr α) :=
  (names.zip values).flatMap fun pair => [pair.1, pair.2]

theorem declarations_cons (n v : Expr α) (names values : List (Expr α)) :
    declarations (n :: names) (v :: values) = n :: v :: declarations names values := rfl

/-- A declaration has two operands. -/
theorem length_declarations (names values : List (Expr α)) :
    (declarations names values).length = 2 * (names.zip values).length := by
  simp [declarations, List.length_flatMap, mul_comm]

/-- The scope that declares values under names, and evaluates a body. -/
def letIn (node : α) (names values : List (Expr α)) (body : Expr α) : Expr α :=
  .op node .scope (declarations names values ++ [body])

end Expr

/-! ### Fewer busy lambdas -/

/-- The frames declare the same, but some lambdas that are busy in the first are free in the
second. -/
structure Frame.Frees (f g : Frame α) : Prop where
  constants : g.constants = f.constants
  lambdas : ∀ name, g.lambdas.find? name = f.lambdas.find? name ∨
    ∃ l, f.lambdas.find? name = some l ∧ l.busy ∧
      g.lambdas.find? name = some { l with busy := false }

namespace Frame.Frees

variable {f g : Frame α} {name : String} {l : Lambda α}

theorem refl (f : Frame α) : f.Frees f :=
  ⟨rfl, fun _ => .inl rfl⟩

/-- A lambda that is marked on both sides is busy on both sides, whatever it was before. -/
theorem mark (h : f.Frees g) (name : String) : (f.mark name true).Frees (g.mark name true) := by
  refine ⟨h.constants, fun other => ?_⟩
  rw [find?_mark, find?_mark]
  split
  · rcases h.lambdas name with heq | ⟨l, hl, -, hm⟩
    · exact .inl (by rw [heq])
    · exact .inl (by rw [hl, hm]; rfl)
  · exact h.lambdas other

/-- What a mark makes busy was free without it. -/
theorem of_mark (hl : f.lambdas.find? name = some l) (hb : l.busy = false) :
    (f.mark name true).Frees f := by
  refine ⟨rfl, fun other => ?_⟩
  rw [find?_mark]
  split
  · rename_i heq
    refine .inr ⟨{ l with busy := true }, by rw [hl]; rfl, rfl, ?_⟩
    rw [heq, hl, ← hb]
  · exact .inl rfl

end Frame.Frees

/-- The visible frames declare the same, but some lambdas that are busy on the left are free on the
right. -/
def ScopeStack.Frees (σ τ : ScopeStack α) : Prop :=
  Forall₂ Frame.Frees σ.visible τ.visible

namespace ScopeStack.Frees

variable {σ τ : ScopeStack α} {name : String} {depth : Nat} {l : Lambda α} {frame : Frame α}
  {outer : List (Frame α)}

theorem push (h : σ.Frees τ) (frame : Frame α) : (σ.push frame).Frees (τ.push frame) :=
  .cons (.refl frame) h

/-- Constants are not busy. -/
theorem constant? (h : σ.Frees τ) : τ.constant? name = σ.constant? name := by
  have key {fs gs : List (Frame α)} (h : Forall₂ Frame.Frees fs gs) :
      gs.findSome? (fun f => f.constants.find? name) =
        fs.findSome? fun f => f.constants.find? name := by
    induction h with
    | nil => rfl
    | cons hf _ ih => rw [List.findSome?_cons, List.findSome?_cons, hf.constants, ih]
  exact key h

/-- What is found is the same, or it is a lambda that is busy on the left only. -/
private theorem lambda?_eq_or (h : σ.Frees τ) (name : String) :
    τ.lambda? name = σ.lambda? name ∨ ∃ depth l, σ.lambda? name = some (depth, l) ∧ l.busy ∧
      τ.lambda? name = some (depth, { l with busy := false }) := by
  have key {fs gs : List (Frame α)} (h : Forall₂ Frame.Frees fs gs) :
      lambdaIn? name gs = lambdaIn? name fs ∨ ∃ depth l, lambdaIn? name fs = some (depth, l) ∧
        l.busy ∧ lambdaIn? name gs = some (depth, { l with busy := false }) := by
    induction h with
    | nil => exact .inl rfl
    | @cons f g fs gs hf h ih =>
      rw [lambdaIn?, lambdaIn?, ← h.length_eq]
      rcases hf.lambdas name with heq | ⟨l, hl, hb, hm⟩
      · rw [heq]
        cases f.lambdas.find? name with
        | none => exact ih
        | some l => exact .inl rfl
      · rw [hl, hm]
        exact .inr ⟨_, l, rfl, hb, rfl⟩
  exact key h

/-- A lambda is found in both, and may be free in the second where it is busy in the first. -/
theorem lambda? (h : σ.Frees τ) (hl : σ.lambda? name = some (depth, l)) :
    τ.lambda? name = some (depth, l) ∨
      l.busy ∧ τ.lambda? name = some (depth, { l with busy := false }) := by
  rcases h.lambda?_eq_or name with heq | ⟨depth', m, hm, hb, hτ⟩
  · exact .inl (heq.trans hl)
  · cases hl.symm.trans hm
    exact .inr ⟨hb, hτ⟩

/-- What is no lambda in the first is none in the second. -/
theorem lambda?_eq_none (h : σ.Frees τ) (hl : σ.lambda? name = none) : τ.lambda? name = none := by
  rcases h.lambda?_eq_or name with heq | ⟨depth, l, hm, -⟩
  · exact heq.trans hl
  · cases hl.symm.trans hm

theorem mark (h : σ.Frees τ) (depth : Nat) (name : String) :
    (σ.mark depth name true).Frees (τ.mark depth name true) := by
  have key {fs gs : List (Frame α)} (h : Forall₂ Frame.Frees fs gs) : ∀ i,
      Forall₂ Frame.Frees (fs.modify i (·.mark name true)) (gs.modify i (·.mark name true)) := by
    induction h with
    | nil =>
      intro i
      cases i <;> exact .nil
    | cons hf h ih =>
      intro i
      cases i with
      | zero => exact .cons (hf.mark name) h
      | succ i => exact .cons hf (ih i)
  have hlen : τ.visible.length = σ.visible.length := h.length_eq.symm
  change Forall₂ Frame.Frees (σ.visible.modify (σ.visible.length - depth) (·.mark name true))
    (τ.visible.modify (τ.visible.length - depth) (·.mark name true))
  rw [hlen]
  exact key h _

theorem narrow (h : σ.Frees τ) (depth : Nat) : (σ.narrow depth).Frees (τ.narrow depth) := by
  have hlen : τ.visible.length = σ.visible.length := h.length_eq.symm
  change Forall₂ Frame.Frees (σ.visible.drop (σ.visible.length - depth))
    (τ.visible.drop (τ.visible.length - depth))
  rw [hlen]
  exact forall₂_drop _ h

/-- A lambda of the innermost frame is called: nothing is hidden from its body, and it is busy. -/
theorem of_innermost (hσ : σ.visible = frame :: outer) (hl : frame.lambdas.find? name = some l)
    (hb : l.busy = false) :
    (σ.mark (outer.length + 1) name true).Frees σ ∧
      ((σ.mark (outer.length + 1) name true).narrow (outer.length + 1)).Frees σ := by
  have hmark : (σ.mark (outer.length + 1) name true).visible = frame.mark name true :: outer :=
    visible_mark (show σ.visible = [] ++ frame :: outer from hσ) rfl
  have hframes : Forall₂ Frame.Frees (frame.mark name true :: outer) σ.visible := by
    rw [hσ]
    exact .cons (.of_mark hl hb) (forall₂_same.2 fun f _ => .refl f)
  constructor
  · rw [Frees, hmark]
    exact hframes
  · have hnarrow : ((σ.mark (outer.length + 1) name true).narrow (outer.length + 1)).visible =
        frame.mark name true :: outer :=
      visible_narrow (show _ = [] ++ frame.mark name true :: outer from hmark) rfl
    rw [Frees, hnarrow]
    exact hframes

end ScopeStack.Frees

/-! ### The comparison -/

/-- The usage with some more variables counted. -/
def Usage.withVars (usage : Usage) (more : Nat) : Usage :=
  { usage with stats.varCount := usage.stats.varCount + more }

/-- It does not matter when the variables are counted. -/
theorem Usage.Counts.withVars {f : Usage → Usage} (hf : Usage.Counts f) (usage : Usage)
    (more : Nat) : f (usage.withVars more) = (f usage).withVars more := by
  cases hf with
  | op | string | openScope | closeScope => rfl
  | var =>
    simp only [Usage.countVar, Usage.withVars, Usage.mk.injEq, Stats.mk.injEq, and_true, true_and]
    exact Nat.add_right_comm ..

/-- The right-hand evaluation has counted some more variables than the left-hand one. -/
structure State.Ahead (more : Nat) (c d : State α) : Prop where
  history : d.history = c.history
  clock : d.clock = c.clock
  usage : d.usage = c.usage.withVars more

/-- Counting on both sides keeps the difference in variables. -/
theorem State.Ahead.counts {more : Nat} {c d : State α} (h : c.Ahead more d) {f : Usage → Usage}
    (hf : Usage.Counts f) :
    State.Ahead more { c with usage := f c.usage } { d with usage := f d.usage } :=
  ⟨h.history, h.clock, by rw [← hf.withVars, ← h.usage]⟩

/-- Two evaluations without limits, of which the left-hand one may call a busy lambda. -/
def freeing (host : Host) (executor : Executor) : Comparison α α where
  left := ⟨.unlimited, host, executor⟩
  right := ⟨.unlimited, host, executor⟩
  waives err := ∃ a name, err = .recursion a name
  blames err err' := err = err'
  value v := v.isValid
  value_of_isValid _ hv := hv

variable {host : Host} {executor : Executor} {more depth : Nat} {σ τ : ScopeStack α}

/-- The two evaluations go side by side, up to the call of a lambda that is busy on the left only.
-/
private theorem parallel_freeing : (freeing host executor : Comparison α α).Parallel
    (fun _ => True) (fun _ => State.Ahead more) ScopeStack.Frees where
  valid hv := hv
  constants h hv := h.constant?.trans hv
  lambdas {σ τ name depth l} h hl := by
    rcases h.lambda? hl with hτ | ⟨hb, hτ⟩
    · exact ⟨depth, l, hτ, .inl ⟨rfl, h.mark depth name, (h.mark depth name).narrow depth⟩⟩
    · exact ⟨depth, _, hτ, .inr ⟨hb, rfl, fun a => ⟨a, name, rfl⟩⟩⟩
  push frame h := h.push frame
  noConstant h hl := .inl (h.constant?.trans hl)
  noLambda h hl := .inl ⟨h.lambda?_eq_none hl, fun _ => {
    host := rfl
    executor := rfl
    evaluationTime := rfl
    callTime := rfl
    history := fun hk => hk.history.symm
    clock := fun hk => hk.clock.symm
    pass := fun n hk => ⟨hk.history, congrArg (· + n) hk.clock, hk.usage⟩ }⟩
  fault _ _ _ := .inr rfl
  -- without limits no check fails
  checks _ _ _ _ _ := ⟨fun _ _ h => .ok trivial h, fun _ _ h => .ok trivial h⟩
  counts hf h := h.counts hf
  visit _ _ h := ⟨h.history, h.clock, h.usage⟩
  external _ _ _ h := ⟨h.history, h.clock, h.usage⟩
  enter _ _ _ h := ⟨h.history, h.clock, h.usage⟩
  leave h := ⟨h.history, h.clock, h.usage⟩
  invoke _ _ _ _ h := ⟨congrArg (_ :: ·) h.history, h.clock, h.usage⟩

/-- **Busy lambdas show only where they are called.** With fewer of them an expression does what it
does with more, unless a busy one is called. -/
theorem related_freeing (depth : Nat) {κ : Site α} (hs : κ.Sound) (hX : κ.scopes.Frees τ) :
    (freeing host executor).Visits (eval depth) (eval depth) (At (State.Ahead more) κ.scopes τ)
      κ.expr κ.expr := by
  induction depth generalizing κ τ with
  | zero => exact .fail (.inr rfl)
  | succ depth ih =>
    refine parallel_freeing.related_evalNode trivial hs hX ?_
    exact fun κ' τ' h hX' => ih (h.sound hs) hX'

/-! ### Steps that arrive at the same -/

/-- The steps on the right end as those on the left do: with a value, in states that are related, or
with the same error, after the same host calls. Nothing is claimed if a busy lambda is called. -/
inductive Follow (V : γ → δ → Prop) (Q : State α → State α → Prop) :
    Except (EvalError α) γ × State α → Except (EvalError α) δ × State α → Prop
  | ok {a b c d} : V a b → Q c d → Follow V Q (.ok a, c) (.ok b, d)
  | error {err c d} : d.history = c.history → Follow V Q (.error err, c) (.error err, d)
  | recursion {a name c r} : Follow V Q (.error (.recursion a name), c) r

/-- Started in states that `P` relates, the steps on the right end as those on the left do. -/
def Follows (setting : Setting) (P Q : State α → State α → Prop) (V : γ → δ → Prop)
    (x : EvalM α γ) (y : EvalM α δ) : Prop :=
  ∀ c d, P c d → Follow V Q (x setting c) (y setting d)

namespace Follows

variable {setting : Setting} {P Q R : State α → State α → Prop} {V : γ → δ → Prop}
  {W : ε → ζ → Prop} {x : EvalM α γ} {y : EvalM α δ}

/-- Evaluations that go side by side end alike, unless the left one stops at a busy lambda. -/
theorem of_related (h : (freeing host executor).Related P Q V x y)
    (hQ : ∀ c d, Q c d → d.history = c.history) :
    Follows ⟨.unlimited, host, executor⟩ P Q V x y := by
  intro c d hp
  have hrun := h c d hp
  change (freeing host executor).Agree V Q (x ⟨.unlimited, host, executor⟩ c)
    (y ⟨.unlimited, host, executor⟩ d) at hrun
  generalize x ⟨.unlimited, host, executor⟩ c = r at hrun ⊢
  generalize y ⟨.unlimited, host, executor⟩ d = t at hrun ⊢
  cases hrun with
  | ok hv hq => exact .ok hv hq
  | error he hq =>
    cases he
    exact .error (hQ _ _ hq)
  | waived hw =>
    obtain ⟨a, name, rfl⟩ := hw
    exact .recursion

/-- One step after the other. -/
theorem bind {k : γ → EvalM α ε} {l : δ → EvalM α ζ} (h : Follows setting P R V x y)
    (hk : ∀ a b, V a b → Follows setting R Q W (k a) (l b)) :
    Follows setting P Q W (x >>= k) (y >>= l) := by
  intro c d hp
  rw [EvalM.bind_apply, EvalM.bind_apply]
  have hrun := h c d hp
  generalize x setting c = r at hrun ⊢
  generalize y setting d = t at hrun ⊢
  cases hrun with
  | ok hv hr => exact hk _ _ hv _ _ hr
  | error hh => exact .error hh
  | recursion => exact .recursion

/-- The state is changed on the left only. -/
theorem modify_bind_left {f : State α → State α} {k : Unit → EvalM α γ}
    (hf : ∀ c d, P c d → R (f c) d) (h : Follows setting R Q V (k ()) y) :
    Follows setting P Q V (EvalM.modify f >>= k) y :=
  fun c d hp => h (f c) d (hf c d hp)

/-- The state is changed once more on the left, whatever the steps have ended with. -/
theorem andFinally_left {f : State α → State α} (h : Follows setting P R V x y)
    (hf : ∀ c d, R c d → Q (f c) d) (hhistory : ∀ c, (f c).history = c.history) :
    Follows setting P Q V (x.andFinally f) y := by
  intro c d hp
  have hrun := h c d hp
  change Follow V Q ((x setting c).1, f (x setting c).2) (y setting d)
  generalize x setting c = r at hrun ⊢
  generalize y setting d = t at hrun ⊢
  cases hrun with
  | ok hv hr => exact .ok hv (hf _ _ hr)
  | error hh => exact .error (hh.trans (hhistory _).symm)
  | recursion => exact .recursion

end Follows

/-! ### A call beside a scope -/

section

variable {a b : α} {name p : String} {n arg body : Expr α} {frame frame' : Frame α}
  {done : List String} {calls : List α} {depth' : Nat}

/-- **One parameter.** The scope declares the same constant as the call, but it counts the variable
first. -/
private theorem follows_bindNext (hs : Site.Sound ⟨σ, arg, calls⟩) (hX : σ.Frees τ)
    (hn : n.name? = some p) (harg : arg.isLambda = false) (hp : p ∉ done)
    (hf : (freeing host executor).ParamFrames done frame frame') :
    Follows ⟨.unlimited, host, executor⟩ (At (State.Ahead 0) σ τ) (At (State.Ahead 0) σ τ)
      ((freeing host executor).ParamFrames (done ++ [p])) (passNext (eval depth) a frame p arg)
      (bindNext (eval depth) b frame' n arg) := by
  rintro c d ⟨hc, hd, hk⟩
  have hscope : bindNext (eval depth) b frame' n arg ⟨.unlimited, host, executor⟩ d =
      declare (eval depth) b frame' p arg ⟨.unlimited, host, executor⟩
        { d with usage := d.usage.countVar } := by
    rw [bindNext, nameOf, hn]
    rfl
  have hahead : At (State.Ahead 1) σ τ c { d with usage := d.usage.countVar } :=
    ⟨hc, hd, hk.history, hk.clock, congrArg Usage.countVar hk.usage⟩
  have hvalue : Follows ⟨.unlimited, host, executor⟩ (At (State.Ahead 1) σ τ)
      (At (State.Ahead 1) σ τ) (freeing host executor : Comparison α α).Same (eval depth arg)
      (eval depth arg) :=
    .of_related (related_freeing depth hs hX) fun _ _ h => h.2.2.history
  rw [hscope, declare_of_not_isLambda harg]
  refine hvalue.bind ?_ c _ hahead
  rintro v _ ⟨rfl, hvalid⟩
  obtain ⟨new, new', hnew, hnew', hf'⟩ := hf.bind hp hvalid
  rw [hnew, hnew']
  -- only now does the call count the variable
  rintro c d ⟨hc, hd, hk⟩
  exact .ok hf' ⟨hc, hd, hk.history, hk.clock, hk.usage⟩

/-- **All parameters.** What comes after them on the left is followed by the body of the scope. -/
private theorem follows_evalScope {Q : State α → State α → Prop} {k : Frame α → EvalM α Scalar}
    (hX : σ.Frees τ) :
    ∀ (params : List String) (ps args : List (Expr α)) (done : List String)
      (frame frame' : Frame α), ps.map Expr.name? = params.map some →
      args.length = params.length → (∀ arg ∈ args, arg.isLambda = false) →
      (∀ arg ∈ args, Site.Sound ⟨σ, arg, calls⟩) → (done ++ params).Nodup →
      (freeing host executor).ParamFrames done frame frame' →
      (∀ new new', (freeing host executor).ParamFrames (done ++ params) new new' →
        Follows ⟨.unlimited, host, executor⟩ (At (State.Ahead 0) σ τ) Q Eq (k new)
          (inScope new' (eval depth body))) →
      Follows ⟨.unlimited, host, executor⟩ (At (State.Ahead 0) σ τ) Q Eq
        (bindParams (eval depth) a frame params args >>= k)
        (evalScope (eval depth) b frame' (Expr.declarations ps args ++ [body])) := by
  intro params
  induction params with
  | nil =>
    intro ps args done frame frame' hps hlen hargs hs hnodup hf hk
    obtain rfl : ps = [] := List.map_eq_nil_iff.1 hps
    obtain rfl := List.length_eq_zero_iff.1 hlen
    rw [List.append_nil] at hk
    exact hk frame frame' hf
  | cons p params ih =>
    intro ps args done frame frame' hps hlen hargs hs hnodup hf hk
    obtain ⟨n, ps, rfl, hn, hps⟩ := List.map_eq_cons_iff.1 hps
    cases args with
    | nil => cases hlen
    | cons arg args =>
      obtain ⟨harg, hargs⟩ := List.forall_mem_cons.1 hargs
      obtain ⟨hsarg, hs⟩ := List.forall_mem_cons.1 hs
      have hp : p ∉ done := fun hmem =>
        (List.nodup_append.1 hnodup).2.2 p hmem p List.mem_cons_self rfl
      rw [List.append_cons] at hnodup hk
      rw [bindParams_cons, bind_assoc, Expr.declarations_cons, List.cons_append, List.cons_append,
        evalScope_cons]
      exact (follows_bindNext hsarg hX hn harg hp hf).bind fun new new' hnew =>
        ih ps args (done ++ [p]) new new' hps (Nat.succ.inj hlen) hargs hs hnodup hnew hk

/-- **The body.** The call hides frames meanwhile; what is left visible are those that the scope
sees. -/
private theorem follows_body (hs : Site.Sound ⟨(σ.narrow depth').push frame, body, calls⟩)
    (hX : (σ.narrow depth').Frees τ) :
    Follows ⟨.unlimited, host, executor⟩ (At (State.Ahead 0) σ τ) (At (State.Ahead 0) σ τ) Eq
      (EvalM.modifyScopes (·.narrow depth') >>= fun _ =>
        (inScope frame (eval depth body)).andFinally fun c => { c with scopes := c.scopes.widen })
      (inScope frame (eval depth body)) := by
  have hm : (freeing host executor : Comparison α α).Metered (State.Ahead 0) :=
    .of_checkLimits (fun _ _ _ _ h => .ok trivial h) fun hf h => h.counts hf
  have hbody := (related_inScope hm (related_freeing depth hs (hX.push frame))).imp
    fun _ _ h => h.1
  refine .modify_bind_left (R := At (State.Ahead 0) (σ.narrow depth') τ) ?_
    (.andFinally_left (.of_related hbody fun _ _ h => h.2.2.history) ?_ fun _ => rfl)
  · rintro c d ⟨hc, hd, hk⟩
    exact ⟨congrArg (·.narrow depth') hc, hd, hk⟩
  · rintro c d ⟨hc, hd, hk⟩
    exact ⟨by rw [hc, ScopeStack.widen_narrow], hd, hk⟩

/-- **A call of a lambda of the innermost frame**, its name being known, beside the scope. -/
private theorem follows_callLambda {l : Lambda α} {outer : List (Frame α)} {ps args : List (Expr α)}
    (hs : Site.Sound ⟨σ, .op a .call (n :: args), calls⟩) (hσ : σ.visible = frame :: outer)
    (hn : n.name? = some name) (hl : frame.lambdas.find? name = some l)
    (hps : ps.map Expr.name? = l.params.map some) (hlen : args.length = l.params.length)
    (hargs : ∀ arg ∈ args, arg.isLambda = false) :
    Follows ⟨.unlimited, host, executor⟩ (At (State.Ahead 0) σ σ) (At (State.Ahead 0) σ σ) Eq
      (callLambda (eval depth) a name (outer.length + 1) l args)
      (evalScope (eval depth) b .empty (Expr.declarations ps args ++ [l.body])) := by
  have hfound : σ.lambda? name = some (outer.length + 1, l) :=
    ScopeStack.lambdaIn?_eq_some.2 ⟨[], frame, outer, hσ, rfl, hl, by simp⟩
  have hmay : n.MayName name := fun m hm => Option.some.inj (hm.symm.trans hn)
  have hnodup : l.params.Nodup := hs.lambdas frame (by simp [hσ]) name l hl
  rw [callLambda, if_neg (not_not.2 hlen.symm)]
  cases hb : l.busy with
  | true => exact fun _ _ _ => .recursion
  | false =>
    obtain ⟨hmark, hnarrow⟩ := ScopeStack.Frees.of_innermost hσ hl hb
    generalize hdepth : outer.length + 1 = d at hfound hmark hnarrow ⊢
    refine .modify_bind_left (R := At (State.Ahead 0) σ σ) ?_ (.modify_bind_left
      (R := At (State.Ahead 0) (σ.mark d name true) σ) ?_ (.andFinally_left
      (R := At (State.Ahead 0) (σ.mark d name true) σ) ?_ ?_ fun _ => rfl))
    · rintro c d ⟨hc, hd, hk⟩
      exact ⟨hc, hd, hk.history, hk.clock, hk.usage⟩
    · rintro c d' ⟨hc, hd, hk⟩
      exact ⟨congrArg (·.mark d name true) hc, hd, hk⟩
    · have hsargs : ∀ arg ∈ args, Site.Sound ⟨σ.mark d name true, arg, l.label :: calls⟩ :=
        fun arg harg => (Site.Leads.argument hmay hfound hb hlen.symm harg).sound hs
      refine follows_evalScope hmark l.params ps args [] .empty .empty hps hlen hargs hsargs hnodup
        .empty fun new new' hf => ?_
      obtain rfl := hf.eq
      -- the body runs inside of the frame of the parameters, on both sides
      have hp : IsParamFrame l.params new := ⟨hf.lambdas, hf.names, hf.value⟩
      have hleads : Site.Leads ⟨σ, .op a .call (n :: args), calls⟩
          ⟨((σ.mark d name true).narrow d).push new, l.body, l.label :: calls⟩ :=
        .lambdaBody hmay hfound hb hlen.symm hp
      exact follows_body (hleads.sound hs) hnarrow
    · rintro c d' ⟨hc, hd, hk⟩
      refine ⟨?_, hd, hk.history, hk.clock, hk.usage⟩
      change c.scopes.mark d name false = σ
      rw [hc, ScopeStack.mark_mark hfound hb]

/-- A call whose name is spelled out calls the lambda that is found. -/
private theorem evalCall_of_lambda? {visit : Expr α → EvalM α Scalar} {args : List (Expr α)}
    {setting : Setting} {c : State α} {l : Lambda α} (hn : n.name? = some name)
    (hl : c.scopes.lambda? name = some (depth, l)) :
    evalCall visit a n args setting c = callLambda visit a name depth l args setting c := by
  simp only [evalCall, nameOf, hn, EvalM.bind_apply, EvalM.pure_apply, EvalM.state, hl]

/-- The operands of a scope that declares values under names are accepted. -/
private theorem accepts_letIn (names values : List (Expr α)) (body : Expr α) :
    Operator.scope.arity.accepts (Expr.declarations names values ++ [body]).length := by
  refine beq_iff_eq.2 ?_
  rw [List.length_append, Expr.length_declarations, List.length_singleton]
  omega

end

namespace Eval

/-- **Calls of lambdas can be inlined.** In the scopes of a visit whose innermost frame declares a
lambda, a call of the lambda with arguments that are not lambda nodes is compared, without limits,
with the scope that declares the arguments under the names of the parameters and has the body of the
lambda. If the call has a value then the scope has the same, uses up the same and makes the same
host calls. If the call fails then the scope fails with the same error after the same host calls,
unless a lambda has been called that is busy. -/
theorem eval_letIn_of_call {setting : Setting} {e : Expr α} {v : Visit α}
    (hv : Visit.OfRun setting e v) {c : State α} (hc : c.scopes = v.state.scopes)
    {frame : Frame α} {outer : List (Frame α)} (hvisible : c.scopes.visible = frame :: outer)
    {name : String} {l : Lambda α} (hl : frame.lambdas.find? name = some l) {n : Expr α}
    (hn : n.name? = some name) {ps args : List (Expr α)}
    (hps : ps.map Expr.name? = l.params.map some) (hlen : args.length = l.params.length)
    (hargs : ∀ arg ∈ args, arg.isLambda = false) (a b : α) (host : Host) (executor : Executor)
    (depth : Nat) :
    let unlimited : Setting := ⟨.unlimited, host, executor⟩
    let call := eval depth (.op a .call (n :: args)) unlimited c
    let scope := eval depth (.letIn b ps args l.body) unlimited c
    (∀ value, call.1 = .ok value → scope.1 = .ok value ∧ scope.2.usage = call.2.usage ∧
      scope.2.history = call.2.history) ∧
    ∀ err, call.1 = .error err → (∀ node f, err ≠ .recursion node f) →
      scope.1 = .error err ∧ scope.2.history = call.2.history := by
  intro unlimited call scope
  have hs : Site.Sound ⟨c.scopes, .op a .call (n :: args), []⟩ := hv.sound.of_scopes hc
  suffices hrun : Follow Eq (At (State.Ahead 0) c.scopes c.scopes) call scope by
    generalize call = r at hrun ⊢
    generalize scope = t at hrun ⊢
    cases hrun with
    | ok hv hq =>
      obtain ⟨-, -, hk⟩ := hq
      exact ⟨fun value hvalue => ⟨hv ▸ hvalue, hk.usage, hk.history⟩, by rintro _ ⟨⟩⟩
    | error hh => exact ⟨by rintro _ ⟨⟩, fun err herr _ => ⟨herr, hh⟩⟩
    | recursion =>
      refine ⟨by rintro _ ⟨⟩, ?_⟩
      rintro _ ⟨⟩ hne
      exact absurd rfl (hne _ _)
  cases depth with
  | zero => exact .error rfl
  | succ depth =>
    have hfound : (c.visited a).scopes.lambda? name = some (outer.length + 1, l) :=
      ScopeStack.lambdaIn?_eq_some.2 ⟨[], frame, outer, hvisible, rfl, hl, by simp⟩
    have haccepts : Operator.call.arity.accepts (n :: args).length := by
      simp [Operator.arity, Arity.accepts]
    have hcall : call = callLambda (eval depth) a name (outer.length + 1) l args unlimited
        (c.visited a) := (eval_op haccepts c).trans (evalCall_of_lambda? hn hfound)
    have hscope : scope = evalScope (eval depth) b .empty (Expr.declarations ps args ++ [l.body])
        unlimited (c.visited b) := eval_op (accepts_letIn ps args l.body) c
    rw [hcall, hscope]
    exact follows_callLambda hs hvisible hn hl hps hlen hargs _ _ ⟨rfl, rfl, rfl, rfl, rfl⟩

/-- The argument of the call and the body of the lambda call another lambda of the scope. -/
theorem eval_letIn_of_call_nested :
    let host : Host := ⟨⟨⟨[]⟩⟩, none, .empty⟩
    let setting : Setting := ⟨.unlimited, host, .timed⟩
    let f : Expr Unit := .lit () (.str "f")
    let g : Expr Unit := .lit () (.str "g")
    let x : Expr Unit := .lit () (.str "x")
    let isNull : Expr Unit := .op () .isNull [.op () .lookup [x]]
    let body : Expr Unit := .op () .call [g, .op () .lookup [x]]
    let arg : Expr Unit := .op () .call [g, .lit () .null]
    let e : Expr Unit := .op () .scope
      [f, .op () .lambda [x, body], g, .op () .lambda [x, isNull], .op () .call [f, arg]]
    ∃ v, Visit.OfRun setting e v ∧ v.expr = .op () .call [f, arg] ∧
      (eval 5 (.op () .call [f, arg]) setting v.state).1 = .ok (.bool false) ∧
      (eval 5 (.letIn () [x] [arg] body) setting v.state).1 = .ok (.bool false) ∧
      (eval 5 (.letIn () [x] [arg] body) setting v.state).2.usage =
        (eval 5 (.op () .call [f, arg]) setting v.state).2.usage := by
  intro host setting f g x isNull body arg e
  let lambda : Lambda Unit := ⟨(), ["x"], body, false⟩
  let frame : Frame Unit :=
    ⟨.empty, (NameMap.empty.insert "f" lambda).insert "g" ⟨(), ["x"], isNull, false⟩⟩
  let usage : Usage := Usage.zero.countOp.countVar.countVar
  let c : State Unit := { State.start.visited () with usage := usage }
  let v : Visit Unit := ⟨14, .op () .call [f, arg], c.enterScope frame⟩
  have hdepth : e.extent.nesting = 15 := rfl
  have hmakes : Visit.Makes setting ⟨e.extent.nesting, e, .start⟩ v := by
    refine .of_fails hdepth fun visit err _ hfails => ?_
    have hrun : evalNode visit e setting .start =
        inScope frame (visit (.op () .call [f, arg])) setting c := by
      rw [evalNode_op (by decide)]
      rfl
    rw [hrun]
    exact hfails
  have hv : Visit.OfRun setting e v := .next .start hmakes
  have hvisible : v.state.scopes.visible = [frame] := rfl
  have hl : frame.lambdas.find? "f" = some lambda := rfl
  have hn : f.name? = some "f" := rfl
  have hps : [x].map Expr.name? = lambda.params.map some := rfl
  have hargs : ∀ e ∈ [arg], e.isLambda = false := List.forall_mem_singleton.2 rfl
  have hcall : (eval 5 (.op () .call [f, arg]) setting v.state).1 = .ok (.bool false) := by
    decide +kernel
  obtain ⟨hok, -⟩ :=
    eval_letIn_of_call hv rfl hvisible hl hn hps rfl hargs () () host .timed 5
  have hsetting : (⟨.unlimited, host, .timed⟩ : Setting) = setting := rfl
  rw [hsetting] at hok
  obtain ⟨hvalue, husage, -⟩ := hok (.bool false) hcall
  exact ⟨v, hv, rfl, hcall, hvalue, husage⟩

end Eval

end OpTree
