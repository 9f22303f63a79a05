import OpTree.Proofs.Fold.Frames
import OpTree.Proofs.Fold.Savings

/-!
# Folded expressions do what the expressions do

The evaluation of an expression is compared with that of what it folds to, inside of scopes that
mirror each other. The folded expression does less: a part that has become a literal is not
evaluated any more, a scope that has become its body is not entered, and dead operands of a
condition are gone. So there are rules for steps that only the one side takes, and a folded part
comes with two facts (`Replaces`): visiting it agrees with visiting the part, and where it is a
literal the part is sure to have that value and to leave everything as it is.

Main statement: `foldable`, by induction along the visits of the expression.
-/

namespace OpTree

open Comparison Eval Fold List

variable {α β : Type}

/-! ### The comparison -/

/-- The evaluation of an expression, beside that of what it folds to. -/
def folding (α β : Type) (host : Host) (executor : Executor) : Comparison α β where
  left := ⟨.unlimited, host, executor⟩
  right := ⟨.unlimited, host, executor⟩
  waives _ := False
  blames err err' := (err.map fun _ => ()) = err'.map fun _ => ()
  value v := v.isValid
  value_of_isValid _ hv := hv

namespace Fold

variable {host : Host} {executor : Executor} {known : α → Bool} {σ : ScopeStack α}
  {τ : ScopeStack β} {a : α} {b : β} {e : Expr α} {f : Expr β} {s : Scalar} {calls : List α}

private theorem limits_left : (folding α β host executor).left.limits = .unlimited := rfl

private theorem limits_right : (folding α β host executor).right.limits = .unlimited := rfl

private theorem accepts (err : EvalError Unit) (a : α) (b : β) :
    (folding α β host executor).Accepts (err.map fun _ => a) (err.map fun _ => b) :=
  .inr (by cases err <;> rfl)

private theorem related_checkLimits :
    (folding α β host executor).Related (At (Saves known) σ τ) (At (Saves known) σ τ)
      (fun _ _ => True) checkLimits checkLimits :=
  Comparison.related_checkLimits fun _ _ _ => .inl ⟨rfl, rfl⟩

private theorem metered : (folding α β host executor).Metered (Saves known) :=
  .of_checkLimits (fun _ _ => related_checkLimits) fun hf h => h.counts hf

private theorem hosted : (folding α β host executor).Hosted (Saves known) where
  host := rfl
  executor := rfl
  evaluationTime := rfl
  callTime := rfl
  history h := h.history
  clock h := h.clock
  pass n h := ⟨h.history, congrArg (· + n) h.clock, h.depth, h.stats⟩

private theorem related_tick :
    (folding α β host executor).Related (At (Saves known) σ τ) (At (Saves known) σ τ)
      (fun _ _ => True) (tick a) (tick b) :=
  Comparison.related_tick (related_checkTime rfl (fun h => absurd rfl h) nofun)
    related_checkLimits fun h => h.visited a b

/-- A node is visited on the left only. -/
private theorem settlesLeft_tick :
    (folding α β host executor).SettlesLeft (At (Saves known) σ τ) (At (Saves known) σ τ)
      (tick a) () := by
  rintro c d ⟨hc, hd, hk⟩
  have hvisited : c.Precedes (c.visited a) := .visited c a
  exact ⟨c.visited a, rfl, hc, hd,
    hk.mono_left rfl rfl (Nat.le_refl _) hvisited.stats hvisited.trace⟩

/-- A scope may be entered and left on the left alone. -/
private theorem related_inScope_left {x : EvalM α Scalar} {y : EvalM β Scalar} {frame : Frame α}
    {V : Scalar → Scalar → Prop} (hx : Forward x) (hy : Forward y)
    (h : (folding α β host executor).Related (At (Saves known) (σ.push frame) τ)
      (At (Saves known) (σ.push frame) τ) V x y) :
    (folding α β host executor).Related (At (Saves known) σ τ) (At (Saves known) σ τ) V
      (inScope frame x) y := by
  rintro c d ⟨hc, hd, hk⟩
  have hopen : Saves known (c.enterScope frame).bare d.bare :=
    hk.mono_left rfl rfl (Nat.le_succ _) (Usage.Counts.openScope.value_le c.usage)
      (List.suffix_refl _)
  have hrun := h (c.enterScope frame) d ⟨congrArg (·.push frame) hc, hd, hopen⟩
  have hx := hx (folding α β host executor).left (c.enterScope frame)
  have hy := hy (folding α β host executor).right d
  rw [inScope_apply]
  generalize x (folding α β host executor).left (c.enterScope frame) = r at hrun hx ⊢
  generalize y (folding α β host executor).right d = r' at hrun hy ⊢
  have hleave {c' : State α} {d' : State β} (hc' : (c.enterScope frame).Precedes c')
      (hd' : d.Precedes d') (h : At (Saves known) (σ.push frame) τ c' d') :
      At (Saves known) σ τ c'.leaveScope d' := by
    obtain ⟨hs, hs', hk'⟩ := h
    have hpop : c'.leaveScope.scopes = σ := by
      change c'.scopes.pop = σ
      rw [hs, ScopeStack.pop_push]
    refine ⟨hpop, hs', hk'.history, hk'.clock, ?_, hk'.stats⟩
    -- both sides are back where they were
    have hin : c'.usage.scopeDepth = c.usage.scopeDepth + 1 := hc'.depth
    have hdepth : d.usage.scopeDepth ≤ c.usage.scopeDepth := hk.depth
    change d'.usage.scopeDepth ≤ c'.usage.scopeDepth - 1
    rw [hd'.depth]
    omega
  cases hrun with
  | ok hv hq => exact .ok hv (hleave hx hy hq)
  | error he hq => exact .error he (hleave hx hy hq)
  | waived hw => exact hw.elim

/-! ### Parts that are replaced -/

/-- What folding makes of a part can stand in its place: the visits agree, and where a literal has
come out of it the part is sure to have that value. -/
structure Replaces (host : Host) (executor : Executor) (known : α → Bool) (σ : ScopeStack α)
    (τ : ScopeStack β) (e : Expr α) (f : Expr β) : Prop where
  visits : (folding α β host executor).Visits unbounded unbounded (At (Saves known) σ τ) e f
  settles : ∀ s, f.literal? = some s →
    (folding α β host executor).SettlesLeft (At (Saves known) σ τ) (At (Saves known) σ τ)
      (unbounded e) s

/-- A part with a value of its own agrees with that value. -/
private theorem visits_of_constant? (he : constant? e = some s)
    (hknown : ∀ t, s = .str t → e.TypesKnown known) (hσ : Site.Sound ⟨σ, e, calls⟩)
    (hτ : Site.Sound ⟨τ, .lit b s, []⟩) :
    (folding α β host executor).Visits unbounded unbounded (At (Saves known) σ τ) e
      (.lit b s) := by
  rintro c d ⟨hc, hd, hk⟩
  obtain ⟨c', hce, hs, hscopes, hhistory, hclock, haccounts⟩ :=
    unbounded_of_constant? he hσ limits_left hc
  have hvisited := visited_unbounded e (folding α β host executor).left c
  rw [hce] at hvisited
  rw [hce, unbounded_lit hs hτ limits_right hd]
  have hafter := (Saves.bare_iff.1 hk).constant (b := b) hvisited hhistory hclock fun t ht =>
    haccounts t known ht (hknown t ht)
  exact .ok (same_of_isValid hs) ⟨hscopes, hd, Saves.bare_iff.2 hafter⟩

/-- A part that agrees with a literal is sure to have its value. -/
private theorem settles_of_visits (hs : s.isValid) (hτ : Site.Sound ⟨τ, .lit b s, []⟩)
    (h : (folding α β host executor).Visits unbounded unbounded (At (Saves known) σ τ) e
      (.lit b s)) :
    (folding α β host executor).SettlesLeft (At (Saves known) σ τ) (At (Saves known) σ τ)
      (unbounded e) s := by
  intro c d hcd
  have hagree := h c d hcd
  have hforward := forward_unbounded (.lit b s) (folding α β host executor).right d
  rw [unbounded_lit hs hτ limits_right hcd.2.1] at hagree hforward
  generalize unbounded e (folding α β host executor).left c = r at hagree
  cases hagree with
  | ok hv hq =>
    obtain ⟨hc, -, hk⟩ := hq
    obtain ⟨rfl, -⟩ := hv
    -- on the right nothing has been done yet
    have hbefore := (Saves.bare_iff.1 hk).mono_right hforward rfl rfl
    exact ⟨_, rfl, hc, hcd.2.1, Saves.bare_iff.2 hbefore⟩
  | waived hw => exact hw.elim

variable {es : List (Expr α)} {fs : List (Expr β)}

/-- What is true of the operands one by one is true of all of them. -/
private theorem forall₂_replaces (h : Forall₂ Folds es fs)
    (hr : ∀ e ∈ es, ∀ f, Folds e f → Replaces host executor known σ τ e f) :
    Forall₂ (Replaces host executor known σ τ) es fs := by
  have hmem : Forall₂ (fun e f => e ∈ es ∧ Folds e f) es fs :=
    (List.forall₂_and_left es fs).2 ⟨fun _ he => he, h⟩
  exact hmem.imp fun e f hef => hr e hef.1 f hef.2

/-! ### Conditions -/

/-- A condition is left with an odd number of operands. -/
theorem length_prune : ∀ fs : List (Expr β), fs.length % 2 = 1 → (prune fs).length % 2 = 1
  | [_], _ => rfl
  | guard :: value :: rest, h => by
    have hrest : rest.length % 2 = 1 := by
      simp only [List.length_cons] at h
      omega
    have ih := length_prune rest hrest
    rw [prune]
    split
    · split
      · rfl
      · exact ih
    · simp only [List.length_cons]
      omega

/-- **Conditions** agree with what is left of them. -/
theorem related_choose_prune (h : Forall₂ (Replaces host executor known σ τ) es fs) :
    (folding α β host executor).Related (At (Saves known) σ τ) (At (Saves known) σ τ)
      (folding α β host executor).Same (choose unbounded es) (choose unbounded (prune fs)) := by
  fun_induction prune fs generalizing es with
  | case1 guard' value' rest' s hl hs =>
    rcases h with _ | ⟨hg, _ | ⟨hv, -⟩⟩
    refine .bind_left (hg.settles s hl) ?_
    rw [if_pos hs]
    exact hv.visits
  | case2 guard' value' rest' s hl hs ih =>
    rcases h with _ | ⟨hg, _ | ⟨-, hr⟩⟩
    refine .bind_left (hg.settles s hl) ?_
    rw [if_neg hs]
    exact ih hr
  | case3 guard' value' rest' hl ih =>
    rcases h with _ | ⟨hg, _ | ⟨hv, hr⟩⟩
    refine hg.visits.bind ?_
    rintro v _ ⟨rfl, -⟩
    split
    · exact hv.visits
    · exact ih hr
  | case4 fs hfs =>
    exact related_choose (h.imp fun _ _ h => h.visits)

/-! ### Names -/

/-- The names agree, also where a computed one has been folded. -/
theorem names_of_folds {code : Operator} (h : Folds e f)
    (hr : e.name? = none → Replaces host executor known σ τ e f) :
    (folding α β host executor).Names unbounded unbounded a b code (At (Saves known) σ τ) e f := by
  cases he : e.name? with
  | some name => exact names_of_literal he (h.name?_eq he)
  | none =>
    cases hf : f.name? with
    | none => exact names_of_computed he hf (.inr rfl) (hr he).visits
    | some name =>
      have hl : f.literal? = some (.str name) := by
        cases f with
        | lit _ s =>
          cases s <;> cases hf
          rfl
        | op => cases hf
      -- the name is computed on the left and spelled out on the right
      rw [Names, nameOf, nameOf, he, hf]
      exact .bind_left ((hr he).settles _ hl) (.pure ⟨rfl, fun n hn => by simp [he] at hn⟩)

/-! ### Operators -/

/-- At a site, everything that its expression can fold to can stand in its place, inside of all
scopes that mirror those of the site. -/
def Foldable (β : Type) (host : Host) (executor : Executor) (known : α → Bool)
    (κ : Site α) : Prop :=
  ∀ (f : Expr β) (τ : ScopeStack β), Regular κ.expr → Folds κ.expr f → κ.scopes.Mirrors τ →
    Replaces host executor known κ.scopes τ κ.expr f

section

variable {n : Expr α} {m : Expr β} {args : List (Expr α)} {args' : List (Expr β)}

/-- A folded lookup finds the same constant. -/
private theorem related_lookUp (hs : Site.Sound ⟨σ, .op a .lookup [e], calls⟩)
    (hm : σ.Mirrors τ) (he : Regular e) (h : Folds e f)
    (hv : ∀ κ, Site.Leads ⟨σ, .op a .lookup [e], calls⟩ κ → Foldable β host executor known κ) :
    (folding α β host executor).Related (At (Saves known) σ τ) (At (Saves known) σ τ)
      (folding α β host executor).Same (lookUp unbounded a e) (lookUp unbounded b f) := by
  have hrep (hn : e.name? = none) : Replaces host executor known σ τ e f :=
    hv _ (.name (.inl rfl) hn) f τ he h hm
  refine Comparison.related_lookUp metered (names_of_folds h hrep) ?_ ?_
  · intro name v _ hfind
    obtain ⟨frame, hf, hfv⟩ := List.exists_of_findSome?_eq_some hfind
    exact ⟨hm.constant?_eq.trans hfind, hs.constants frame hf name v hfv⟩
  · intro name _ hfind
    exact .inr ⟨hm.constant?_eq.trans hfind, rfl⟩

/-- A folded binding declares the same name, and a constant with the same value. -/
private theorem related_declare {frame : Frame α} {frame' : Frame β} {rest : List (Expr α)}
    {v : Expr α} {w : Expr β} {name : String}
    (hb : Binds es frame (n :: v :: rest)) (hn : n.MayName name) (hf : frame.Mirrors frame')
    (hm : σ.Mirrors τ) (hvalue : Regular.Value v) (h : Folds v w)
    (hv : ∀ κ, Site.Leads ⟨σ, .op a .scope es, calls⟩ κ → Foldable β host executor known κ) :
    (folding α β host executor).Related (At (Saves known) σ τ) (At (Saves known) σ τ)
      (fun new new' => new.Mirrors new' ∧ Binds es new rest)
      (declare unbounded a frame name v) (declare unbounded b frame' name w) := by
  cases hl : v.isLambda with
  | false =>
    have hreg : Regular v := hvalue.1 hl
    have hw : w.isLambda = false := h.isLambda_eq_false hreg
    have hrep : Replaces host executor known σ τ v w := hv _ (.bindingValue hb hl) w τ hreg h hm
    refine related_declare_constant hl hw hrep.visits hf.constants ?_ fun _ => .inr rfl
    intro x new hx hnew
    refine ⟨?_, .constant hb hn hl hx hnew⟩
    obtain ⟨-, rfl⟩ := Frame.bindConstant?_eq_some.1 hnew
    exact ⟨rfl, hf.lambdas⟩
  | true =>
    -- a lambda node stays one, and is declared without a visit
    match v, hl, hb with
    | .op label .lambda ps, _, hb =>
      obtain ⟨l, hdecl, hbody⟩ := hvalue.2 label ps rfl
      obtain ⟨label', qs, rfl, hqs⟩ := h.of_lambda
      refine related_declare_lambda ?_ fun err herr => nomatch hdecl.symm.trans herr
      intro l' hl'
      obtain rfl : l = l' := Except.ok.inj (hdecl.symm.trans hl')
      obtain ⟨m, hm', hlm⟩ := Lambda.exists_declare_of_folds hdecl hqs hbody
      refine ⟨m, hm', ?_⟩
      rcases hf.bindLambda?_cases hlm name with ⟨h, h'⟩ | ⟨new, new', h, h', hnew⟩ <;> rw [h, h']
      · exact .inr rfl
      · exact ⟨hnew, .lambda hb hn hdecl h⟩

/-- A folded scope has the value of the scope. -/
private theorem related_evalScope (hm : σ.Mirrors τ) (he : Regular (.op a .scope es))
    (h : Forall₂ Folds es fs)
    (hv : ∀ κ, Site.Leads ⟨σ, .op a .scope es, calls⟩ κ → Foldable β host executor known κ) :
    (folding α β host executor).Related (At (Saves known) σ τ) (At (Saves known) σ τ)
      (folding α β host executor).Same (evalScope unbounded a .empty es)
      (evalScope unbounded b .empty fs) := by
  -- the frames mirror each other, and what is left of the operands is folded on the right
  refine Comparison.related_evalScope (J := fun frame frame' rest rest' =>
    frame.Mirrors frame' ∧ Binds es frame rest ∧ Regular.Bindings rest ∧ Forall₂ Folds rest rest')
    metered ?_ es fs .empty .empty ⟨.of_constants rfl rfl rfl, .start, he.of_scope, h⟩
  rintro frame frame' rest rest' ⟨hf, hb, hreg, h⟩
  match rest, rest', hb, hreg, h with
  | [e], [f], hb, hreg, .cons h _ =>
    have hrep : Replaces host executor known (σ.push frame) (τ.push frame') e f :=
      hv _ (.scopeBody hb) f _ hreg h (hm.push hf)
    exact .body hrep.visits
  | n :: v :: rest, m :: w :: rest', hb, ⟨hn, hvalue, hreg⟩, .cons h (.cons h' hrest) =>
    have hrep (hname : n.name? = none) : Replaces host executor known σ τ n m :=
      hv _ (.bindingName hb hname) m τ hn h hm
    refine .binding (names_of_folds h hrep) ?_
    intro name hname
    refine (related_declare hb hname hf hm hvalue h' hv).imp ?_
    exact fun new new' hnew => ⟨hnew.1, hnew.2, hreg, hrest⟩

/-- A folded call is one of the folded lambda, or of the host with the same arguments. -/
private theorem related_evalCall (hs : Site.Sound ⟨σ, .op a .call (n :: args), calls⟩)
    (hm : σ.Mirrors τ) (hn : Regular n) (hreg : ∀ e ∈ args, Regular e) (h : Folds n m)
    (hargs : Forall₂ Folds args args')
    (hv : ∀ κ, Site.Leads ⟨σ, .op a .call (n :: args), calls⟩ κ →
      Foldable β host executor known κ) :
    (folding α β host executor).Related (At (Saves known) σ τ) (At (Saves known) σ τ)
      (folding α β host executor).Same (evalCall unbounded a n args)
      (evalCall unbounded b m args') := by
  have hrep (hname : n.name? = none) : Replaces host executor known σ τ n m :=
    hv _ (.name (.inr rfl) hname) m τ hn h hm
  refine Comparison.related_evalCall (names_of_folds h hrep) ?_ ?_
  · intro name depth l hname hl
    obtain ⟨frame, hf, hfl⟩ := ScopeStack.exists_mem_of_lambda? hl
    have hnodup : l.params.Nodup := hs.lambdas frame hf name l hfl
    obtain ⟨depth', l', hl', hlm, hmark, hnarrow⟩ := hm.lambda? hl
    refine ⟨depth', l', hl', related_callLambda metered hl hl' hlm.params hnodup hlm.busy
      hargs.length_eq (fun _ => .inr rfl) (fun _ => .inr rfl) (fun _ _ _ hk => hk.note _ _)
      (fun hk => hk.note _ _) ?_ ?_⟩
    · intro hlen hb
      refine (forall₂_replaces hargs fun e he f hf => ?_).imp fun _ _ h => h.visits
      exact hv _ (.argument hname hl hb hlen he) f _ (hreg e he) hf hmark
    · intro frame frame' hlen hb hp
      have hparams : IsParamFrame l.params frame := ⟨hp.lambdas, hp.names, hp.value⟩
      have hframe : frame.Mirrors frame' := .of_constants hp.constants hp.lambdas hp.lambdas'
      have hrep := hv _ (.lambdaBody hname hl hb hlen hparams) l'.body _ hlm.regular hlm.body
        (hnarrow.push hframe)
      exact hrep.visits
  · intro name hname hl
    refine .inr ⟨hm.lambda?_eq_none hl,
      related_callHost metered hosted ?_ (fun hk => hk.note _ _) ?_ ?_⟩
    · exact fun err _ => accepts err a b
    · intro c d values _ _ hk
      exact ⟨congrArg _ hk.history, hk.clock, hk.depth, hk.stats⟩
    · intro _
      refine (forall₂_replaces hargs fun e he f hf => ?_).imp fun _ _ h => h.visits
      exact hv _ (.hostArgument hname hl he) f τ (hreg e he) hf hm

/-- The operands of a plain operator are replaced in the same scopes. -/
private theorem replaces_operands {code : Operator} (hp : code.isPlain) (hm : σ.Mirrors τ)
    (he : Regular (.op a code es)) (h : Forall₂ Folds es fs)
    (hv : ∀ κ, Site.Leads ⟨σ, .op a code es, calls⟩ κ → Foldable β host executor known κ) :
    Forall₂ (Replaces host executor known σ τ) es fs := by
  have hne : code ≠ .scope := by
    rintro rfl
    cases hp
  refine forall₂_replaces h fun e hmem f hf => ?_
  exact hv _ (.operand hp hmem) f τ (he.of_mem hne e hmem) hf hm

/-- Operators agree on what their operands fold to. -/
private theorem related_apply {code : Operator} (hs : Site.Sound ⟨σ, .op a code es, calls⟩)
    (hm : σ.Mirrors τ) (he : Regular (.op a code es)) (h : Forall₂ Folds es fs)
    (hv : ∀ κ, Site.Leads ⟨σ, .op a code es, calls⟩ κ → Foldable β host executor known κ) :
    (folding α β host executor).Related (At (Saves known) σ τ) (At (Saves known) σ τ)
      (folding α β host executor).Same (apply unbounded a code es) (apply unbounded b code fs) := by
  have ha := he.arity
  rcases code.isPlain_or with hp | rfl | rfl | rfl | rfl
  · refine Comparison.related_apply hp ha (fun err _ => accepts err a b) ?_
    exact (replaces_operands hp hm he h hv).imp fun _ _ h => h.visits
  · cases h with
    | nil => cases ha
    | cons h hargs =>
      have hreg := List.forall_mem_cons.1 (he.of_mem (by decide))
      exact related_evalCall hs hm hreg.1 hreg.2 h hargs hv
  · cases h with
    | nil => cases ha
    | cons h hrest =>
      cases hrest with
      | nil => exact related_lookUp hs hm (he.of_mem (by decide) _ List.mem_cons_self) h hv
      | cons => cases ha
  · exact related_evalScope hm he h hv
  · cases he.isLambda_eq_false

end

/-! ### Expressions -/

/-- **One step.** -/
private theorem visits_of_folds {κ : Site α} (hs : κ.Sound) (hreg : Regular κ.expr)
    (hknown : FoldedKnown known κ.expr) (h : Folds κ.expr f) (hm : κ.scopes.Mirrors τ)
    (hv : constant? κ.expr = none → ∀ κ', κ.Leads κ' → Foldable β host executor known κ') :
    (folding α β host executor).Visits unbounded unbounded (At (Saves known) κ.scopes τ) κ.expr
      f := by
  obtain ⟨σ, e, calls⟩ := κ
  have hs' : Site.Sound ⟨τ, f, []⟩ := hm.sound hs
  -- only an operator that stays takes a step on both sides
  cases h with
  | @lit a b s =>
    have hvalid : s.isValid := hreg.finite s (by simp [Expr.literals])
    exact visits_of_constant? (constant?_lit hvalid) (fun _ _ => nofun) hs hs'
  | constant hc =>
    exact visits_of_constant? hc (fun t ht => hknown.of_constant? (ht ▸ hc)) hs hs'
  | @operator a code es b fs hc _ _ h =>
    refine Site.related_unbounded_left hs (Site.related_unbounded_right hs' ?_)
    refine related_operator h.length_eq related_tick ?_ fun _ => ?_
    · exact fun hbad => absurd hreg.arity (by simp [hbad])
    · exact related_apply hs hm hreg h (hv hc)
  | @scope a e _ hc h =>
    -- the frame that is pushed on the left has no counterpart, and is skipped
    have hrep : Replaces host executor known (σ.push .empty) τ e f :=
      hv hc _ (.scopeBody .start) f τ hreg.of_scope h hm.push_empty
    refine Site.related_unbounded_left hs (.bind_left settlesLeft_tick ?_)
    exact related_inScope_left (forward_unbounded e) (forward_unbounded f) hrep.visits
  | @condition a es b fs hc h _ =>
    -- what is pruned comes in pairs, so that the arity is still right
    have hodd : fs.length % 2 = 1 := h.length_eq ▸ beq_iff_eq.1 hreg.arity
    have hlive : (Operator.condition.arity.accepts (prune fs).length) = true :=
      beq_iff_eq.2 (length_prune fs hodd)
    refine Site.related_unbounded_left hs (Site.related_unbounded_right hs'
      (related_tick.bind fun _ _ _ => ?_))
    dsimp only
    rw [if_pos hreg.arity, if_pos hlive]
    exact related_choose_prune (replaces_operands rfl hm hreg h (hv hc))
  | @choice a es f fs hc h hp =>
    have hchoose := related_choose_prune (replaces_operands rfl hm hreg h (hv hc))
    rw [hp] at hchoose
    refine Site.related_unbounded_left hs (.bind_left settlesLeft_tick ?_)
    dsimp only
    rw [if_pos hreg.arity]
    exact hchoose

/-- **Folding** gives what can stand in the place of an expression, inside of all scopes that mirror
those around it. -/
theorem foldable (host : Host) (executor : Executor) (κ : Site α)
    (hknown : κ.Everywhere (FoldedKnown known)) : κ.Sound → Foldable β host executor known κ := by
  -- the folded expression makes fewer visits, so the induction follows those of the expression
  induction κ using Site.leads_wellFounded.induction with
  | _ κ ih =>
    intro hs f τ hreg h hm
    have hvisits := visits_of_folds hs hreg hknown.expr h hm fun hc κ' hκ' => by
      refine ih κ' hκ' (hκ'.everywhere_of_operands hknown ?_ ?_) (hκ'.sound hs)
      · intro a code es he
        exact (he ▸ hknown.expr : FoldedKnown known (.op a code es)).of_mem (he ▸ hc)
      · exact fun label ps hlambda => hlambda.of_mem constant?_lambda
    refine ⟨hvisits, fun s hl => ?_⟩
    -- a literal is valid, since it has been spelled out or computed
    cases f with
    | lit b t =>
      obtain rfl : t = s := Option.some.inj hl
      exact settles_of_visits (h.isValid hreg.finite) (hm.sound hs) hvisits
    | op => cases hl

end Fold

end OpTree
