import OpTree.Proofs.Evaluation.Sites

/-!
# One expression in two runs

Two evaluations of the same expression may differ in their settings and in the scopes around it.
`Comparison.Parallel` collects what makes them agree at a node: stacks that answer alike and go on
to do so (`X`), states that stay related whatever is noted and counted (`K`, which may depend on the
calls in progress), and errors of the node itself that are accepted. A name that is found on the
right only is no harm if the left-hand run is waived there, and neither is a lambda that is busy on
the left only.

Main statement: `Parallel.related_evalNode`, the step, for two ways of visiting operands that agree
wherever the site leads to.
-/

namespace OpTree

open Eval List

namespace Comparison

variable {α : Type}

/-- What makes the evaluations of one expression agree. -/
structure Parallel (cmp : Comparison α α) (good : Site α → Prop)
    (K : List α → State α → State α → Prop) (X : ScopeStack α → ScopeStack α → Prop) :
    Prop where
  valid : ∀ {v}, cmp.value v → v.isValid
  constants : ∀ {σ τ name v}, X σ τ → σ.constant? name = some v → τ.constant? name = some v
  lambdas : ∀ {σ τ name depth l}, X σ τ → σ.lambda? name = some (depth, l) →
    ∃ depth' m, τ.lambda? name = some (depth', m) ∧
      (m = l ∧ X (σ.mark depth name true) (τ.mark depth' name true) ∧
        X ((σ.mark depth name true).narrow depth) ((τ.mark depth' name true).narrow depth') ∨
      l.busy ∧ l.params = m.params ∧ ∀ a, cmp.waives (.recursion a name))
  push : ∀ {σ τ} frame, X σ τ → X (σ.push frame) (τ.push frame)
  noConstant : ∀ {σ τ name}, X σ τ → σ.constant? name = none →
    τ.constant? name = none ∨ ∀ a, cmp.waives (.uninitializedVariable a name)
  noLambda : ∀ {σ τ name}, X σ τ → σ.lambda? name = none →
    τ.lambda? name = none ∧ (∀ calls, cmp.Hosted (K calls)) ∨
      cmp.left.host.find? name = none ∧ ∀ a, cmp.waives (.undefinedCall a name)
  fault : ∀ {κ err}, good κ → κ.Sound → κ.Fault cmp.left err → cmp.Accepts err err
  checks : ∀ {κ}, good κ → κ.Sound → ∀ calls σ τ,
    cmp.Related (At (K calls) σ τ) (At (K calls) σ τ) (fun _ _ => True) checkTime checkTime ∧
    cmp.Related (At (K calls) σ τ) (At (K calls) σ τ) (fun _ _ => True) checkLimits checkLimits
  counts : ∀ {calls c d f}, Usage.Counts f → K calls c d →
    K calls { c with usage := f c.usage } { d with usage := f d.usage }
  visit : ∀ {κ c d}, good κ → κ.Sound → K κ.calls c d →
    K κ.calls (c.note (.visit κ.expr.label)) (d.note (.visit κ.expr.label))
  external : ∀ {κ a name c d}, good κ → κ.Sound → κ.Notes (.external a name) → K κ.calls c d →
    K κ.calls (c.note (.external a name)) (d.note (.external a name))
  enter : ∀ {κ a label c d}, good κ → κ.Sound → κ.Notes (.enter a label) → K κ.calls c d →
    K (label :: κ.calls) (c.note (.enter a label)) (d.note (.enter a label))
  leave : ∀ {label calls c d}, K (label :: calls) c d → K calls (c.note .leave) (d.note .leave)
  invoke : ∀ {κ name values c d}, good κ → κ.Sound → κ.Invokes cmp.left name →
    (∀ v ∈ values, v.isValid) → K κ.calls c d →
    K κ.calls { c with history := ⟨name, values⟩ :: c.history }
      { d with history := ⟨name, values⟩ :: d.history }

namespace Parallel

variable {cmp : Comparison α α} {good : Site α → Prop} {K : List α → State α → State α → Prop}
  {X : ScopeStack α → ScopeStack α → Prop} {visit visit' : Expr α → EvalM α Scalar} {κ : Site α}
  {σ τ : ScopeStack α} {calls : List α} {a : α}

/-- The visits agree at a site, with another stack on the right. -/
def Agrees (cmp : Comparison α α) (K : List α → State α → State α → Prop)
    (visit visit' : Expr α → EvalM α Scalar) (κ : Site α) (τ : ScopeStack α) : Prop :=
  cmp.Visits visit visit' (At (K κ.calls) κ.scopes τ) κ.expr κ.expr

private theorem metered (hP : cmp.Parallel good K X) (hκ : good κ) (hs : κ.Sound)
    (calls : List α) : cmp.Metered (K calls) :=
  .of_checkLimits (fun σ τ => (hP.checks hκ hs calls σ τ).2) hP.counts

private theorem tick (hP : cmp.Parallel good K X) (hκ : good κ) (hs : κ.Sound) :
    cmp.Related (At (K κ.calls) σ τ) (At (K κ.calls) σ τ) (fun _ _ => True)
      (tick κ.expr.label) (tick κ.expr.label) := by
  obtain ⟨htime, hlimits⟩ := hP.checks hκ hs κ.calls σ τ
  exact related_tick htime hlimits fun hk => hP.counts .op (hP.visit hκ hs hk)

private theorem names (hP : cmp.Parallel good K X) (hκ : good κ) (hs : κ.Sound)
    {P : State α → State α → Prop} {code : Operator} {e : Expr α}
    (herr : e.name? = none → κ.Fault cmp.left (.invalidName a code))
    (hv : e.name? = none → cmp.Visits visit visit' P e e) :
    cmp.Names visit visit' a a code P e e := by
  cases hn : e.name? with
  | some name => exact names_of_literal hn hn
  | none => exact names_of_computed hn hn (hP.fault hκ hs (herr hn)) (hv hn)

private theorem lookUp (hP : cmp.Parallel good K X) {e : Expr α}
    (hκ : good ⟨σ, .op a .lookup [e], calls⟩) (hs : Site.Sound ⟨σ, .op a .lookup [e], calls⟩)
    (hX : X σ τ)
    (hv : ∀ κ' τ', Site.Leads ⟨σ, .op a .lookup [e], calls⟩ κ' → X κ'.scopes τ' →
      Agrees cmp K visit visit' κ' τ') :
    cmp.Related (At (K calls) σ τ) (At (K calls) σ τ) cmp.Same (lookUp visit a e)
      (lookUp visit' a e) := by
  refine related_lookUp (hP.metered hκ hs calls) ?_ ?_ ?_
  · exact hP.names hκ hs (.name (.inl rfl)) fun hn => hv _ τ (.name (.inl rfl) hn) hX
  · intro name v _ hfind
    obtain ⟨f, hf, hfv⟩ := List.exists_of_findSome?_eq_some hfind
    exact ⟨hP.constants hX hfind, cmp.value_of_isValid v (hs.constants f hf name v hfv)⟩
  · intro name hn hfind
    rcases hP.noConstant hX hfind with hτ | hw
    · exact (hP.fault hκ hs (.lookup hn hfind)).imp id fun hb => ⟨hτ, hb⟩
    · exact .inl (hw a)

private theorem evalScope (hP : cmp.Parallel good K X) {es : List (Expr α)}
    (hodd : es.length % 2 = 1) (hκ : good ⟨σ, .op a .scope es, calls⟩)
    (hs : Site.Sound ⟨σ, .op a .scope es, calls⟩) (hX : X σ τ)
    (hv : ∀ κ' τ', Site.Leads ⟨σ, .op a .scope es, calls⟩ κ' → X κ'.scopes τ' →
      Agrees cmp K visit visit' κ' τ') :
    cmp.Related (At (K calls) σ τ) (At (K calls) σ τ) cmp.Same (evalScope visit a .empty es)
      (evalScope visit' a .empty es) := by
  -- the frames and what is left of the operands are the same on both sides
  refine related_evalScope (J := fun frame frame' rest rest' =>
    frame = frame' ∧ rest = rest' ∧ Binds es frame rest ∧ rest.length % 2 = 1)
    (hP.metered hκ hs calls) ?_ es es .empty .empty ⟨rfl, rfl, .start, hodd⟩
  rintro frame _ rest _ ⟨rfl, rfl, hb, hlen⟩
  match rest, hb, hlen with
  | [b], hb, _ => exact .body (hv _ _ (.scopeBody hb) (hP.push frame hX))
  | n :: v :: rest, hb, hlen =>
    have hrest : rest.length % 2 = 1 := by
      simp only [List.length_cons] at hlen
      omega
    refine .binding (hP.names hκ hs (.bindingName hb) fun hn => hv _ τ (.bindingName hb hn) hX) ?_
    intro name hn
    cases hl : v.isLambda with
    | false =>
      refine related_declare_constant hl hl (hv _ τ (.bindingValue hb hl) hX) rfl ?_ ?_
      · intro x new hx hnew
        refine ⟨?_, rfl, .constant hb hn hl (hP.valid hx) hnew, hrest⟩
        obtain ⟨-, rfl⟩ := Frame.bindConstant?_eq_some.1 hnew
        rfl
      · exact fun hdup => hP.fault hκ hs (.duplicateConstant hb hn hl hdup)
    | true =>
      match v, hl, hb with
      | .op label .lambda ps, _, hb =>
        refine related_declare_lambda (fun l hdecl => ⟨l, hdecl, ?_⟩) fun err herr =>
          (hP.fault hκ hs (.declare hb herr)).imp id fun h => ⟨err, herr, h⟩
        cases hnew : frame.bindLambda? name l with
        | some new => exact ⟨rfl, rfl, .lambda hb hn hdecl hnew, hrest⟩
        | none =>
          exact hP.fault hκ hs (.duplicateLambda hb hn (Frame.bindLambda?_eq_none.1 hnew))

theorem evalCall (hP : cmp.Parallel good K X) {n : Expr α} {args : List (Expr α)}
    (hκ : good ⟨σ, .op a .call (n :: args), calls⟩)
    (hs : Site.Sound ⟨σ, .op a .call (n :: args), calls⟩) (hX : X σ τ)
    (hv : ∀ κ' τ', Site.Leads ⟨σ, .op a .call (n :: args), calls⟩ κ' → X κ'.scopes τ' →
      Agrees cmp K visit visit' κ' τ') :
    cmp.Related (At (K calls) σ τ) (At (K calls) σ τ) cmp.Same (evalCall visit a n args)
      (evalCall visit' a n args) := by
  refine related_evalCall ?_ ?_ ?_
  · exact hP.names hκ hs (.name (.inr rfl)) fun hn => hv _ τ (.name (.inr rfl) hn) hX
  · intro name depth l hn hl
    obtain ⟨f, hf, hfl⟩ := ScopeStack.exists_mem_of_lambda? hl
    have hnodup : l.params.Nodup := hs.lambdas f hf name l hfl
    have harity (hlen : l.params.length ≠ args.length) := hP.fault hκ hs (.lambdaArity hn hl hlen)
    obtain ⟨depth', m, hm, ⟨rfl, hmark, hnarrow⟩ | ⟨hb, hparams, hw⟩⟩ := hP.lambdas hX hl
    case inr => exact ⟨depth', m, hm, related_callLambda_of_busy hb hparams rfl harity (hw a)⟩
    refine ⟨depth', m, hm, related_callLambda (hP.metered hκ hs (m.label :: calls)) hl hm rfl
      hnodup rfl rfl harity ?_ ?_ hP.leave ?_ ?_⟩
    · exact fun hb => hP.fault hκ hs (.recursion hn hl hb)
    · exact fun hb {c d} hk => hP.enter hκ hs (.enter hn hl hb) hk
    · exact fun hlen hb => forall₂_same.2 fun e he => hv _ _ (.argument hn hl hb hlen he) hmark
    · intro frame frame' hlen hb hf
      obtain rfl := hf.eq
      have hp : IsParamFrame m.params frame :=
        ⟨hf.lambdas, hf.names, fun p v hpv => hP.valid (hf.value p v hpv)⟩
      exact hv _ _ (.lambdaBody hn hl hb hlen hp) (hP.push frame hnarrow)
  · intro name hn hl
    rcases hP.noLambda hX hl with ⟨hl', hh⟩ | ⟨hfind, hw⟩
    · refine .inr ⟨hl', related_callHost (hP.metered hκ hs calls) (hh calls) ?_ ?_ ?_ ?_⟩
      · exact fun err herr => hP.fault hκ hs (.host hn hl herr)
      · exact fun {c d} hk => hP.external hκ hs (.external hn hl) hk
      · intro c d values hvals hsome hk
        exact hP.invoke hκ hs (.call hn hl hsome) (fun v hv => hP.valid (hvals v hv)) hk
      · exact fun _ => forall₂_same.2 fun e he => hv _ τ (.hostArgument hn hl he) hX
    · exact .inl ⟨hfind, hw a⟩

/-- **One step.** Two ways of visiting operands that agree at every visit that follows make the
evaluations of the node agree. -/
theorem related_evalNode (hP : cmp.Parallel good K X) (hκ : good κ) (hs : κ.Sound)
    (hX : X κ.scopes τ)
    (hv : ∀ κ' τ', κ.Leads κ' → X κ'.scopes τ' → Agrees cmp K visit visit' κ' τ') :
    Agrees cmp K (evalNode visit) (evalNode visit') κ τ := by
  obtain ⟨σ, e, calls⟩ := κ
  have htick : cmp.Related (At (K calls) σ τ) (At (K calls) σ τ) (fun _ _ => True) _ _ :=
    hP.tick hκ hs
  cases e with
  | lit a s =>
    exact related_literal (hP.metered hκ hs calls) htick fun hbad =>
      hP.fault hκ hs (.literal hbad)
  | op a code es =>
    refine related_operator rfl htick (fun hbad => hP.fault hκ hs (.arity hbad)) fun ha => ?_
    rcases code.isPlain_or with hp | rfl | rfl | rfl | rfl
    · exact related_apply hp ha (fun err herr => hP.fault hκ hs (.plain hp herr))
        (forall₂_same.2 fun e he => hv _ τ (.operand hp he) hX)
    · cases es with
      | nil => cases ha
      | cons n args => exact hP.evalCall hκ hs hX hv
    · obtain ⟨e, rfl⟩ := List.length_eq_one_iff.1 (beq_iff_eq.1 ha)
      exact hP.lookUp hκ hs hX hv
    · exact hP.evalScope (beq_iff_eq.1 ha) hκ hs hX hv
    · exact .fail (hP.fault hκ hs .lambda)

end Parallel

end Comparison

end OpTree
