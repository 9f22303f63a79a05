import OpTree.Proofs.Evaluation.Sites
import OpTree.Proofs.Labels.Scopes

/-!
# Labels do not matter to an evaluation

The evaluation of a relabelled expression is the relabelled evaluation of the expression. Nothing is
asked of the relabelling: it may give one label to several nodes, as a graph does where nodes are
shared. The two evaluations are compared along the visits that an evaluation makes, the one at a
site beside the other at the relabelled site.

Main statement: `Expr.run_map`.
-/

namespace OpTree

open Comparison Eval List

variable {α β : Type}

namespace Expr

variable (f : α → β) (e : Expr α)

/-- Labels do not make lambdas. -/
@[simp]
theorem isLambda_map : (e.map f).isLambda = e.isLambda := by
  cases e with
  | lit => rfl
  | op a code es => cases code <;> rfl

/-- Labels do not count towards the extent. -/
@[simp]
theorem extent_map : (e.map f).extent = e.extent := by
  induction e with
  | lit => rfl
  | op a code es ih =>
    rw [map_op, extent_op, extent_op, List.map_map]
    exact congrArg (Extent.ofOperands code) (map_congr_left ih)

end Expr

/-- An evaluation beside that of the relabelled expression. -/
def relabelling (f : α → β) (setting : Setting) : Comparison α β where
  left := setting
  right := setting
  waives _ := False
  blames err err' := err' = err.map f
  value v := v.isValid
  value_of_isValid _ hv := hv

namespace Relabelling

variable {f : α → β} {setting : Setting} {σ : ScopeStack α} {τ : ScopeStack β} {a : α}
  {calls : List α} {visit : Expr α → EvalM α Scalar} {visit' : Expr β → EvalM β Scalar}
  {e : Expr α} {es : List (Expr α)}

/-- The state on the right is the relabelled one. -/
def Relabels (f : α → β) (c : State α) (d : State β) : Prop := d = c.map f

private theorem accepts (err : EvalError α) : (relabelling f setting).Accepts err (err.map f) :=
  .inr rfl

private theorem accepts_at (err : EvalError Unit) (a : α) :
    (relabelling f setting).Accepts (err.map fun _ => a) (err.map fun _ => f a) :=
  .inr (EvalError.map_map f (fun _ => a) err).symm

private theorem related_checkLimits :
    (relabelling f setting).Related (At (Relabels f) σ τ) (At (Relabels f) σ τ) (fun _ _ => True)
      checkLimits checkLimits := by
  refine Comparison.related_checkLimits ?_
  rintro c d ⟨-, -, hk⟩
  have husage : d.usage = c.usage := congrArg State.usage hk
  rw [husage]
  cases hx : c.usage.exceeded? setting.limits with
  | none => exact .inl ⟨hx, hx⟩
  | some x => exact .inr ⟨x, hx, .inr ⟨x, hx, rfl⟩⟩

private theorem related_tick :
    (relabelling f setting).Related (At (Relabels f) σ τ) (At (Relabels f) σ τ) (fun _ _ => True)
      (tick a) (tick (f a)) := by
  refine Comparison.related_tick (related_checkTime rfl ?_ fun _ _ => accepts _)
    related_checkLimits ?_
  · rintro - c d ⟨-, -, hk⟩
    exact (congrArg State.clock hk).symm
  · rintro c _ rfl
    rfl

private theorem metered : (relabelling f setting).Metered (Relabels f) :=
  .of_checkLimits (fun _ _ => related_checkLimits) <| by
    rintro c _ g - rfl
    rfl

private theorem hosted : (relabelling f setting).Hosted (Relabels f) where
  host := rfl
  executor := rfl
  evaluationTime := rfl
  callTime := rfl
  history hk := (congrArg State.history hk).symm
  clock hk := (congrArg State.clock hk).symm
  pass n hk := by
    cases hk
    rfl

/-- Visiting the expression at a site agrees with visiting the relabelled one. -/
def Agrees (f : α → β) (setting : Setting) (visit : Expr α → EvalM α Scalar)
    (visit' : Expr β → EvalM β Scalar) (κ : Site α) : Prop :=
  (relabelling f setting).Visits visit visit' (At (Relabels f) κ.scopes (κ.scopes.map f)) κ.expr
    (κ.expr.map f)

/-- A name is the same on both sides. -/
private theorem names {P : State α → State β → Prop} {code : Operator}
    (hv : e.name? = none → (relabelling f setting).Visits visit visit' P e (e.map f)) :
    (relabelling f setting).Names visit visit' a (f a) code P e (e.map f) := by
  cases hn : e.name? with
  | some name => exact names_of_literal hn ((e.name?_map f).trans hn)
  | none => exact names_of_computed hn ((e.name?_map f).trans hn) (accepts _) (hv hn)

private theorem forall₂_map {R : Expr α → Expr β → Prop} (h : ∀ e ∈ es, R e (e.map f)) :
    Forall₂ R es (es.map (Expr.map f)) :=
  forall₂_map_right_iff.2 (forall₂_same.2 h)

/-- A lookup finds the same value. -/
private theorem lookUp (hs : Site.Sound ⟨σ, .op a .lookup [e], calls⟩)
    (hv : ∀ κ', Site.Leads ⟨σ, .op a .lookup [e], calls⟩ κ' → Agrees f setting visit visit' κ') :
    (relabelling f setting).Related (At (Relabels f) σ (σ.map f)) (At (Relabels f) σ (σ.map f))
      (relabelling f setting).Same (lookUp visit a e) (lookUp visit' (f a) (e.map f)) := by
  refine related_lookUp metered (names fun hn => hv _ (.name (.inl rfl) hn)) ?_ ?_
  · intro name v _ hfind
    obtain ⟨frame, hf, hfv⟩ := exists_of_findSome?_eq_some hfind
    exact ⟨(σ.constant?_map f name).trans hfind, hs.constants frame hf name v hfv⟩
  · exact fun name _ hfind => .inr ⟨(σ.constant?_map f name).trans hfind, rfl⟩

/-- A scope makes the relabelled frame. -/
private theorem evalScope (hodd : es.length % 2 = 1)
    (hv : ∀ κ', Site.Leads ⟨σ, .op a .scope es, calls⟩ κ' → Agrees f setting visit visit' κ') :
    (relabelling f setting).Related (At (Relabels f) σ (σ.map f)) (At (Relabels f) σ (σ.map f))
      (relabelling f setting).Same (evalScope visit a .empty es)
      (evalScope visit' (f a) .empty (es.map (Expr.map f))) := by
  -- the frame on the right is the relabelled one, and so is what is left of the operands
  refine related_evalScope (J := fun frame frame' rest rest' => frame' = frame.map f ∧
    rest' = rest.map (Expr.map f) ∧ Binds es frame rest ∧ rest.length % 2 = 1) metered ?_ es _
    .empty .empty ⟨rfl, rfl, .start, hodd⟩
  rintro frame _ rest _ ⟨rfl, rfl, hb, hlen⟩
  match rest, hb, hlen with
  | [b], hb, _ => exact .body (hv _ (.scopeBody hb))
  | n :: v :: rest, hb, hlen =>
    have hrest : rest.length % 2 = 1 := by
      simp only [length_cons] at hlen
      omega
    refine .binding (names fun hn => hv _ (.bindingName hb hn)) fun name hn => ?_
    cases hl : v.isLambda with
    | false =>
      have hl' : (v.map f).isLambda = false := by rw [v.isLambda_map, hl]
      refine related_declare_constant hl hl' (hv _ (.bindingValue hb hl)) rfl ?_ fun _ => accepts _
      intro x new hx hnew
      refine ⟨?_, rfl, .constant hb hn hl hx hnew, hrest⟩
      obtain ⟨-, rfl⟩ := Frame.bindConstant?_eq_some.1 hnew
      rfl
    | true =>
      match v, hl, hb with
      | .op label .lambda ps, _, hb =>
        rw [Expr.map_op]
        refine related_declare_lambda (fun l hdecl => ⟨l.map f, ?_, ?_⟩)
          fun err herr => .inr ⟨err.map f, ?_, rfl⟩
        · rw [Lambda.declare_map, hdecl]
          rfl
        · rw [Frame.bindLambda?_map]
          cases hnew : frame.bindLambda? name l with
          | some new => exact ⟨rfl, rfl, .lambda hb hn hdecl hnew, hrest⟩
          | none => exact accepts _
        · rw [Lambda.declare_map, herr]
          rfl

/-- A call is one of the relabelled lambda, or of the host with the same arguments. -/
private theorem evalCall {n : Expr α} {args : List (Expr α)}
    (hs : Site.Sound ⟨σ, .op a .call (n :: args), calls⟩)
    (hv : ∀ κ', Site.Leads ⟨σ, .op a .call (n :: args), calls⟩ κ' →
      Agrees f setting visit visit' κ') :
    (relabelling f setting).Related (At (Relabels f) σ (σ.map f)) (At (Relabels f) σ (σ.map f))
      (relabelling f setting).Same (evalCall visit a n args)
      (evalCall visit' (f a) (n.map f) (args.map (Expr.map f))) := by
  refine related_evalCall (names fun hn => hv _ (.name (.inr rfl) hn)) ?_ ?_
  · intro name depth l hn hl
    have hl' : (σ.map f).lambda? name = some (depth, l.map f) := by
      rw [ScopeStack.lambda?_map, hl]
      rfl
    obtain ⟨frame, hf, hfl⟩ := ScopeStack.exists_mem_of_lambda? hl
    have hnodup : l.params.Nodup := hs.lambdas frame hf name l hfl
    have hmark := σ.map_mark f name hl true
    refine ⟨depth, l.map f, hl', related_callLambda metered hl hl' rfl hnodup rfl
      (length_map _).symm (fun _ => accepts _) (fun _ => accepts _) ?_ ?_ ?_ ?_⟩
    · rintro - c _ rfl
      rfl
    · rintro c _ rfl
      rfl
    · intro hlen hb
      rw [← hmark]
      exact forall₂_map fun e he => hv _ (.argument hn hl hb hlen he)
    · intro frame frame' hlen hb hframes
      have hframe : frame' = frame.map f := by
        obtain ⟨_, _⟩ := frame
        obtain ⟨_, _⟩ := frame'
        obtain ⟨rfl, rfl, rfl, -, -⟩ := hframes
        rfl
      have hp : IsParamFrame l.params frame := ⟨hframes.lambdas, hframes.names, hframes.value⟩
      rw [hframe, ← hmark, ← ScopeStack.map_narrow, ← ScopeStack.map_push]
      exact hv _ (.lambdaBody hn hl hb hlen hp)
  · intro name hn hl
    have hl' : (σ.map f).lambda? name = none := by rw [ScopeStack.lambda?_map, hl, Option.map_none]
    refine .inr ⟨hl', related_callHost metered hosted (fun err _ => accepts_at err a) ?_ ?_ ?_⟩
    · rintro c _ rfl
      rfl
    · rintro c _ values - - rfl
      rfl
    · exact fun _ => forall₂_map fun e he => hv _ (.hostArgument hn hl he)

/-- **One step.** Two ways of visiting operands that agree at every visit that follows make the
evaluations of the node and of the relabelled node agree. -/
private theorem agrees_evalNode {κ : Site α} (hs : κ.Sound)
    (hv : ∀ κ', κ.Leads κ' → Agrees f setting visit visit' κ') :
    Agrees f setting (evalNode visit) (evalNode visit') κ := by
  obtain ⟨σ, e, calls⟩ := κ
  cases e with
  | lit a s => exact related_literal metered related_tick fun _ => accepts _
  | op a code es =>
    change (relabelling f setting).Visits _ _ _ _ (Expr.map f (.op a code es))
    rw [Expr.map_op]
    refine related_operator (length_map _).symm related_tick (fun _ => accepts _) fun ha => ?_
    rcases code.isPlain_or with hp | rfl | rfl | rfl | rfl
    · exact related_apply hp ha (fun err _ => accepts_at err a)
        (forall₂_map fun e he => hv _ (.operand hp he))
    · cases es with
      | nil => cases ha
      | cons n args => exact evalCall hs hv
    · obtain ⟨e, rfl⟩ := length_eq_one_iff.1 (beq_iff_eq.1 ha)
      exact lookUp hs hv
    · exact evalScope (beq_iff_eq.1 ha) hv
    · exact .fail (accepts _)

/-- **Evaluation and relabelling can be exchanged**, at every site. -/
private theorem agrees_eval (f : α → β) (setting : Setting) (depth : Nat) :
    ∀ κ : Site α, κ.Sound → Agrees f setting (eval depth) (eval depth) κ := by
  induction depth with
  | zero => exact fun κ _ => .fail (accepts .unfinished)
  | succ depth ih => exact fun κ hs => agrees_evalNode hs fun κ' h => ih κ' (h.sound hs)

end Relabelling

/-- The evaluation of the relabelled expression in the relabelled state ends as the evaluation of
the expression, but for the labels. -/
theorem Eval.eval_map (f : α → β) (depth : Nat) {κ : Site α} (hs : κ.Sound) (setting : Setting)
    {c : State α} (hc : c.scopes = κ.scopes) :
    eval depth (κ.expr.map f) setting (c.map f)
      = ((eval depth κ.expr setting c).1.mapError (EvalError.map f),
        (eval depth κ.expr setting c).2.map f) := by
  have hrun := Relabelling.agrees_eval f setting depth κ hs c (c.map f)
    ⟨hc, by rw [← hc]; rfl, rfl⟩
  change (relabelling f setting).Agree _ _ (eval depth κ.expr setting c)
    (eval depth (κ.expr.map f) setting (c.map f)) at hrun
  have hstate {c : State α} {d : State β}
      (h : At (Relabelling.Relabels f) κ.scopes (κ.scopes.map f) c d) : d = c.map f := by
    obtain ⟨hc, hd, hk⟩ := h
    exact State.ext_bare (by rw [hd, ← hc]; rfl) hk
  generalize eval depth κ.expr setting c = r at hrun ⊢
  generalize eval depth (κ.expr.map f) setting (c.map f) = r' at hrun ⊢
  cases hrun with
  | ok hv hq => rw [hv.1, hstate hq]; rfl
  | error he hq => rw [he, hstate hq]; rfl
  | waived hw => exact hw.elim

/-- **Labels do not matter.** The run of a relabelled expression is the relabelled run: it gives the
same value, has used the same and has made the same host calls, or it fails for the same reason at
the relabelled node. -/
theorem Expr.run_map (f : α → β) (e : Expr α) (setting : Setting) :
    (e.map f).run setting = (e.run setting).map f := by
  have heval := Eval.eval_map f e.extent.nesting (Site.sound_start e) setting (c := .start) rfl
  change eval e.extent.nesting (e.map f) setting .start
    = ((eval e.extent.nesting e setting .start).1.mapError (EvalError.map f),
      (eval e.extent.nesting e setting .start).2.map f) at heval
  rw [run, run, runWithin, runWithin, extent_map, heval]
  generalize eval e.extent.nesting e setting .start = r
  obtain ⟨outcome, c⟩ := r
  have htrace : (c.trace.map (Event.map f)).reverse = c.trace.reverse.map (Event.map f) :=
    map_reverse.symm
  cases outcome <;> exact congrArg (Run.mk _ _) htrace

end OpTree
