import OpTree.Proofs.Evaluation.Visits

/-!
# Only valid scalars circulate

Numbers that are not finite may be written in an expression and returned by host calls. They never
get further: what is not valid is refused where it appears, and so no visit of an expression has it
for its value, no frame holds it, and no host call is given it. Frames come to hold constants one by
one. A frame that a scope is putting together (`Visit.Declares`), or a call for the parameters of a
lambda (`Visit.Passes`), holds only valid constants at each step, and then so do all frames on the
stack, the hidden ones included.

Main statement: `Expr.valid_throughout`.
-/

namespace OpTree

open Comparison Contract Eval List

variable {α : Type}

/-! ### Frames -/

/-- All constants of the frame are valid. -/
def Frame.IsValid (frame : Frame α) : Prop :=
  ∀ name v, frame.constants.find? name = some v → v.isValid

/-- All frames of the scopes being evaluated, the hidden ones included. -/
def ScopeStack.frames (stack : ScopeStack α) : List (Frame α) :=
  stack.visible ++ stack.hidden.flatten

namespace Frame.IsValid

variable {frame new : Frame α} {name : String}

theorem empty : IsValid (.empty : Frame α) := nofun

/-- A valid constant may be declared. -/
theorem bindConstant? {v : Scalar} (h : frame.IsValid) (hv : v.isValid)
    (hnew : frame.bindConstant? name v = some new) : new.IsValid := by
  obtain ⟨-, rfl⟩ := Frame.bindConstant?_eq_some.1 hnew
  intro other w hw
  rw [NameMap.find?_insert] at hw
  split at hw
  · exact Option.some.inj hw ▸ hv
  · exact h other w hw

/-- A lambda is no constant. -/
theorem bindLambda? {l : Lambda α} (h : frame.IsValid)
    (hnew : frame.bindLambda? name l = some new) : new.IsValid := by
  obtain ⟨-, rfl⟩ := Frame.bindLambda?_eq_some.1 hnew
  exact h

end Frame.IsValid

namespace ScopeStack

variable {stack : ScopeStack α} {name : String} {depth : Nat} {l : Lambda α} {frame : Frame α}

/-- Marks and what is hidden do not matter to what the frames hold. -/
theorem mem_frames_of_mark {busy : Bool} (hl : stack.lambda? name = some (depth, l))
    (hf : frame ∈ (stack.mark depth name busy).frames) :
    ∃ f ∈ stack.frames, frame = f ∨ frame = f.mark name busy := by
  rcases List.mem_append.1 hf with hf | hf
  · obtain ⟨f, hmem, h⟩ := mem_visible_mark hl hf
    exact ⟨f, List.mem_append_left _ hmem, h⟩
  · exact ⟨frame, List.mem_append_right _ hf, .inl rfl⟩

/-- Hiding frames does not take them away. -/
theorem mem_frames_narrow : frame ∈ (stack.narrow depth).frames ↔ frame ∈ stack.frames := by
  rw [frames, frames, narrow, List.flatten_cons, List.mem_append, List.mem_append, List.mem_append,
    ← or_assoc, or_comm (a := frame ∈ List.drop _ _), ← List.mem_append, List.take_append_drop]

end ScopeStack

/-- All frames stay valid along the visits that follow. -/
theorem Site.Leads.isValid {κ κ' : Site α} (h : κ.Leads κ')
    (hκ : ∀ f ∈ κ.scopes.frames, f.IsValid) : ∀ f ∈ κ'.scopes.frames, f.IsValid := by
  have hmark {σ : ScopeStack α} {name depth l} (hσ : ∀ f ∈ σ.frames, f.IsValid)
      (hl : σ.lambda? name = some (depth, l)) :
      ∀ f ∈ (σ.mark depth name true).frames, f.IsValid := by
    intro f hf
    obtain ⟨g, hg, rfl | rfl⟩ := ScopeStack.mem_frames_of_mark hl hf
    · exact hσ f hg
    · exact hσ g hg
  cases h with
  | operand | name | bindingName | bindingValue | hostArgument => exact hκ
  | scopeBody hb => exact List.forall_mem_cons.2 ⟨hb.constants, hκ⟩
  | argument _ hl => exact hmark hκ hl
  | lambdaBody _ hl _ _ hp =>
    refine List.forall_mem_cons.2 ⟨hp.valid, fun f hf => ?_⟩
    exact hmark hκ hl f (ScopeStack.mem_frames_narrow.1 hf)

/-! ### Frames that are put together -/

namespace Eval

variable (visit : Expr α → EvalM α Scalar) (node : α) (frame : Frame α)

/-- One binding of a scope. -/
def bindNext (name value : Expr α) : EvalM α (Frame α) := do
  let name ← nameOf visit node .scope name
  countVar
  declare visit node frame name value

/-- A scope goes from binding to binding. -/
theorem evalScope_cons (name value : Expr α) (rest : List (Expr α)) :
    evalScope visit node frame (name :: value :: rest) =
      bindNext visit node frame name value >>= fun frame => evalScope visit node frame rest := by
  rw [evalScope, bindNext, bind_assoc]
  exact bind_congr fun name => (bind_assoc ..).symm

/-- One parameter of a lambda. -/
def passNext (param : String) (arg : Expr α) : EvalM α (Frame α) := do
  let value ← visit arg
  countVar
  match frame.bindConstant? param value with
  | some frame => return frame
  | none => EvalM.fail (.duplicateName node param .constant)

/-- A call goes from parameter to parameter. -/
theorem bindParams_cons (param : String) (arg : Expr α) (params : List String)
    (args : List (Expr α)) :
    bindParams visit node frame (param :: params) (arg :: args) =
      passNext visit node frame param arg >>= fun frame =>
        bindParams visit node frame params args := by
  rw [bindParams, passNext, bind_assoc]
  refine bind_congr fun value => ?_
  rw [bind_assoc]
  refine bind_congr fun _ => ?_
  cases frame.bindConstant? param value <;> rfl

end Eval

namespace Visit

variable (setting : Setting) (v : Visit α)

/-- What a scope has put together: a frame, the operands that are left and the state by then. -/
inductive Declares : Frame α → List (Expr α) → State α → Prop
  | start {a es} : v.expr = .op a .scope es → Declares .empty es (v.state.visited a)
  | next {frame new name value rest c c'} : Declares frame (name :: value :: rest) c →
      bindNext v.visitOperand v.expr.label frame name value setting c = (.ok new, c') →
      Declares new rest c'

/-- What a call of a lambda has put together for its parameters: a frame, the parameters and
arguments that are left and the state by then. -/
inductive Passes : Frame α → List String → List (Expr α) → State α → Prop
  | start {a n args name c depth l} : v.expr = .op a .call (n :: args) →
      nameOf v.visitOperand a .call n setting (v.state.visited a) = (.ok name, c) →
      c.scopes.lambda? name = some (depth, l) → l.params.length = args.length → l.busy = false →
      Passes .empty l.params args
        { c.note (.enter a l.label) with scopes := c.scopes.mark depth name true }
  | next {frame new param params arg args c c'} :
      Passes frame (param :: params) (arg :: args) c →
      passNext v.visitOperand v.expr.label frame param arg setting c = (.ok new, c') →
      Passes new params args c'

end Visit

/-! ### What is put together is valid -/

namespace Eval

variable {setting : Setting} {a : α} {frame new : Frame α} {name : String} {value : Expr α}
  {c c' : State α} {depth : Nat}

/-- Counting a variable keeps the scopes. -/
private theorem countVar_scopes (h : countVar setting c = (.ok (), c')) : c'.scopes = c.scopes :=
  congrArg (·.2.scopes) h.symm |>.trans
    (congrArg State.scopes (checkLimits_snd setting { c with usage := c.usage.countVar }))

/-- A binding leaves the scopes as they were, and the frame valid. -/
private theorem declare_restores (hs : (c.site value).Sound) (hf : frame.IsValid)
    (h : declare (eval depth) a frame name value setting c = (.ok new, c')) :
    c'.scopes = c.scopes ∧ new.IsValid := by
  cases hv : value.isLambda with
  | false =>
    rw [declare_of_not_isLambda hv] at h
    obtain ⟨v, d, hvalue, h⟩ := EvalM.bind_eq_ok.1 h
    obtain ⟨hscopes, -, hvalid⟩ := eval_restores hs depth setting
    rw [hvalue] at hscopes hvalid
    cases hb : frame.bindConstant? name v with
    | none => rw [hb] at h; cases h
    | some new' =>
      rw [hb] at h
      cases h
      exact ⟨hscopes, hf.bindConstant? (hvalid v rfl) hb⟩
  | true =>
    match value, hv with
    | .op label .lambda ps, _ =>
      simp only [declare, EvalM.bind_apply, EvalM.ofExcept] at h
      cases hl : Lambda.declare label ps with
      | error err => rw [hl] at h; cases h
      | ok l =>
        rw [hl] at h
        dsimp only at h
        cases hb : frame.bindLambda? name l with
        | none => rw [hb] at h; cases h
        | some new' =>
          rw [hb] at h
          cases h
          exact ⟨rfl, hf.bindLambda? hb⟩

/-- So does a binding with its name. -/
private theorem bindNext_restores {n : Expr α} (hs : ∀ e, (c.site e).Sound) (hf : frame.IsValid)
    (h : bindNext (eval depth) a frame n value setting c = (.ok new, c')) :
    c'.scopes = c.scopes ∧ new.IsValid := by
  obtain ⟨name, c₁, hname, h⟩ := EvalM.bind_eq_ok.1 h
  obtain ⟨_, c₂, hvar, h⟩ := EvalM.bind_eq_ok.1 h
  obtain ⟨hscopes, -⟩ := nameOf_restores (hs n) hname
  have hscopes₂ : c₂.scopes = c.scopes := (countVar_scopes hvar).trans hscopes
  obtain ⟨hscopes', hnew⟩ := declare_restores ((hs value).of_scopes hscopes₂) hf h
  exact ⟨hscopes'.trans hscopes₂, hnew⟩

/-- So does an argument for a parameter. -/
private theorem passNext_restores {param : String} {arg : Expr α} (hs : (c.site arg).Sound)
    (hf : frame.IsValid) (h : passNext (eval depth) a frame param arg setting c = (.ok new, c')) :
    c'.scopes = c.scopes ∧ new.IsValid := by
  obtain ⟨v, c₁, hvalue, h⟩ := EvalM.bind_eq_ok.1 h
  obtain ⟨_, c₂, hvar, h⟩ := EvalM.bind_eq_ok.1 h
  obtain ⟨hscopes, -, hvalid⟩ := eval_restores hs depth setting
  rw [hvalue] at hscopes hvalid
  cases hb : frame.bindConstant? param v with
  | none => rw [hb] at h; cases h
  | some new' =>
    rw [hb] at h
    cases h
    exact ⟨(countVar_scopes hvar).trans hscopes, hf.bindConstant? (hvalid v rfl) hb⟩

end Eval

namespace Visit

variable {setting : Setting} {v : Visit α} {frame : Frame α} {c : State α}

/-- So do the first bindings of a scope, on the way to the next one. -/
private theorem Declares.restores {rest : List (Expr α)} (h : v.Declares setting frame rest c)
    (hs : v.site.Sound) : c.scopes = v.state.scopes ∧ frame.IsValid := by
  induction h with
  | start => exact ⟨rfl, .empty⟩
  | next _ hnext ih =>
    obtain ⟨hscopes, hf⟩ := ih
    obtain ⟨hscopes', hnew⟩ := bindNext_restores (fun _ => hs.of_scopes hscopes) hf hnext
    exact ⟨hscopes'.trans hscopes, hnew⟩

/-- So do the first arguments of a call. -/
private theorem Passes.restores {params : List String} {args : List (Expr α)}
    (h : v.Passes setting frame params args c) (hs : v.site.Sound) :
    (∀ e ∈ args, (c.site e).Sound) ∧ frame.IsValid := by
  induction h with
  | @start a n args name c depth l he hname hl hlen hb =>
    have hoperand : ((v.state.visited a).site n).Sound := hs.of_scopes rfl
    have hscopes : c.scopes = v.state.scopes := (nameOf_restores hoperand hname).1
    rw [hscopes] at hl
    refine ⟨fun e hmem => ?_, .empty⟩
    -- the name has come out, and so the call leads to its arguments
    have hleads : Site.Leads ⟨v.state.scopes, .op a .call (.lit a (.str name) :: args), []⟩
        ⟨v.state.scopes.mark depth name true, e, [l.label]⟩ :=
      .argument (fun _ hn => (Option.some.inj hn).symm) hl hb hlen hmem
    exact (hleads.sound (hs.of_scopes rfl)).of_scopes (congrArg (·.mark depth name true) hscopes)
  | next _ hnext ih =>
    obtain ⟨hargs, hf⟩ := ih
    rw [List.forall_mem_cons] at hargs
    obtain ⟨hscopes, hnew⟩ := passNext_restores hargs.1 hf hnext
    exact ⟨fun e he => (hargs.2 e he).of_scopes hscopes, hnew⟩

/-- The frames on the stack are valid at every visit of a run. -/
private theorem OfRun.frames {e : Expr α} (h : OfRun setting e v) :
    ∀ f ∈ v.state.scopes.frames, f.IsValid := by
  induction h with
  | start => nofun
  | next hv h ih => exact (h.leads hv.sound).isValid ih

end Visit

/-! ### Host calls -/

namespace Comparison

variable {cmp : Comparison α α} {K : State α → State α → Prop} {R : List Invocation → Prop}
  {σ τ : ScopeStack α} {γ : Type} {V : γ → γ → Prop} {x y : EvalM α γ}

/-- What holds of the host calls so far holds still after a step that changes nothing. -/
private theorem Related.and_history (hx : ∀ c, (x cmp.left c).2 = c)
    (h : cmp.Related (At K σ τ) (At K σ τ) V x y) :
    cmp.Related (At (fun c d => K c d ∧ R c.history) σ τ)
      (At (fun c d => K c d ∧ R c.history) σ τ) V x y := by
  rintro c d ⟨hc, hd, hk, hr⟩
  have hrun := h c d ⟨hc, hd, hk⟩
  have hsame := hx c
  generalize x cmp.left c = r at hrun hsame ⊢
  generalize y cmp.right d = r' at hrun ⊢
  cases hrun with
  | ok hv hq =>
    cases hsame
    exact .ok hv ⟨hq.1, hq.2.1, hq.2.2, hr⟩
  | error he hq =>
    cases hsame
    exact .error he ⟨hq.1, hq.2.1, hq.2.2, hr⟩
  | waived hw => exact .waived hw

/-- What every invocation with valid arguments keeps holds of the host calls of a run. -/
theorem Parallel.and_history {good : Site α → Prop} {K : List α → State α → State α → Prop}
    {X : ScopeStack α → ScopeStack α → Prop} (hP : cmp.Parallel good K X)
    (hR : ∀ {name values history}, (∀ v ∈ values, v.isValid) → R history →
      R (⟨name, values⟩ :: history)) :
    cmp.Parallel good (fun calls c d => K calls c d ∧ R c.history) X where
  valid := hP.valid
  constants := hP.constants
  lambdas := hP.lambdas
  push := hP.push
  noConstant := hP.noConstant
  noLambda hX hl := (hP.noLambda hX hl).imp (fun ⟨hτ, hh⟩ => ⟨hτ, fun calls => {
    host := (hh calls).host
    executor := (hh calls).executor
    evaluationTime := (hh calls).evaluationTime
    callTime := (hh calls).callTime
    history := fun hk => (hh calls).history hk.1
    clock := fun hk => (hh calls).clock hk.1
    pass := fun n hk => ⟨(hh calls).pass n hk.1, hk.2⟩ }⟩) id
  fault := hP.fault
  checks hκ hs calls σ τ :=
    ⟨(hP.checks hκ hs calls σ τ).1.and_history (checkTime_snd _),
      (hP.checks hκ hs calls σ τ).2.and_history (checkLimits_snd _)⟩
  counts hf hk := ⟨hP.counts hf hk.1, hk.2⟩
  visit hκ hs hk := ⟨hP.visit hκ hs hk.1, hk.2⟩
  external hκ hs hn hk := ⟨hP.external hκ hs hn hk.1, hk.2⟩
  enter hκ hs hn hk := ⟨hP.enter hκ hs hn hk.1, hk.2⟩
  leave hk := ⟨hP.leave hk.1, hk.2⟩
  invoke hκ hs hi hv hk := ⟨hP.invoke hκ hs hi hv hk.1, hR hv hk.2⟩

end Comparison

namespace Eval

variable {R : List Invocation → Prop}

/-- What every invocation with valid arguments keeps is kept by every evaluation. -/
theorem history_eval (hR : ∀ {name values history}, (∀ v ∈ values, v.isValid) → R history →
      R (⟨name, values⟩ :: history)) (setting : Setting) (depth : Nat) {e : Expr α} {c : State α}
    (hs : (c.site e).Sound) (hc : R c.history) : R (eval depth e setting c).2.history := by
  have hkept : (silent α).Kept setting := kept_silent setting
  have hP := hkept.parallel.and_history (R := R) hR
  have hagree : ∀ (depth : Nat) (κ : Site α), κ.Sound →
      Parallel.Agrees ((silent α).comparison setting)
        (fun calls c d => (silent α).Between calls c d ∧ R c.history) (eval depth) (eval depth) κ
        κ.scopes := by
    intro depth
    induction depth with
    | zero => exact fun κ _ => .fail (.inr ⟨rfl, trivial⟩)
    | succ depth ih =>
      intro κ hs
      refine hP.related_evalNode trivial hs rfl ?_
      rintro κ' _ h rfl
      exact ih κ' (h.sound hs)
  have hrun := hagree depth (c.site e) hs c c
    ⟨rfl, rfl, ⟨rfl, rfl, trivial, fun _ _ => trivial⟩, hc⟩
  change Comparison.Agree _ _ _ (eval depth e setting c) (eval depth e setting c) at hrun
  generalize eval depth e setting c = r at hrun
  cases hrun with
  | ok _ hq => exact hq.2.2.2
  | error _ hq => exact hq.2.2.2
  | waived hw => exact hw.elim

end Eval

namespace Expr

/-- **Only valid scalars circulate**, whatever literals the expression has and whatever host calls
return. The value of a run is valid, and so are all arguments of the host calls it makes. At every
visit of the run all constants are valid: those of the frames on the stack, the hidden ones
included, and those of the frames that are being put together for a scope or for the parameters of a
lambda. A visit that comes to a value comes to a valid one. -/
theorem valid_throughout (e : Expr α) (setting : Setting) :
    (∀ result, (e.run setting).outcome = .ok result → result.result.isValid) ∧
      (∀ i ∈ (e.run setting).calls, ∀ v ∈ i.arguments, v.isValid) ∧
      ∀ v, Visit.OfRun setting e v →
        (∀ frame ∈ v.state.scopes.frames, frame.IsValid) ∧
        (∀ frame rest c, v.Declares setting frame rest c → frame.IsValid) ∧
        (∀ frame params args c, v.Passes setting frame params args c → frame.IsValid) ∧
        ∀ value c, v.outcome setting = (.ok value, c) → value.isValid := by
  have hstart : (State.start.site e).Sound := Site.sound_start e
  have hcalls := history_eval (R := fun history => ∀ i ∈ history, ∀ v ∈ i.arguments, v.isValid)
    (fun hv hr => List.forall_mem_cons.2 ⟨hv, hr⟩) setting e.extent.nesting hstart
    (List.forall_mem_nil _)
  have hvalue := (eval_restores hstart e.extent.nesting setting).2.2
  refine ⟨?_, fun i hi => hcalls i (List.mem_reverse.1 hi), fun v hv =>
    ⟨hv.frames, fun _ _ _ h => (h.restores hv.sound).2, fun _ _ _ _ h => (h.restores hv.sound).2,
      fun value c h => (eval_restores hv.sound v.depth setting).2.2 value (congrArg Prod.fst h)⟩⟩
  rw [run, runWithin]
  generalize eval e.extent.nesting e setting .start = r at hvalue
  obtain ⟨_ | value, c⟩ := r
  · rintro _ ⟨⟩
  · rintro _ ⟨⟩
    exact hvalue value rfl

/-- The body of a scope is visited while a valid constant is on the stack. -/
theorem valid_throughout_scope :
    let setting : Setting := ⟨.unlimited, ⟨⟨⟨[]⟩⟩, none, .empty⟩, .timed⟩
    let body : Expr Unit := .op () .lookup [.lit () (.str "x")]
    let e : Expr Unit := .op () .scope [.lit () (.str "x"), .lit () .null, body]
    ∃ v, Visit.OfRun setting e v ∧ v.expr = body ∧
      ∃ frame ∈ v.state.scopes.frames, frame.constants.find? "x" = some .null ∧ frame.IsValid := by
  intro setting body e
  let c : State Unit := { State.start.visited () with usage := Usage.zero.countOp.countVar }
  let frame : Frame Unit := ⟨NameMap.empty.insert "x" .null, .empty⟩
  let v : Visit Unit := ⟨e.extent.nesting - 1, body, (c.visited ()).enterScope frame⟩
  have hmakes : Visit.Makes setting ⟨e.extent.nesting, e, .start⟩ v := by
    refine .of_fails rfl fun visit err hother hfails => ?_
    have hvalue : visit (.lit () .null) setting c = (.ok .null, c.visited ()) :=
      hother (.lit () .null) c (.inl nofun)
    have hframe : declare visit () .empty "x" (.lit () .null) setting c =
        (.ok frame, c.visited ()) := by
      rw [declare_of_not_isLambda rfl, EvalM.bind_apply, hvalue]
      rfl
    have hrun : evalNode visit e setting .start =
        (declare visit () .empty "x" (.lit () .null) >>= fun frame =>
          inScope frame (visit body)) setting c := by
      rw [evalNode_op (by decide)]
      rfl
    rw [hrun, EvalM.bind_apply, hframe]
    exact hfails
  have hv : Visit.OfRun setting e v := .next .start hmakes
  obtain ⟨hframes, -⟩ := (valid_throughout e setting).2.2 v hv
  exact ⟨v, hv, rfl, frame, List.mem_cons_self, rfl, hframes frame List.mem_cons_self⟩

end Expr

end OpTree
