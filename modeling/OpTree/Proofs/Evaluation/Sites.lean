import OpTree.Proofs.Evaluation.Calls

/-!
# Where an evaluation can stand

A `Site` is a visit of an expression: the scopes around it, and the lambdas whose calls are in
progress. `Site.Leads` lists the visits that the evaluation of one node can make, and `Site.Fault`
the errors that can arise at the node itself. Both only say what an operator may do, never in which
order or how often, and so they are all that most invariants need.

`Site.Sound` is what holds of the scopes at every site that the start of an evaluation leads to
(`Site.Leads.sound`).
-/

namespace OpTree

open List

variable {α : Type}

/-- The lambdas whose calls are in progress, the latest first, after all that happened, the latest
first. -/
def inProgress : List (Event α) → List α
  | [] => []
  | .enter _ lambda :: before => lambda :: inProgress before
  | .leave :: before => (inProgress before).tail
  | .visit _ :: before | .external .. :: before => inProgress before

/-- A visit of an expression. -/
structure Site (α : Type) where
  scopes : ScopeStack α
  expr : Expr α
  /-- The lambdas whose calls are in progress, the latest first. -/
  calls : List α

/-- What a scope can have declared when it comes to the remaining operands. -/
inductive Binds (es : List (Expr α)) : Frame α → List (Expr α) → Prop
  | start : Binds es .empty es
  | constant {frame new n v rest name value} : Binds es frame (n :: v :: rest) → n.MayName name →
      v.isLambda = false → value.isValid → frame.bindConstant? name value = some new →
      Binds es new rest
  | lambda {frame new n label ps rest name l} :
      Binds es frame (n :: .op label .lambda ps :: rest) → n.MayName name →
      Lambda.declare label ps = .ok l → frame.bindLambda? name l = some new → Binds es new rest

/-- The frame of the parameters of a lambda. -/
structure IsParamFrame (params : List String) (frame : Frame α) : Prop where
  lambdas : frame.lambdas = .empty
  names : ∀ p, (frame.constants.find? p).isSome ↔ p ∈ params
  valid : ∀ p v, frame.constants.find? p = some v → v.isValid

namespace Site

/-- The visits that the evaluation of a node can make. -/
inductive Leads : Site α → Site α → Prop
  | operand {σ a code es e calls} : code.isPlain → e ∈ es →
      Leads ⟨σ, .op a code es, calls⟩ ⟨σ, e, calls⟩
  | name {σ a code es e calls} : code = .lookup ∨ code = .call → e.name? = none →
      Leads ⟨σ, .op a code (e :: es), calls⟩ ⟨σ, e, calls⟩
  | bindingName {σ a es frame n v rest calls} : Binds es frame (n :: v :: rest) → n.name? = none →
      Leads ⟨σ, .op a .scope es, calls⟩ ⟨σ, n, calls⟩
  | bindingValue {σ a es frame n v rest calls} : Binds es frame (n :: v :: rest) →
      v.isLambda = false → Leads ⟨σ, .op a .scope es, calls⟩ ⟨σ, v, calls⟩
  | scopeBody {σ a es frame b calls} : Binds es frame [b] →
      Leads ⟨σ, .op a .scope es, calls⟩ ⟨σ.push frame, b, calls⟩
  | argument {σ a n es e calls name depth l} : n.MayName name →
      σ.lambda? name = some (depth, l) → l.busy = false → l.params.length = es.length → e ∈ es →
      Leads ⟨σ, .op a .call (n :: es), calls⟩ ⟨σ.mark depth name true, e, l.label :: calls⟩
  | lambdaBody {σ a n es frame calls name depth l} : n.MayName name →
      σ.lambda? name = some (depth, l) → l.busy = false → l.params.length = es.length →
      IsParamFrame l.params frame → Leads ⟨σ, .op a .call (n :: es), calls⟩
        ⟨((σ.mark depth name true).narrow depth).push frame, l.body, l.label :: calls⟩
  | hostArgument {σ a n es e calls name} : n.MayName name → σ.lambda? name = none → e ∈ es →
      Leads ⟨σ, .op a .call (n :: es), calls⟩ ⟨σ, e, calls⟩

/-- The errors that can arise at a node itself. -/
inductive Fault (setting : Setting) : Site α → EvalError α → Prop
  | literal {σ a s calls} : s.isValid = false → Fault setting ⟨σ, .lit a s, calls⟩ (.overflow a)
  | arity {σ a code es calls} : code.arity.accepts es.length = false →
      Fault setting ⟨σ, .op a code es, calls⟩ (.invalidArity a code code.arity es.length)
  | plain {σ a code es calls err} : code.isPlain → PlainFault code err →
      Fault setting ⟨σ, .op a code es, calls⟩ (err.map fun _ => a)
  | lambda {σ a es calls} : Fault setting ⟨σ, .op a .lambda es, calls⟩ (.misplacedLambda a)
  | name {σ a code es e calls} : code = .lookup ∨ code = .call → e.name? = none →
      Fault setting ⟨σ, .op a code (e :: es), calls⟩ (.invalidName a code)
  | bindingName {σ a es frame n v rest calls} : Binds es frame (n :: v :: rest) →
      n.name? = none → Fault setting ⟨σ, .op a .scope es, calls⟩ (.invalidName a .scope)
  | duplicateConstant {σ a es frame n v rest calls name} : Binds es frame (n :: v :: rest) →
      n.MayName name → v.isLambda = false → (frame.constants.find? name).isSome →
      Fault setting ⟨σ, .op a .scope es, calls⟩ (.duplicateName a name .constant)
  | duplicateLambda {σ a es frame n label ps rest calls name} :
      Binds es frame (n :: .op label .lambda ps :: rest) → n.MayName name →
      (frame.lambdas.find? name).isSome →
      Fault setting ⟨σ, .op a .scope es, calls⟩ (.duplicateName a name .lambda)
  | declare {σ a es frame n label ps rest calls err} :
      Binds es frame (n :: .op label .lambda ps :: rest) → Lambda.declare label ps = .error err →
      Fault setting ⟨σ, .op a .scope es, calls⟩ err
  | lookup {σ a e calls name} : e.MayName name → σ.constant? name = none →
      Fault setting ⟨σ, .op a .lookup [e], calls⟩ (.uninitializedVariable a name)
  | lambdaArity {σ a n es calls name depth l} : n.MayName name →
      σ.lambda? name = some (depth, l) → l.params.length ≠ es.length →
      Fault setting ⟨σ, .op a .call (n :: es), calls⟩
        (.lambdaArity a name l.params.length es.length)
  | recursion {σ a n es calls name depth l} : n.MayName name →
      σ.lambda? name = some (depth, l) → l.busy →
      Fault setting ⟨σ, .op a .call (n :: es), calls⟩ (.recursion a name)
  | host {σ a n es calls name err} : n.MayName name → σ.lambda? name = none →
      HostFault setting name err →
      Fault setting ⟨σ, .op a .call (n :: es), calls⟩ (err.map fun _ => a)
  | limitExceeded {κ excess} : setting.limits.bound (.counter excess.counter) = some excess.bound →
      excess.bound < excess.value → Fault setting κ (.limitExceeded excess)
  | timeout {κ budget} : setting.limits.bound .evaluationTime = some budget →
      Fault setting κ (.timeout budget)

/-- What can be noted at a node itself, except that a call is over. -/
inductive Notes : Site α → Event α → Prop
  | visit {κ} : Notes κ (.visit κ.expr.label)
  | external {σ a n es calls name} : n.MayName name → σ.lambda? name = none →
      Notes ⟨σ, .op a .call (n :: es), calls⟩ (.external a name)
  | enter {σ a n es calls name depth l} : n.MayName name → σ.lambda? name = some (depth, l) →
      l.busy = false → Notes ⟨σ, .op a .call (n :: es), calls⟩ (.enter a l.label)

/-- The names of the host calls that can be invoked at a node itself. -/
inductive Invokes (setting : Setting) : Site α → String → Prop
  | call {σ a n es calls name} : n.MayName name → σ.lambda? name = none →
      (setting.host.find? name).isSome →
      Invokes setting ⟨σ, .op a .call (n :: es), calls⟩ name

end Site

/-! ### What the scopes hold -/

theorem Binds.suffix {es rest : List (Expr α)} {frame : Frame α} (h : Binds es frame rest) :
    rest <:+ es := by
  induction h with
  | start => exact List.suffix_refl _
  | constant _ _ _ _ _ ih | lambda _ _ _ _ ih =>
    exact ((List.suffix_cons _ _).trans (List.suffix_cons _ _)).trans ih

/-- The constants that a scope declares are valid. -/
theorem Binds.constants {es rest : List (Expr α)} {frame : Frame α} (h : Binds es frame rest) :
    ∀ name v, frame.constants.find? name = some v → v.isValid := by
  induction h with
  | start => simp [Frame.empty]
  | constant _ _ _ hvalid hnew ih =>
    obtain ⟨-, rfl⟩ := Frame.bindConstant?_eq_some.1 hnew
    intro other v hv
    rw [NameMap.find?_insert] at hv
    split at hv
    · exact Option.some.inj hv ▸ hvalid
    · exact ih other v hv
  | lambda _ _ _ hnew ih =>
    obtain ⟨-, rfl⟩ := Frame.bindLambda?_eq_some.1 hnew
    exact ih

/-- The lambdas that a scope declares come from its operands. -/
theorem Binds.lambdas {es rest : List (Expr α)} {frame : Frame α} (h : Binds es frame rest) :
    ∀ name l, frame.lambdas.find? name = some l →
      ∃ ps, Expr.op l.label .lambda ps ∈ es ∧ Lambda.declare l.label ps = .ok l := by
  induction h with
  | start => simp [Frame.empty]
  | constant _ _ _ _ hnew ih =>
    obtain ⟨-, rfl⟩ := Frame.bindConstant?_eq_some.1 hnew
    exact ih
  | lambda hb _ hdecl hnew ih =>
    obtain ⟨-, rfl⟩ := Frame.bindLambda?_eq_some.1 hnew
    intro other l hl
    rw [NameMap.find?_insert] at hl
    split at hl
    · obtain rfl := Option.some.inj hl
      rw [(Lambda.declare_eq_ok hdecl).1]
      exact ⟨_, hb.suffix.subset (by simp), hdecl⟩
    · exact ih other l hl

namespace Site

variable {κ κ' : Site α}

/-- A property of frames that marks do not matter to is kept if the frames of scopes and those of
parameters have it. -/
theorem Leads.frames {P : Frame α → Prop} (h : κ.Leads κ')
    (hmark : ∀ f name busy, P f → P (f.mark name busy)) (hκ : ∀ f ∈ κ.scopes.visible, P f)
    (hscope : ∀ a es frame rest, κ.expr = .op a .scope es → Binds es frame rest → P frame)
    (hparams : ∀ params frame, IsParamFrame params frame → P frame) :
    ∀ f ∈ κ'.scopes.visible, P f := by
  have hmarked {σ : ScopeStack α} {name depth l busy} (hσ : ∀ f ∈ σ.visible, P f)
      (hl : σ.lambda? name = some (depth, l)) : ∀ f ∈ (σ.mark depth name busy).visible, P f := by
    intro f hf
    obtain ⟨g, hg, rfl | rfl⟩ := ScopeStack.mem_visible_mark hl hf
    · exact hσ f hg
    · exact hmark g name busy (hσ g hg)
  cases h with
  | operand | name | bindingName | bindingValue | hostArgument => exact hκ
  | scopeBody hb => exact List.forall_mem_cons.2 ⟨hscope _ _ _ _ rfl hb, hκ⟩
  | argument _ hl => exact hmarked hκ hl
  | lambdaBody _ hl _ _ hp =>
    refine List.forall_mem_cons.2 ⟨hparams _ _ hp, fun f hf => ?_⟩
    exact hmarked hκ hl f (ScopeStack.mem_visible_of_narrow hf)

/-- Every visible lambda has a property. -/
def Lambdas (P : Lambda α → Prop) (κ : Site α) : Prop :=
  ∀ f ∈ κ.scopes.visible, ∀ name l, f.lambdas.find? name = some l → P l

/-- A property of the visible lambdas that does not depend on which ones are busy is kept if the
lambdas that the expression itself declares have it. -/
theorem Leads.lambdas {P : Lambda α → Prop} (h : κ.Leads κ')
    (hP : ∀ l busy, P { l with busy := busy } → P l) (hκ : κ.Lambdas P)
    (hdecl : ∀ a code es label ps l, κ.expr = .op a code es → Expr.op label .lambda ps ∈ es →
      Lambda.declare label ps = .ok l → P l) : κ'.Lambdas P := by
  refine h.frames (fun f marked busy hf name l hl => ?_) hκ ?_ ?_
  · obtain ⟨was, hl⟩ := Frame.find?_of_mark hl
    exact hP l was (hf name _ hl)
  · intro a es frame rest he hb name l hl
    obtain ⟨ps, hmem, hok⟩ := hb.lambdas name l hl
    exact hdecl _ _ _ _ ps l he hmem hok
  · intro params frame hp name l hl
    rw [hp.lambdas] at hl
    cases hl

/-- The site of a whole expression. -/
def start (e : Expr α) : Site α := ⟨.empty, e, []⟩

/-- The expression and the bodies of the visible lambdas have a property. -/
structure Everywhere (P : Expr α → Prop) (κ : Site α) : Prop where
  expr : P κ.expr
  bodies : κ.Lambdas fun l => P l.body

/-- A property of the operands is kept if the operands of lambda nodes inherit it. -/
theorem Leads.everywhere_of_operands {P : Expr α → Prop} (h : κ.Leads κ') (hκ : κ.Everywhere P)
    (hop : ∀ a code es, κ.expr = .op a code es → ∀ e ∈ es, P e)
    (hlambda : ∀ label ps, P (.op label .lambda ps) → ∀ e ∈ ps, P e) : κ'.Everywhere P := by
  refine ⟨?_, h.lambdas (fun _ _ hl => hl) hκ.bodies ?_⟩
  · cases h with
    | operand _ he => exact hop _ _ _ rfl _ he
    | name => exact hop _ _ _ rfl _ List.mem_cons_self
    | bindingName hb | bindingValue hb | scopeBody hb =>
      exact hop _ _ _ rfl _ (hb.suffix.subset (by simp))
    | argument _ _ _ _ he | hostArgument _ _ he =>
      exact hop _ _ _ rfl _ (List.mem_cons_of_mem _ he)
    | lambdaBody _ hl =>
      obtain ⟨f, hf, hfl⟩ := ScopeStack.exists_mem_of_lambda? hl
      exact hκ.bodies f hf _ _ hfl
  · intro a code es label ps l he hmem hdecl
    obtain ⟨-, -, -, qs, hps, -⟩ := Lambda.declare_eq_ok hdecl
    exact hlambda label ps (hop a code es he _ hmem) l.body (by simp [hps])

/-- A property that operands inherit is kept. -/
theorem Leads.everywhere {P : Expr α → Prop} (h : κ.Leads κ') (hκ : κ.Everywhere P)
    (hP : ∀ a code es, P (.op a code es) → ∀ e ∈ es, P e) : κ'.Everywhere P :=
  h.everywhere_of_operands hκ (fun a code es he => hP a code es (he ▸ hκ.expr))
    fun label ps => hP label .lambda ps

theorem everywhere_start {P : Expr α → Prop} {e : Expr α} (h : P e) :
    (start e).Everywhere P :=
  ⟨h, nofun⟩

/-- What holds of the scopes at every site: the constants are valid and the parameters of a lambda
have different names. -/
structure Sound (κ : Site α) : Prop where
  constants : ∀ f ∈ κ.scopes.visible, ∀ name v, f.constants.find? name = some v → v.isValid
  lambdas : κ.Lambdas fun l => l.params.Nodup

theorem sound_start (e : Expr α) : (start e).Sound :=
  ⟨nofun, nofun⟩

/-- Soundness holds of every visit that a sound site leads to. -/
theorem Leads.sound (h : κ.Leads κ') (hs : κ.Sound) : κ'.Sound where
  constants := h.frames (fun _ _ _ hf => hf) hs.constants (fun _ _ _ _ _ hb => hb.constants)
    fun _ _ hp => hp.valid
  lambdas := by
    refine h.lambdas (fun _ _ hl => hl) hs.lambdas fun _ _ _ _ _ l _ _ hok => ?_
    obtain ⟨-, -, hnodup, -⟩ := Lambda.declare_eq_ok hok
    exact hnodup

end Site

end OpTree
