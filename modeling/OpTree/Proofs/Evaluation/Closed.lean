import OpTree.Proofs.Evaluation.Calls
import OpTree.Proofs.Evaluation.Related

/-!
# Properties of all steps

What is true of every step of an evaluation, whatever the state it starts in, is proved once for
each way in which steps are put together. `Composed visit S` lists these ways for a property `S`:
plain steps, sequences, and the few steps that count, enter a scope or call the host. Only these can
find that a limit is exceeded. `Composed.apply` then says that every operator has the property, the
visits of its operands having it, and `Composed.answer` says so of every node. Nothing has to be
known about the scopes for that, and so no site is mentioned. `Closed` is the same for a property
that host calls have whatever the host may be.

What entering a scope and calling the host come to is spelled out in `Eval.inScope_apply` and
`Eval.invoke_apply`.
-/

namespace OpTree

variable {α β γ : Type}

/-- Whether the event is that a call names no visible lambda. -/
def Event.isExternal : Event α → Bool
  | .external _ _ => true
  | _ => false

namespace State

/-- The events so far of calls that named no visible lambda, the latest first. -/
def externals (c : State α) : List (Event α) := c.trace.filter Event.isExternal

/-- A scope is entered. -/
def enterScope (c : State α) (frame : Frame α) : State α :=
  { c with usage := c.usage.openScope, scopes := c.scopes.push frame }

/-- The innermost scope is left. -/
def leaveScope (c : State α) : State α :=
  { c with scopes := c.scopes.pop, usage := c.usage.closeScope }

end State

namespace Eval

open EvalM

/-! ### Scopes and host calls -/

/-- The value of a reply, which has to be valid. -/
def receive (node : α) (name : String) (reply : Reply) : EvalM α Scalar := do
  let value ← await node name reply
  if value.isValid then
    countString value
    return value
  else
    fail (.invalidCallReturn node name)

/-- A reply depends on the host calls before, and is received with the call among them. -/
theorem invoke_apply (node : α) (name : String) (call : HostCall) (values : List Scalar)
    (s : Setting) (c : State α) :
    invoke node name call values s c =
      receive node name (call.reply s.host.lookups c.history values) s
        { c with history := ⟨name, values⟩ :: c.history } := rfl

/-- A scope is entered, its body is evaluated, and the scope is left in any case. -/
theorem inScope_apply (frame : Frame α) (x : EvalM α Scalar) (s : Setting) (c : State α) :
    inScope frame x s c =
      ((x s (c.enterScope frame)).1, (x s (c.enterScope frame)).2.leaveScope) := rfl

/-- Invokes the host call of a name, if there is one. -/
def invokeNamed (visit : Expr α → EvalM α Scalar) (node : α) (name : String)
    (args : List (Expr α)) (host : Host) : EvalM α Scalar :=
  match host.find? name with
  | some call => arguments visit args >>= invoke node name call
  | none => fail (.undefinedCall node name)

/-! ### What is closed -/

/-- The change leaves alone what is counted, the clock and the host calls with their events, and
forgets no event. -/
structure Quiet (change : State α → State α) : Prop where
  usage : ∀ c, (change c).usage = c.usage
  clock : ∀ c, (change c).clock = c.clock
  history : ∀ c, (change c).history = c.history
  trace : ∀ c, c.trace <:+ (change c).trace
  externals : ∀ c, (change c).externals = c.externals

namespace Quiet

/-- Scopes may change. -/
theorem scopes (change : ScopeStack α → ScopeStack α) :
    Quiet fun c : State α => { c with scopes := change c.scopes } :=
  ⟨fun _ => rfl, fun _ => rfl, fun _ => rfl, fun _ => List.suffix_refl _, fun _ => rfl⟩

/-- Events other than host calls may be noted. -/
theorem note {event : Event α} (h : ¬ event.isExternal) : Quiet fun c : State α => c.note event :=
  ⟨fun _ => rfl, fun _ => rfl, fun _ => rfl, fun _ => List.suffix_cons _ _,
    fun _ => List.filter_cons_of_neg h⟩

/-- Among them is that a lambda is entered. -/
theorem enter (node lambda : α) : Quiet fun c : State α => c.note (.enter node lambda) :=
  note Bool.false_ne_true

/-- Among them is that it is left. -/
theorem leave : Quiet fun c : State α => c.note .leave :=
  note Bool.false_ne_true

theorem trans {change change' : State α → State α} (h : Quiet change) (h' : Quiet change') :
    Quiet fun c => change' (change c) :=
  ⟨fun c => (h'.usage _).trans (h.usage c), fun c => (h'.clock _).trans (h.clock c),
    fun c => (h'.history _).trans (h.history c), fun c => (h.trace c).trans (h'.trace _),
    fun c => (h'.externals _).trans (h.externals c)⟩

end Quiet

/-- A property that steps have as soon as their parts do. -/
structure Composed (visit : Expr α → EvalM α Scalar) (S : ∀ {β : Type}, EvalM α β → Prop) :
    Prop where
  pure : ∀ {β : Type} (b : β), S (pure b : EvalM α β)
  fail : ∀ {β : Type} (err : EvalError α), (∀ x, err ≠ .limitExceeded x) →
    S (fail err : EvalM α β)
  bind : ∀ {β γ : Type} {x : EvalM α β} {f : β → EvalM α γ}, S x → (∀ b, S (f b)) → S (x >>= f)
  state : S state
  modify : ∀ {change}, Quiet change → S (modify change)
  andFinally : ∀ {β : Type} {x : EvalM α β} {change}, S x → Quiet change →
    S (x.andFinally change)
  countVar : S countVar
  countString : ∀ v, S (countString v)
  visits : ∀ e, S (visit e)
  inScope : ∀ frame e, S (inScope frame (visit e))
  callHost : ∀ node name es, S (arguments visit es) → S (Comparison.callHost visit node name es)

/-- A property that steps have as soon as their parts do, and that every host call has. -/
structure Closed (visit : Expr α → EvalM α Scalar) (S : ∀ {β : Type}, EvalM α β → Prop) : Prop
    extends Composed visit S where
  host : ∀ {β : Type} {k : Host → EvalM α β}, (∀ host, S (k host)) →
    S (setting >>= fun setting => k setting.host)
  external : ∀ node name, S (note (.external node name))
  invoke : ∀ node name call values, S (invoke node name call values)
  callHost := fun node name es hes =>
    bind (external node name) fun _ =>
      host (k := invokeNamed visit node name es) fun host => by
        rw [invokeNamed]
        split
        · exact bind hes fun values => invoke node name _ values
        · exact fail _ (by simp)

namespace Composed

variable {visit : Expr α → EvalM α Scalar} {S : ∀ {β : Type}, EvalM α β → Prop} {node : α}
  {code : Operator}

/-- A name is spelled out, or it is the value of a visit. -/
theorem nameOf (h : Composed visit S) (e : Expr α) : S (nameOf visit node code e) := by
  rw [Eval.nameOf]
  split
  · exact h.pure _
  · refine h.bind (h.visits e) fun v => ?_
    split
    · exact h.pure _
    · exact h.fail _ (by simp)

/-- A number is the value of a visit. -/
theorem numberOf (h : Composed visit S) (e : Expr α) : S (numberOf visit node code e) := by
  refine h.bind (h.visits e) fun v => ?_
  split
  · exact h.pure _
  · exact h.pure _
  · exact h.fail _ (by simp)

/-- Sums and products visit their operands one after the other. -/
theorem accumulate (h : Composed visit S) (combine : Float → Float → Float) (es : List (Expr α)) :
    ∀ total, S (accumulate visit node code combine total es) := by
  induction es with
  | nil => exact fun total => h.pure _
  | cons e es ih =>
    intro total
    refine h.bind (h.numberOf e) fun x => ?_
    split
    · exact h.pure _
    · dsimp only
      split
      · exact ih _
      · exact h.fail _ (by simp)

/-- Both operands are visited before anything is made of their numbers. -/
theorem withNumbers (h : Composed visit S) {f : Float → Float → EvalM α Scalar}
    (hf : ∀ x y, S (f x y)) (e₁ e₂ : Expr α) : S (withNumbers visit node code e₁ e₂ f) := by
  refine h.bind (h.numberOf e₁) fun x => ?_
  split
  · exact h.pure _
  · refine h.bind (h.numberOf e₂) fun y => ?_
    split
    · exact h.pure _
    · exact hf _ _

/-- Division may fail on its own. -/
theorem divide (h : Composed visit S) (quotient : Float → Float → Float) (x y : Float) :
    S (divide node quotient x y) := by
  rw [Eval.divide]
  split
  · exact h.fail _ (by simp)
  · rw [Eval.finite]
    split
    · exact h.pure _
    · exact h.fail _ (by simp)

/-- Connectives visit operands until the result is decided. -/
theorem connect (h : Composed visit S) (combine : Bool → Bool → Bool) (es : List (Expr α)) :
    ∀ result, S (connect visit combine result es) := by
  induction es with
  | nil => exact fun result => h.pure _
  | cons e es ih =>
    intro result
    refine h.bind (h.visits e) fun v => ?_
    split
    · exact h.pure _
    · exact ih _

/-- Comparisons visit both operands. -/
theorem compareEqual (h : Composed visit S) (e₁ e₂ : Expr α) (expected : Bool) :
    S (compareEqual visit e₁ e₂ expected) := by
  refine h.bind (h.visits e₁) fun v => ?_
  split
  · exact h.pure _
  · refine h.bind (h.visits e₂) fun w => ?_
    split <;> exact h.pure _

/-- A condition visits its tests and one of its values. -/
theorem choose (h : Composed visit S) (es : List (Expr α)) : S (choose visit es) := by
  fun_induction Eval.choose visit es with
  | case1 => exact h.pure _
  | case2 e => exact h.visits e
  | case3 guard e es ih =>
    refine h.bind (h.visits guard) fun v => ?_
    split
    · exact h.visits e
    · exact ih

/-- A coalescing operator visits operands until one gives a value. -/
theorem firstNonNull (h : Composed visit S) (es : List (Expr α)) :
    S (firstNonNull visit es) := by
  induction es with
  | nil => exact h.pure _
  | cons e es ih =>
    refine h.bind (h.visits e) fun v => ?_
    split
    · exact ih
    · exact h.pure _

/-- A lookup visits what computes its name. -/
theorem lookUp (h : Composed visit S) (e : Expr α) : S (lookUp visit node e) := by
  refine h.bind (h.nameOf e) fun name => h.bind h.state fun c => ?_
  split
  · exact h.bind (h.countString _) fun _ => h.pure _
  · exact h.fail _ (by simp)

/-- A declaration visits the value of a constant, and no lambda. -/
theorem declare (h : Composed visit S) (frame : Frame α) (name : String) (e : Expr α) :
    S (declare visit node frame name e) := by
  rw [Eval.declare.eq_def]
  split
  · rename_i label es
    have hof : S (ofExcept (Lambda.declare label es)) := by
      cases hdecl : Lambda.declare label es with
      | ok l => exact h.pure l
      | error err =>
        refine h.fail err fun x hx => ?_
        rcases Lambda.declare_eq_error hdecl with ⟨h, -⟩ | h | ⟨p, h⟩ <;> cases hx.symm.trans h
    refine h.bind hof fun l => ?_
    split
    · exact h.pure _
    · exact h.fail _ (by simp)
  · refine h.bind (h.visits e) fun v => ?_
    split
    · exact h.pure _
    · exact h.fail _ (by simp)

/-- A scope declares its bindings and visits its last operand inside of its frame. -/
theorem evalScope (h : Composed visit S) :
    ∀ (es : List (Expr α)) (frame : Frame α), S (evalScope visit node frame es)
  | [], _ => h.pure _
  | [e], frame => h.inScope frame e
  | n :: e :: es, frame => by
    refine h.bind (h.nameOf n) fun name => h.bind h.countVar fun _ => ?_
    exact h.bind (h.declare frame name e) fun new => h.evalScope es new

/-- Arguments are visited one after the other. -/
theorem arguments (h : Composed visit S) (es : List (Expr α)) : S (arguments visit es) := by
  induction es with
  | nil => exact h.pure _
  | cons e es ih => exact h.bind (h.visits e) fun v => h.bind ih fun vs => h.pure _

/-- So are those that are bound to parameters. -/
theorem bindParams (h : Composed visit S) :
    ∀ (params : List String) (es : List (Expr α)) (frame : Frame α),
      S (bindParams visit node frame params es)
  | [], _, _ => h.pure _
  | _ :: _, [], _ => h.pure _
  | p :: params, e :: es, frame => by
    refine h.bind (h.visits e) fun v => h.bind h.countVar fun _ => ?_
    split
    · exact h.bindParams params es _
    · exact h.fail _ (by simp)

/-- A call binds the parameters of a lambda and visits its body. -/
theorem callLambda (h : Composed visit S) (name : String) (depth : Nat) (lambda : Lambda α)
    (es : List (Expr α)) : S (callLambda visit node name depth lambda es) := by
  rw [Eval.callLambda]
  split
  · exact h.fail _ (by simp)
  · split
    · exact h.fail _ (by simp)
    · refine h.bind (h.modify (.enter _ _)) fun _ => ?_
      refine h.bind (h.modify (.scopes (·.mark depth name true))) fun _ => ?_
      refine h.andFinally ?_ ((Quiet.scopes (·.mark depth name false)).trans .leave)
      refine h.bind (h.bindParams _ es _) fun frame => ?_
      refine h.bind (h.modify (.scopes (·.narrow depth))) fun _ => ?_
      exact h.andFinally (h.inScope frame _) (.scopes (·.widen))

/-- A call is one of a lambda or of the host. -/
theorem evalCall (h : Composed visit S) (e : Expr α) (es : List (Expr α)) :
    S (evalCall visit node e es) := by
  refine h.bind (h.nameOf e) fun name => h.bind h.state fun c => ?_
  split
  · exact h.callLambda ..
  · exact h.callHost node name es (h.arguments es)

/-- **Every operator** has the property if the visits of its operands do. -/
theorem apply (h : Composed visit S) (code : Operator) (es : List (Expr α)) :
    S (apply visit node code es) := by
  rw [Eval.apply.eq_def]
  split
  · exact h.visits _
  · exact h.accumulate _ es none
  · exact h.accumulate _ es none
  · exact h.accumulate _ es none
  · exact h.withNumbers (h.divide _) _ _
  · exact h.withNumbers (h.divide _) _ _
  · exact h.bind (h.visits _) fun v => h.pure _
  · exact h.connect _ es _
  · exact h.connect _ es _
  · exact h.compareEqual _ _ _
  · exact h.compareEqual _ _ _
  · exact h.withNumbers (fun _ _ => h.pure _) _ _
  · exact h.withNumbers (fun _ _ => h.pure _) _ _
  · exact h.withNumbers (fun _ _ => h.pure _) _ _
  · exact h.withNumbers (fun _ _ => h.pure _) _ _
  · exact h.choose es
  · exact h.evalCall _ _
  · exact h.lookUp _
  · exact h.evalScope es _
  · exact h.firstNonNull es
  · exact h.bind (h.visits _) fun v => h.pure _
  · exact h.bind (h.visits _) fun v => h.pure _
  · exact h.fail _ (by simp)
  · exact h.fail _ (by simp)

end Composed

/-- What is left to do at a node once it has been counted. -/
def answer (visit : Expr α → EvalM α Scalar) : Expr α → EvalM α Scalar
  | .lit node value =>
    if value.isValid then do
      countString value
      return value
    else
      fail (.overflow node)
  | .op node code operands =>
    if code.arity.accepts operands.length then
      apply visit node code operands
    else
      fail (.invalidArity node code code.arity operands.length)

/-- The evaluation of a node is a tick and what the node does then. -/
theorem evalNode_eq (visit : Expr α → EvalM α Scalar) (e : Expr α) :
    evalNode visit e = tick e.label >>= fun _ => answer visit e := by
  cases e <;> rfl

/-- **Every node** has the property once it has been counted. -/
theorem Composed.answer {visit : Expr α → EvalM α Scalar} {S : ∀ {β : Type}, EvalM α β → Prop}
    (h : Composed visit S) (e : Expr α) : S (answer visit e) := by
  cases e with
  | lit node value =>
    rw [Eval.answer]
    split
    · exact h.bind (h.countString value) fun _ => h.pure value
    · exact h.fail _ (by simp)
  | op node code es =>
    rw [Eval.answer]
    split
    · exact h.apply code es
    · exact h.fail _ (by simp)

end Eval

end OpTree
