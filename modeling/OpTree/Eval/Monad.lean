import OpTree.ScopeStack
import OpTree.Host.Table

/-!
# The state of an evaluation

An evaluation runs in a `Setting` that does not change, and keeps its scopes, its usage, a clock,
the host calls it has made and a trace in a `State`. `EvalM` is a computation over both: it ends
with a value or an error, and leaves a state behind in either case.
-/

namespace OpTree

/-- How an overlong host call is dealt with. -/
inductive Executor where
  /-- A timer cuts the call off. -/
  | timed
  /-- The call runs to its end, and fails afterwards. -/
  | untimed
deriving DecidableEq, Repr

/-- What an evaluation is given. -/
structure Setting where
  limits : Limits
  host : Host
  executor : Executor

/-- Something that happens in an evaluation. -/
inductive Event (α : Type) where
  /-- A node is visited. -/
  | visit (node : α)
  /-- A call names no visible lambda, and so it names a host call. -/
  | external (node : α) (name : String)
  /-- A call of a lambda begins. -/
  | enter (node lambda : α)
  /-- The call of a lambda that began last is over. -/
  | leave
deriving DecidableEq, Repr

/-- What an evaluation has come to. -/
structure State (α : Type) where
  scopes : ScopeStack α
  usage : Usage
  /-- The milliseconds that have passed; only host calls take time. -/
  clock : Nat
  /-- The host calls made, the latest first. -/
  history : List Invocation
  /-- What happened, the latest first. -/
  trace : List (Event α)

namespace State

variable {α : Type}

/-- The state in which an evaluation starts. -/
def start : State α := ⟨.empty, .zero, 0, [], []⟩

/-- Adds to the trace. -/
def note (state : State α) (event : Event α) : State α :=
  { state with trace := event :: state.trace }

end State

/-- A step of an evaluation. -/
def EvalM (α β : Type) : Type :=
  Setting → State α → Except (EvalError α) β × State α

namespace EvalM

variable {α β γ : Type}

/-- Ends with a value. -/
protected def pure (b : β) : EvalM α β := fun _ state => (.ok b, state)

/-- Goes on with the value of a step; an error ends both. -/
protected def bind (x : EvalM α β) (f : β → EvalM α γ) : EvalM α γ := fun setting state =>
  match x setting state with
  | (.ok b, state) => f b setting state
  | (.error e, state) => (.error e, state)

instance : Monad (EvalM α) where
  pure := EvalM.pure
  bind := EvalM.bind

/-- Ends with an error. -/
def fail (error : EvalError α) : EvalM α β := fun _ state => (.error error, state)

/-- Ends as a pure computation does. -/
def ofExcept (x : Except (EvalError α) β) : EvalM α β := fun _ state => (x, state)

/-- The setting. -/
def setting : EvalM α Setting := fun setting state => (.ok setting, state)

/-- The state. -/
def state : EvalM α (State α) := fun _ state => (.ok state, state)

/-- Changes the state. -/
def modify (change : State α → State α) : EvalM α Unit := fun _ state =>
  (.ok (), change state)

/-- Adds to the trace. -/
def note (event : Event α) : EvalM α Unit :=
  modify (·.note event)

/-- Changes the scope stack. -/
def modifyScopes (change : ScopeStack α → ScopeStack α) : EvalM α Unit :=
  modify fun state => { state with scopes := change state.scopes }

/-- Changes the usage. -/
def modifyUsage (change : Usage → Usage) : EvalM α Unit :=
  modify fun state => { state with usage := change state.usage }

/-- Runs a step and then changes the state, whether the step ends with a value or an error. -/
def andFinally (x : EvalM α β) (change : State α → State α) : EvalM α β :=
  fun setting state =>
    let (result, state) := x setting state
    (result, change state)

/-! ### Laws -/

theorem pure_apply (b : β) (s : Setting) (c : State α) :
    (pure b : EvalM α β) s c = (.ok b, c) := rfl

theorem bind_apply (x : EvalM α β) (f : β → EvalM α γ) (s : Setting) (c : State α) :
    (x >>= f) s c =
      match x s c with
      | (.ok b, c) => f b s c
      | (.error e, c) => (.error e, c) := rfl

/-- A sequence ends with a value if both parts do. -/
theorem bind_eq_ok {x : EvalM α β} {f : β → EvalM α γ} {s : Setting} {c d : State α} {b : γ} :
    (x >>= f) s c = (.ok b, d) ↔ ∃ a c', x s c = (.ok a, c') ∧ f a s c' = (.ok b, d) := by
  rw [bind_apply]
  rcases x s c with ⟨_ | a, c'⟩
  · exact ⟨nofun, fun ⟨_, _, h, _⟩ => nomatch h⟩
  · exact ⟨fun h => ⟨a, c', rfl, h⟩, fun ⟨_, _, h, h'⟩ => by cases h; exact h'⟩

instance : LawfulMonad (EvalM α) :=
  .mk' _
    (fun x => by
      funext s c
      change EvalM.bind x (EvalM.pure ∘ id) s c = x s c
      simp only [EvalM.bind]
      rcases x s c with ⟨_ | _, _⟩ <;> rfl)
    (fun _ _ => rfl)
    (fun x f g => by
      funext s c
      change EvalM.bind (EvalM.bind x f) g s c = EvalM.bind x (fun b => EvalM.bind (f b) g) s c
      simp only [EvalM.bind]
      rcases x s c with ⟨_ | _, _⟩ <;> rfl)

end EvalM

end OpTree
