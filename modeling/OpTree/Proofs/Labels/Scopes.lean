import OpTree.Eval.Basic
import OpTree.Proofs.Evaluation.Stack

/-!
# Relabelling scopes and runs

The labels of an expression appear again in all that its evaluation keeps and reports: in the
lambdas that scopes declare, in events and in errors. So relabelling extends to scope stacks, states
and runs. It changes nothing that a scope stack is asked for, and what is done to a stack can be
done before or after.
-/

namespace OpTree

variable {α β γ : Type}

/-! ### Errors -/

/-- Relabelling twice is relabelling once. -/
theorem EvalError.map_map (g : β → γ) (f : α → β) (err : EvalError α) :
    (err.map f).map g = err.map (g ∘ f) := by
  cases err <;> rfl

/-! ### Maps from names -/

namespace NameMap

/-- Replaces every value. -/
def map (f : β → γ) (m : NameMap β) : NameMap γ :=
  ⟨m.entries.map fun entry => (entry.1, f entry.2)⟩

variable (f : β → γ) (m : NameMap β) (name : String)

/-- What is found in a mapped table is the image of what is found in the table. -/
@[simp]
theorem find?_map : (m.map f).find? name = (m.find? name).map f := by
  obtain ⟨entries⟩ := m
  simp only [map, find?]
  induction entries with
  | nil => rfl
  | cons entry rest ih =>
    rw [List.map_cons, List.lookup_cons, List.lookup_cons, ih]
    cases name == entry.1 <;> rfl

/-- Writing a name before or after the mapping comes to the same. -/
theorem map_insert (value : β) : (m.insert name value).map f = (m.map f).insert name (f value) := by
  simp only [map, insert, erase, List.map_cons, List.filter_map]
  rfl

private theorem modify_cons (entry : String × β) (rest : List (String × β)) (change : β → β) :
    (mk (entry :: rest)).modify name change =
      if entry.1 = name then mk ((entry.1, change entry.2) :: rest)
      else mk (entry :: ((mk rest).modify name change).entries) := by
  split
  · exact congrArg mk (if_pos ‹_›)
  · exact congrArg mk (if_neg ‹_›)

/-- A change of a value can be made before or after. -/
theorem map_modify {change : β → β} {change' : γ → γ} (h : ∀ v, f (change v) = change' (f v)) :
    (m.modify name change).map f = (m.map f).modify name change' := by
  obtain ⟨entries⟩ := m
  induction entries with
  | nil => rfl
  | cons entry rest ih =>
    have hmap : (mk (entry :: rest)).map f
        = mk ((entry.1, f entry.2) :: ((mk rest).map f).entries) := rfl
    rw [hmap, modify_cons, modify_cons]
    by_cases hn : entry.1 = name
    · rw [if_pos hn, if_pos hn, ← h]
      rfl
    · rw [if_neg hn, if_neg hn]
      exact congrArg (fun m => mk ((entry.1, f entry.2) :: NameMap.entries m)) ih

end NameMap

/-! ### Scopes -/

namespace Lambda

/-- Relabels a lambda and its body. -/
def map (f : α → β) (l : Lambda α) : Lambda β :=
  ⟨f l.label, l.params, l.body.map f, l.busy⟩

/-- The names of parameters are those of the relabelled ones. -/
private theorem paramNames_map (f : α → β) (node : α) (es : List (Expr α)) : ∀ seen,
    paramNames (f node) seen (es.map (Expr.map f))
      = (paramNames node seen es).mapError (EvalError.map f) := by
  induction es with
  | nil => exact fun seen => rfl
  | cons e es ih =>
    intro seen
    rw [List.map_cons, paramNames, paramNames, Expr.name?_map]
    cases e.name? with
    | none => rfl
    | some name =>
      dsimp only
      split
      · rfl
      · rw [ih]
        cases paramNames node (name :: seen) es <;> rfl

/-- A relabelled lambda node declares the relabelled lambda. -/
theorem declare_map (f : α → β) (node : α) (es : List (Expr α)) :
    declare (f node) (es.map (Expr.map f))
      = ((declare node es).map (map f)).mapError (EvalError.map f) := by
  rw [declare, declare, List.getLast?_map]
  cases es.getLast? with
  | none => rfl
  | some body =>
    dsimp only [Option.map_some]
    rw [← List.map_dropLast, paramNames_map]
    cases paramNames node [] es.dropLast <;> rfl

end Lambda

namespace Frame

/-- Relabels the lambdas of a frame. -/
def map (f : α → β) (frame : Frame α) : Frame β :=
  ⟨frame.constants, frame.lambdas.map (Lambda.map f)⟩

variable (f : α → β) (frame : Frame α) (name : String)

/-- A relabelled lambda is declared where the lambda is. -/
theorem bindLambda?_map (l : Lambda α) :
    (frame.map f).bindLambda? name (l.map f) = (frame.bindLambda? name l).map (map f) := by
  have hlambdas : (frame.map f).lambdas = frame.lambdas.map (Lambda.map f) := rfl
  rw [bindLambda?, bindLambda?, NameMap.contains, NameMap.contains, hlambdas, NameMap.find?_map,
    Option.isSome_map, ← NameMap.map_insert]
  split <;> rfl

theorem map_mark (busy : Bool) : (frame.mark name busy).map f = (frame.map f).mark name busy :=
  congrArg (mk frame.constants) (NameMap.map_modify _ _ _ fun _ => rfl)

end Frame

namespace ScopeStack

/-- Relabels all frames. -/
def map (f : α → β) (stack : ScopeStack α) : ScopeStack β :=
  ⟨stack.visible.map (Frame.map f), stack.hidden.map (List.map (Frame.map f))⟩

variable (f : α → β) (stack : ScopeStack α) (name : String)

/-- Constants have no labels. -/
@[simp]
theorem constant?_map : (stack.map f).constant? name = stack.constant? name :=
  List.findSome?_map

/-- A lambda is found at the same depth. -/
private theorem lambdaIn?_map (frames : List (Frame α)) :
    lambdaIn? name (frames.map (Frame.map f))
      = (lambdaIn? name frames).map fun found => (found.1, found.2.map f) := by
  induction frames with
  | nil => rfl
  | cons frame outer ih =>
    have hlambdas : (frame.map f).lambdas = frame.lambdas.map (Lambda.map f) := rfl
    rw [List.map_cons, lambdaIn?, lambdaIn?, hlambdas, NameMap.find?_map, ih, List.length_map]
    cases frame.lambdas.find? name <;> rfl

/-- A name refers to the relabelled lambda. -/
@[simp]
theorem lambda?_map : (stack.map f).lambda? name
    = (stack.lambda? name).map fun found => (found.1, found.2.map f) :=
  lambdaIn?_map f name stack.visible

theorem map_push (frame : Frame α) : (stack.push frame).map f = (stack.map f).push (frame.map f) :=
  rfl

theorem map_narrow (depth : Nat) : (stack.narrow depth).map f = (stack.map f).narrow depth := by
  simp only [map, narrow, List.map_cons, List.map_take, List.map_drop, List.length_map]

/-- Frames can be marked before or after. -/
theorem map_mark {depth : Nat} {l : Lambda α} (h : stack.lambda? name = some (depth, l))
    (busy : Bool) : (stack.mark depth name busy).map f = (stack.map f).mark depth name busy := by
  obtain ⟨inner, frame, outer, hs, hd, -, -⟩ := lambdaIn?_eq_some.1 h
  have hs' : (stack.map f).visible
      = inner.map (Frame.map f) ++ frame.map f :: outer.map (Frame.map f) := by
    simp only [map, hs, List.map_append, List.map_cons]
  have hvisible : ((stack.mark depth name busy).map f).visible
      = ((stack.map f).mark depth name busy).visible := by
    rw [visible_mark hs' (by simpa using hd), ← Frame.map_mark]
    simp only [map, visible_mark hs hd, List.map_append, List.map_cons]
  exact congrArg (mk · (stack.hidden.map (List.map (Frame.map f)))) hvisible

end ScopeStack

/-! ### States and runs -/

/-- Relabels the nodes that an event is about. -/
def Event.map (f : α → β) : Event α → Event β
  | visit node => visit (f node)
  | external node name => external (f node) name
  | enter node lambda => enter (f node) (f lambda)
  | leave => leave

/-- Relabels what a state holds. -/
def State.map (f : α → β) (c : State α) : State β :=
  ⟨c.scopes.map f, c.usage, c.clock, c.history, c.trace.map (Event.map f)⟩

/-- Relabels what a run reports. -/
def Run.map (f : α → β) (run : Run α) : Run β :=
  ⟨run.outcome.mapError (EvalError.map f), run.calls, run.trace.map (Event.map f)⟩

end OpTree
