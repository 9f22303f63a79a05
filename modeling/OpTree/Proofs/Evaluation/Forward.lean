import OpTree.Proofs.Evaluation.Closed

/-!
# Evaluation takes nothing back

Counters only grow, host calls and events are only added, and in the end of a step as many scopes
are open as before (`State.Precedes`).

Main statement: `Eval.forward_eval`.
-/

namespace OpTree

variable {α β γ : Type}

/-- The one state may become the other: what has been counted, the host calls and the events are
still there, and the same number of scopes is open. -/
structure State.Precedes (c d : State α) : Prop where
  stats : ∀ counter, c.usage.stats.value counter ≤ d.usage.stats.value counter
  depth : d.usage.scopeDepth = c.usage.scopeDepth
  history : c.history <:+ d.history
  trace : c.trace <:+ d.trace

namespace State.Precedes

variable {c d e : State α}

theorem refl (c : State α) : c.Precedes c :=
  ⟨fun _ => Nat.le_refl _, rfl, List.suffix_refl _, List.suffix_refl _⟩

theorem trans (h : c.Precedes d) (h' : d.Precedes e) : c.Precedes e :=
  ⟨fun counter => Nat.le_trans (h.stats counter) (h'.stats counter), h'.depth.trans h.depth,
    h.history.trans h'.history, h.trace.trans h'.trace⟩

/-- A quiet change takes nothing back. -/
theorem of_quiet {change : State α → State α} (h : Eval.Quiet change) (c : State α) :
    c.Precedes (change c) where
  stats counter := Nat.le_of_eq (by rw [h.usage])
  depth := by rw [h.usage]
  history := ⟨[], (h.history c).symm⟩
  trace := h.trace c

end State.Precedes

/-- A node has been visited. -/
def State.visited (c : State α) (node : α) : State α :=
  { c.note (.visit node) with usage := c.usage.countOp }

/-- Counting adds to the counters. -/
theorem Usage.Counts.value_le {f : Usage → Usage} (hf : Usage.Counts f) (u : Usage)
    (counter : Counter) : u.stats.value counter ≤ (f u).stats.value counter := by
  cases hf <;> cases counter <;>
    simp only [Usage.countOp, Usage.countVar, Usage.countString, Usage.openScope,
      Usage.closeScope, Stats.value] <;> omega

/-- A visit takes nothing back. -/
theorem State.Precedes.visited (c : State α) (node : α) : c.Precedes (c.visited node) :=
  ⟨Usage.Counts.op.value_le c.usage, rfl, List.suffix_refl _, List.suffix_cons _ _⟩

namespace Eval

open EvalM

/-- A step takes nothing back. -/
def Forward (x : EvalM α β) : Prop :=
  ∀ (setting : Setting) (c : State α), c.Precedes (x setting c).2

namespace Forward

/-- Wherever a step that goes forward ends, it has taken nothing back. -/
theorem of_eq {x : EvalM α β} (hx : Forward x) {setting : Setting} {c d : State α}
    {r : Except (EvalError α) β} (h : x setting c = (r, d)) : c.Precedes d := by
  have hc := hx setting c
  rwa [h] at hc

theorem pure (b : β) : Forward (pure b : EvalM α β) :=
  fun _ c => .refl c

theorem fail (err : EvalError α) : Forward (fail err : EvalM α β) :=
  fun _ c => .refl c

theorem setting : Forward (setting : EvalM α Setting) :=
  fun _ c => .refl c

theorem state : Forward (state : EvalM α (State α)) :=
  fun _ c => .refl c

/-- One step after the other goes forward if both do. -/
theorem bind {x : EvalM α β} {f : β → EvalM α γ} (hx : Forward x) (hf : ∀ b, Forward (f b)) :
    Forward (x >>= f) := by
  intro setting c
  have hc := hx setting c
  rw [bind_apply]
  generalize x setting c = r at hc
  obtain ⟨_ | b, c'⟩ := r
  · exact hc
  · exact hc.trans (hf b setting c')

/-- Counting goes forward if it leaves the depth of scopes alone. -/
theorem modifyUsage {f : Usage → Usage} (hf : Usage.Counts f)
    (hdepth : ∀ u, (f u).scopeDepth = u.scopeDepth) :
    Forward (EvalM.modifyUsage f : EvalM α Unit) :=
  fun _ c => ⟨hf.value_le c.usage, hdepth c.usage, List.suffix_refl _, List.suffix_refl _⟩

/-- Noting an event goes forward. -/
theorem note (event : Event α) : Forward (EvalM.note event) := fun _ _ =>
  ⟨fun _ => Nat.le_refl _, rfl, List.suffix_refl _, List.suffix_cons _ _⟩

/-- A check of the limits changes nothing. -/
theorem checkLimits : Forward (checkLimits : EvalM α Unit) := by
  refine state.bind fun c => setting.bind fun s => ?_
  split
  · exact fail _
  · exact pure _

/-- Nor does a check of the time. -/
theorem checkTime : Forward (checkTime : EvalM α Unit) := by
  refine setting.bind fun s => ?_
  split
  · refine state.bind fun c => ?_
    split
    · exact fail _
    · exact pure _
  · exact pure _

/-- A visit is noted and counted. -/
theorem tick (node : α) : Forward (tick node) := by
  intro setting c
  have hchecks := (checkTime.bind fun _ => checkLimits) setting (c.visited node)
  exact (State.Precedes.visited c node).trans hchecks

/-- What follows the tick of a node starts where the node has been visited. -/
theorem visited_bind {x : EvalM α β} (hx : Forward x) (node : α) (setting : Setting)
    (c : State α) :
    (c.visited node).Precedes ((Eval.tick node >>= fun _ => x) setting c).2 :=
  ((checkTime.bind fun _ => checkLimits).bind fun _ => hx) setting (c.visited node)

/-- A string is counted. -/
theorem countString (v : Scalar) : Forward (countString v : EvalM α Unit) := by
  cases v with
  | str s => exact (modifyUsage (.string s.length) fun _ => rfl).bind fun _ => checkLimits
  | null | num | bool => exact pure _

/-- Waiting moves the clock only. -/
theorem await (node : α) (name : String) (reply : Reply) : Forward (await node name reply) := by
  have hpass (ms : Nat) : Forward (pass ms : EvalM α Unit) := fun _ c =>
    ⟨fun _ => Nat.le_refl _, rfl, List.suffix_refl _, List.suffix_refl _⟩
  refine setting.bind fun s => state.bind fun c => ?_
  dsimp only
  split
  · refine (hpass _).bind fun _ => ?_
    split
    · exact fail _
    · split
      · exact pure _
      · exact fail _
    · exact pure _
  · split
    · exact (hpass _).bind fun _ => fail _
    · exact fail _

/-- A reply is waited for, and its string is counted. -/
theorem receive (node : α) (name : String) (reply : Reply) :
    Forward (receive node name reply) := by
  refine (await node name reply).bind fun v => ?_
  split
  · exact (countString v).bind fun _ => pure v
  · exact fail _

/-- A host call is listed, and its reply is received. -/
theorem invoke (node : α) (name : String) (call : HostCall) (values : List Scalar) :
    Forward (invoke node name call values) := by
  intro s c
  have hadd : c.Precedes { c with history := ⟨name, values⟩ :: c.history } :=
    ⟨fun _ => Nat.le_refl _, rfl, List.suffix_cons _ _, List.suffix_refl _⟩
  rw [invoke_apply]
  exact hadd.trans (receive node name _ s _)

/-- A scope that is entered is left, and the depth is what it was. -/
theorem inScope (frame : Frame α) {x : EvalM α Scalar} (hx : Forward x) :
    Forward (inScope frame x) := by
  intro s c
  have hbody := hx s (c.enterScope frame)
  rw [inScope_apply]
  generalize (x s (c.enterScope frame)).2 = d at hbody ⊢
  refine ⟨fun counter => ?_, ?_, hbody.history, hbody.trace⟩
  · have hopen := Usage.Counts.openScope.value_le c.usage counter
    have hclose := Usage.Counts.closeScope.value_le d.usage counter
    exact Nat.le_trans hopen (Nat.le_trans (hbody.stats counter) hclose)
  · have hdepth : d.usage.scopeDepth = c.usage.scopeDepth + 1 := hbody.depth
    change d.usage.scopeDepth - 1 = c.usage.scopeDepth
    omega

/-- Evaluation goes forward if its visits do. -/
theorem closed {visit : Expr α → EvalM α Scalar} (h : ∀ e, Forward (visit e)) :
    Closed visit Forward where
  pure := pure
  fail err _ := fail err
  bind := bind
  state := state
  host hk := setting.bind fun s => hk s.host
  modify hq := fun _ c => .of_quiet hq c
  andFinally hx hq := fun s c => (hx s c).trans (.of_quiet hq _)
  countVar := (modifyUsage .var fun _ => rfl).bind fun _ => checkLimits
  countString := countString
  visits := h
  inScope frame e := inScope frame (h e)
  external node name := note (.external node name)
  invoke := invoke

end Forward

/-- **One step.** The evaluation of a node takes nothing back if those of its operands do not. -/
theorem Forward.evalNode {visit : Expr α → EvalM α Scalar} (h : ∀ e, Forward (visit e))
    (e : Expr α) : Forward (evalNode visit e) := by
  rw [evalNode_eq]
  exact (Forward.tick _).bind fun _ => (Forward.closed h).answer e

/-- The node is the first thing that is visited. -/
theorem visited_evalNode {visit : Expr α → EvalM α Scalar} (h : ∀ e, Forward (visit e))
    (e : Expr α) (setting : Setting) (c : State α) :
    (c.visited e.label).Precedes (evalNode visit e setting c).2 := by
  rw [evalNode_eq]
  exact Forward.visited_bind ((Forward.closed h).answer e) e.label setting c

/-- **Evaluation takes nothing back.** -/
theorem forward_eval (depth : Nat) (e : Expr α) : Forward (eval depth e) := by
  induction depth generalizing e with
  | zero => exact .fail _
  | succ depth ih => exact .evalNode ih e

end Eval

end OpTree
