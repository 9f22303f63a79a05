import OpTree.Proofs.Evaluation.Closed

/-!
# What an evaluation sees of its host

An evaluation reaches its host only through the calls that it finds by name and through the lookups
that these calls answer from. In which tables the calls stand is nothing that it can tell. So every
step does the same (`Eval.Alike`) with another host that finds the same calls and has the same
lookups (`Host.Same`).

Main statement: `Graph.run_eq_of_same`.
-/

namespace OpTree

open Eval EvalM

variable {α β : Type}

/-- The hosts find the same calls, and have the same lookups. -/
structure Host.Same (host other : Host) : Prop where
  find? : ∀ name, host.find? name = other.find? name
  lookups : host.lookups = other.lookups

namespace Eval

/-- The step does the same with another host. -/
def Alike (s : Setting) (other : Host) (x : EvalM α β) : Prop :=
  ∀ c, x s c = x { s with host := other } c

variable {s : Setting} {other : Host} {visit : Expr α → EvalM α Scalar}

theorem Alike.bind {γ : Type} {x : EvalM α β} {f : β → EvalM α γ} (hx : Alike s other x)
    (hf : ∀ b, Alike s other (f b)) : Alike s other (x >>= f) := by
  intro c
  rw [bind_apply, bind_apply, hx c]
  rcases x { s with host := other } c with ⟨_ | b, d⟩
  · rfl
  · exact hf b d

/-- What a step makes of its setting is the same if it only looks at what is not the host. -/
theorem Alike.setting_bind {k : Setting → EvalM α β} (hk : k s = k { s with host := other })
    (h : Alike s other (k s)) : Alike s other (setting >>= k) := by
  intro c
  change k s s c = k { s with host := other } { s with host := other } c
  rw [h c, hk]

/-! ### Steps that do not use the host -/

theorem alike_checkLimits : Alike s other (checkLimits : EvalM α Unit) := by
  refine .bind (fun _ => rfl) fun c => .setting_bind rfl ?_
  split <;> exact fun _ => rfl

theorem alike_checkTime : Alike s other (checkTime : EvalM α Unit) := by
  refine .setting_bind rfl ?_
  split
  · refine .bind (fun _ => rfl) fun c => ?_
    split <;> exact fun _ => rfl
  · exact fun _ => rfl

theorem alike_tick (node : α) : Alike s other (tick node) :=
  .bind (fun _ => rfl) fun _ => .bind (fun _ => rfl) fun _ =>
    .bind alike_checkTime fun _ => alike_checkLimits

theorem alike_countString (value : Scalar) : Alike s other (countString value : EvalM α Unit) := by
  cases value with
  | str => exact .bind (fun _ => rfl) fun _ => alike_checkLimits
  | null | num | bool => exact fun _ => rfl

theorem alike_await (node : α) (name : String) (reply : Reply) :
    Alike s other (await node name reply) := by
  refine .setting_bind rfl (.bind (fun _ => rfl) fun c => ?_)
  dsimp only
  split
  -- an answer may come too late
  · refine .bind (fun _ => rfl) fun _ => ?_
    split
    · exact fun _ => rfl
    · split <;> exact fun _ => rfl
    · exact fun _ => rfl
  -- and the wait for none may be cut off
  · split <;> exact fun _ => rfl

/-! ### Host calls -/

/-- Invoking a host call depends on the host for its lookups only. -/
theorem alike_invoke (h : s.host.lookups = other.lookups) (node : α) (name : String)
    (call : HostCall) (values : List Scalar) : Alike s other (invoke node name call values) := by
  intro c
  rw [invoke_apply, invoke_apply, h]
  refine Alike.bind (alike_await node name _) (fun value => ?_) _
  split
  · exact .bind (alike_countString value) fun _ _ => rfl
  · exact fun _ => rfl

/-- A call that names no visible lambda depends on the host for what it finds under the name. -/
theorem alike_callHost (h : s.host.Same other) {es : List (Expr α)}
    (hes : Alike s other (arguments visit es)) (node : α) (name : String) :
    Alike s other (Comparison.callHost visit node name es) := by
  intro c
  change invokeNamed visit node name es s.host _ _ = invokeNamed visit node name es other _ _
  rw [invokeNamed, invokeNamed, h.find? name]
  cases other.find? name with
  | none => rfl
  | some call => exact hes.bind (fun values => alike_invoke h.lookups node name call values) _

/-! ### Whole evaluations -/

/-- Steps are alike as soon as visits are. -/
theorem composed_alike (h : s.host.Same other) (hvisit : ∀ e, Alike s other (visit e)) :
    Composed visit (Alike s other) where
  pure _ _ := rfl
  fail _ _ _ := rfl
  bind := Alike.bind
  state _ := rfl
  modify _ _ := rfl
  andFinally hx _ c := by rw [andFinally, andFinally, hx c]
  countVar := .bind (fun _ => rfl) fun _ => alike_checkLimits
  countString := alike_countString
  visits := hvisit
  inScope frame e c := by rw [inScope_apply, inScope_apply, hvisit]
  callHost node name _ hes := alike_callHost h hes node name

/-- **Every visit** is alike, at any depth. -/
theorem alike_eval (h : s.host.Same other) (depth : Nat) :
    ∀ e : Expr α, Alike s other (eval depth e) := by
  induction depth with
  | zero => exact fun _ _ => rfl
  | succ depth ih =>
    intro e
    change Alike s other (evalNode (eval depth) e)
    rw [evalNode_eq]
    exact .bind (alike_tick e.label) fun _ => (composed_alike h ih).answer e

end Eval

/-- **A run depends on its host** for the calls that it finds and for the lookups only. -/
theorem Graph.run_eq_of_same {s : Setting} {other : Host} (h : s.host.Same other) (g : Graph) :
    g.run s = g.run { s with host := other } := by
  rw [Graph.run, Graph.run, Expr.runWithin, Expr.runWithin, alike_eval h]

end OpTree
