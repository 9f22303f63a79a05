import OpTree.Proofs.Evaluation.Operators
import OpTree.Proofs.Evaluation.Stack

/-!
# Comparing names, lookups and scopes

The operators that depend on the scopes agree on both sides of a comparison if the stacks are known
and answer alike. The bindings of a scope are evaluated one after the other while its frame grows;
`related_evalScope` takes a relation between the two frames so far and the operands that are left,
which every binding has to keep and which has to suffice for the body.
-/

namespace OpTree

/-- The name may be the one that the operand gives: a literal gives the one it spells. -/
def Expr.MayName {α : Type} (e : Expr α) (name : String) : Prop :=
  ∀ n, e.name? = some n → n = name

/-- Whether the expression is a lambda node. -/
def Expr.isLambda {α : Type} : Expr α → Bool
  | .op _ .lambda _ => true
  | _ => false

/-- The nodes of all other operators are no lambdas. -/
theorem Expr.isLambda_op_of_ne {α : Type} {code : Operator} (h : code ≠ .lambda) (a : α)
    (es : List (Expr α)) : (Expr.op a code es).isLambda = false := by
  cases code <;> first | rfl | exact absurd rfl h

namespace Comparison

open Eval

variable {α β : Type} {cmp : Comparison α β} {visit : Expr α → EvalM α Scalar}
  {visit' : Expr β → EvalM β Scalar} {node : α} {node' : β} {P : State α → State β → Prop}
  {K : State α → State β → Prop} {σ : ScopeStack α} {τ : ScopeStack β} {code : Operator}
  {e v : Expr α} {f w : Expr β} {frame : Frame α} {frame' : Frame β} {name : String}

/-! ### Names -/

/-- The operands give the same name. -/
def Names (cmp : Comparison α β) (visit : Expr α → EvalM α Scalar)
    (visit' : Expr β → EvalM β Scalar) (node : α) (node' : β) (code : Operator)
    (P : State α → State β → Prop) (e : Expr α) (f : Expr β) : Prop :=
  cmp.Related P P (fun a b => a = b ∧ e.MayName a) (nameOf visit node code e)
    (nameOf visit' node' code f)

theorem names_of_literal (he : e.name? = some name) (hf : f.name? = some name) :
    cmp.Names visit visit' node node' code P e f := by
  rw [Names, nameOf, nameOf, he, hf]
  exact .pure ⟨rfl, fun n hn => Option.some.inj (hn.symm.trans he)⟩

theorem names_of_computed (he : e.name? = none) (hf : f.name? = none)
    (hacc : cmp.Accepts (.invalidName node code) (.invalidName node' code))
    (hv : cmp.Visits visit visit' P e f) : cmp.Names visit visit' node node' code P e f := by
  rw [Names, nameOf, nameOf, he, hf]
  refine hv.bind ?_
  rintro v _ ⟨rfl, -⟩
  cases v with
  | str s => exact .pure ⟨rfl, fun n hn => by simp [he] at hn⟩
  | null | num | bool => exact .fail hacc

/-! ### Lookups -/

theorem related_lookUp (hm : cmp.Metered K)
    (hname : cmp.Names visit visit' node node' .lookup (At K σ τ) e f)
    (hsome : ∀ name v, e.MayName name → σ.constant? name = some v →
      τ.constant? name = some v ∧ cmp.value v)
    (hnone : ∀ name, e.MayName name → σ.constant? name = none →
      cmp.waives (.uninitializedVariable node name) ∨ τ.constant? name = none ∧
        cmp.blames (.uninitializedVariable node name) (.uninitializedVariable node' name)) :
    cmp.Related (At K σ τ) (At K σ τ) cmp.Same (lookUp visit node e) (lookUp visit' node' f) := by
  refine hname.bind ?_
  rintro name _ ⟨rfl, hn⟩
  refine .state_bind ?_
  rintro c d ⟨hc, hd, hk⟩
  rw [hc, hd]
  cases hs : σ.constant? name with
  | some v =>
    obtain ⟨ht, hv⟩ := hsome name v hn hs
    rw [ht]
    exact ((hm.countString σ τ v).bind fun _ _ _ => .pure ⟨rfl, hv⟩) c d ⟨hc, hd, hk⟩
  | none =>
    rcases hnone name hn hs with hw | ⟨ht, hb⟩
    · exact .waived hw
    · rw [ht]
      exact .error hb ⟨hc, hd, hk⟩

/-! ### Scopes -/

/-- A scope is entered and left on both sides. -/
theorem related_inScope {x : EvalM α Scalar} {y : EvalM β Scalar} (hm : cmp.Metered K)
    (h : cmp.Related (At K (σ.push frame) (τ.push frame')) (At K (σ.push frame) (τ.push frame'))
      cmp.Same x y) :
    cmp.Related (At K σ τ) (At K σ τ) cmp.Same (inScope frame x) (inScope frame' y) := by
  have hbody := h.andFinally (R := At K σ τ)
    (f := fun c => { c with scopes := c.scopes.pop, usage := c.usage.closeScope })
    (g := fun d => { d with scopes := d.scopes.pop, usage := d.usage.closeScope }) <| by
      rintro c d ⟨hc, hd, hk⟩
      exact ⟨by rw [hc, ScopeStack.pop_push], by rw [hd, ScopeStack.pop_push], hm.closeScope hk⟩
  refine .modify_bind (R := At K σ τ) ?_ (.modify_bind (fun c d h => ?_) hbody)
  · rintro c d ⟨hc, hd, hk⟩
    exact ⟨hc, hd, hm.openScope hk⟩
  · obtain ⟨hc, hd, hk⟩ := h
    exact ⟨congrArg (·.push frame) hc, congrArg (·.push frame') hd, hk⟩

/-- The step that declares a value which is not a lambda. -/
theorem declare_of_not_isLambda (hv : v.isLambda = false) :
    declare visit node frame name v = visit v >>= fun x =>
      (match frame.bindConstant? name x with
        | some frame => pure frame
        | none => EvalM.fail (.duplicateName node name .constant)) := by
  cases v with
  | lit a s => rfl
  | op a code es => cases code <;> first | rfl | cases hv

/-- A value that is not a lambda on either side is declared as a constant. -/
theorem related_declare_constant {V : Frame α → Frame β → Prop} (hv : v.isLambda = false)
    (hw : w.isLambda = false) (hvis : cmp.Visits visit visit' P v w)
    (hcs : frame.constants = frame'.constants)
    (hV : ∀ x new, cmp.value x → frame.bindConstant? name x = some new →
      V new { frame' with constants := new.constants })
    (hdup : (frame.constants.find? name).isSome → cmp.Accepts
      (.duplicateName node name .constant) (.duplicateName node' name .constant)) :
    cmp.Related P P V (declare visit node frame name v) (declare visit' node' frame' name w) := by
  rw [declare_of_not_isLambda hv, declare_of_not_isLambda hw]
  refine hvis.bind ?_
  rintro x _ ⟨rfl, hx⟩
  cases hb : frame.bindConstant? name x with
  | some new =>
    obtain ⟨hn, hnew⟩ := Frame.bindConstant?_eq_some.1 hb
    have hb' : frame'.bindConstant? name x = some { frame' with constants := new.constants } :=
      Frame.bindConstant?_eq_some.2 ⟨hcs ▸ hn, by rw [hnew, hcs]⟩
    rw [hb']
    exact .pure (hV x new hx hb)
  | none =>
    have hs := Frame.bindConstant?_eq_none.1 hb
    rw [Frame.bindConstant?_eq_none.2 (hcs ▸ hs)]
    exact .fail (hdup hs)

/-- A lambda node on both sides is declared without a visit. -/
theorem related_declare_lambda {V : Frame α → Frame β → Prop} {label : α} {label' : β}
    {es : List (Expr α)} {fs : List (Expr β)}
    (hok : ∀ l, Lambda.declare label es = .ok l → ∃ m, Lambda.declare label' fs = .ok m ∧
      (match frame.bindLambda? name l, frame'.bindLambda? name m with
        | some new, some new' => V new new'
        | none, none => cmp.Accepts (.duplicateName node name .lambda)
            (.duplicateName node' name .lambda)
        | _, _ => False))
    (herr : ∀ err, Lambda.declare label es = .error err →
      cmp.waives err ∨ ∃ err', Lambda.declare label' fs = .error err' ∧ cmp.blames err err') :
    cmp.Related P P V (declare visit node frame name (.op label .lambda es))
      (declare visit' node' frame' name (.op label' .lambda fs)) := by
  intro c d hp
  simp only [declare, EvalM.bind_apply, EvalM.ofExcept]
  cases hl : Lambda.declare label es with
  | error err =>
    rcases herr err hl with hw | ⟨err', hm, hb⟩
    · exact .waived hw
    · rw [hm]
      exact .error hb hp
  | ok l =>
    obtain ⟨m, hm, hV⟩ := hok l hl
    rw [hm]
    dsimp only
    -- either both frames take the lambda or neither does
    cases hb : frame.bindLambda? name l <;> cases hb' : frame'.bindLambda? name m <;>
      rw [hb, hb'] at hV
    · exact Related.fail hV c d hp
    · exact hV.elim
    · exact hV.elim
    · exact .ok hV hp

/-- What a relation between frames and remaining operands has to provide for the next step of a
scope: the body agrees inside of the frames, or the next name and value do and keep it. -/
inductive ScopeStep (cmp : Comparison α β) (visit : Expr α → EvalM α Scalar)
    (visit' : Expr β → EvalM β Scalar) (node : α) (node' : β) (K : State α → State β → Prop)
    (σ : ScopeStack α) (τ : ScopeStack β)
    (J : Frame α → Frame β → List (Expr α) → List (Expr β) → Prop) (frame : Frame α)
    (frame' : Frame β) : List (Expr α) → List (Expr β) → Prop
  | body {b c} : cmp.Visits visit visit' (At K (σ.push frame) (τ.push frame')) b c →
      ScopeStep cmp visit visit' node node' K σ τ J frame frame' [b] [c]
  | binding {n x es m y fs} : cmp.Names visit visit' node node' .scope (At K σ τ) n m →
      (∀ name, n.MayName name →
        cmp.Related (At K σ τ) (At K σ τ) (fun new new' => J new new' es fs)
          (declare visit node frame name x) (declare visit' node' frame' name y)) →
      ScopeStep cmp visit visit' node node' K σ τ J frame frame' (n :: x :: es) (m :: y :: fs)

/-- **Scopes agree** if a relation that every step provides for relates the empty frames and all
operands. -/
theorem related_evalScope {J : Frame α → Frame β → List (Expr α) → List (Expr β) → Prop}
    (hm : cmp.Metered K)
    (hJ : ∀ frame frame' es fs, J frame frame' es fs →
      cmp.ScopeStep visit visit' node node' K σ τ J frame frame' es fs) :
    ∀ (es : List (Expr α)) (fs : List (Expr β)) (frame : Frame α) (frame' : Frame β),
      J frame frame' es fs → cmp.Related (At K σ τ) (At K σ τ) cmp.Same
        (evalScope visit node frame es) (evalScope visit' node' frame' fs)
  | [], _, frame, frame', h => by cases hJ _ _ _ _ h
  | [_], _, frame, frame', h => by
    cases hJ _ _ _ _ h with
    | body hv => exact related_inScope hm hv
  | n :: v :: es, _, frame, frame', h => by
    cases hJ _ _ _ _ h with
    | binding hname hdecl =>
      refine hname.bind ?_
      rintro name _ ⟨rfl, hn⟩
      refine (hm.countVar σ τ).bind fun _ _ _ => ?_
      exact (hdecl name hn).bind fun new new' hnew =>
        related_evalScope hm hJ es _ new new' hnew

end Comparison

end OpTree
