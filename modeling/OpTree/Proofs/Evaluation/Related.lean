import OpTree.Eval.Basic

/-!
# Comparing two evaluations

What is known of evaluation is mostly known by comparison: of two runs of one expression with
different bounds on the nesting, inside of different scopes, or of an expression beside the one it
folds to. A `Comparison` holds what all steps of such a proof have in common: the two settings, the
errors of the left-hand run after which nothing more is claimed (they are *waived*), the errors of
the right-hand run that answer to those of the left-hand run, and what is claimed of every value
besides its being the same on both sides.

`Related P Q V x y` is the judgement: started in states that `P` relates, the steps `x` and `y`
leave states behind that `Q` relates, and they end with values that `V` relates or with errors that
answer to each other. There is one rule for each way in which steps are put together
(`Related.bind`, `Related.andFinally`, …), so that proofs follow the text of the evaluator; a step
that only the left-hand side takes has rules of its own (`Related.bind_left`). A statement about one
run alone is the comparison of the run with itself.

Most relations between states ask the scopes to be known and relate what remains (`At`).
-/

namespace OpTree

variable {α β γ δ ε ζ : Type}

/-- The state without its scopes. -/
def State.bare (c : State α) : State α := { c with scopes := .empty }

/-- States with the same scopes that are the same apart from them are the same. -/
theorem State.ext_bare {c d : State α} (hs : c.scopes = d.scopes) (hb : c.bare = d.bare) :
    c = d := by
  obtain ⟨_, _, _, _, _⟩ := c
  obtain ⟨_, _, _, _, _⟩ := d
  simp only [bare, mk.injEq] at hs hb ⊢
  exact ⟨hs, hb.2⟩

namespace Eval

open EvalM

/-- The evaluation of a node, `visit` standing for that of its operands. -/
def evalNode (visit : Expr α → EvalM α Scalar) (e : Expr α) : EvalM α Scalar := do
  tick e.label
  match e with
  | .lit node value =>
    if value.isValid then
      countString value
      return value
    else
      fail (.overflow node)
  | .op node code operands =>
    if code.arity.accepts operands.length then
      apply visit node code operands
    else
      fail (.invalidArity node code code.arity operands.length)

/-- An evaluation is a tower of evaluations of nodes. -/
theorem eval_succ (depth : Nat) (e : Expr α) : eval (depth + 1) e = evalNode (eval depth) e := rfl

end Eval

/-- The changes of the usage that an evaluation makes. -/
inductive Usage.Counts : (Usage → Usage) → Prop
  | op : Counts Usage.countOp
  | var : Counts Usage.countVar
  | string (chars : Nat) : Counts (Usage.countString · chars)
  | openScope : Counts Usage.openScope
  | closeScope : Counts Usage.closeScope

/-- What a comparison of two evaluations is about. -/
structure Comparison (α β : Type) where
  left : Setting
  right : Setting
  /-- The errors of the left-hand run after which nothing is claimed. -/
  waives : EvalError α → Prop
  /-- The error of the right-hand run answers to the one of the left-hand run. -/
  blames : EvalError α → EvalError β → Prop
  /-- What is claimed of the values that both runs give. -/
  value : Scalar → Prop
  value_of_isValid : ∀ v, v.isValid → value v

namespace Comparison

variable (cmp : Comparison α β)

/-- Two runs agree in how they end and in the state they leave behind. -/
inductive Agree (V : γ → δ → Prop) (Q : State α → State β → Prop) :
    Except (EvalError α) γ × State α → Except (EvalError β) δ × State β → Prop
  | ok {a b c d} : V a b → Q c d → Agree V Q (.ok a, c) (.ok b, d)
  | error {e f c d} : cmp.blames e f → Q c d → Agree V Q (.error e, c) (.error f, d)
  | waived {e c r} : cmp.waives e → Agree V Q (.error e, c) r

/-- Started in states that `P` relates, two steps agree. -/
def Related (P Q : State α → State β → Prop) (V : γ → δ → Prop) (x : EvalM α γ)
    (y : EvalM β δ) : Prop :=
  ∀ c d, P c d → cmp.Agree V Q (x cmp.left c) (y cmp.right d)

/-- The values are the same, and what is claimed of values holds. -/
def Same (a b : Scalar) : Prop := a = b ∧ cmp.value a

/-- A failure on both sides is in order. -/
def Accepts (e : EvalError α) (f : EvalError β) : Prop := cmp.waives e ∨ cmp.blames e f

/-- The scopes are the given ones and `K` relates the rest. -/
def At (K : State α → State β → Prop) (σ : ScopeStack α) (τ : ScopeStack β) (c : State α)
    (d : State β) : Prop :=
  c.scopes = σ ∧ d.scopes = τ ∧ K c.bare d.bare

variable {cmp} {P P' Q Q' R : State α → State β → Prop} {V : γ → δ → Prop} {W : ε → ζ → Prop}

theorem same_of_isValid {v : Scalar} (h : v.isValid) : cmp.Same v v :=
  ⟨rfl, cmp.value_of_isValid v h⟩

/-! ### The rules -/

theorem Agree.mono {V' : γ → δ → Prop} {r : Except (EvalError α) γ × State α}
    {t : Except (EvalError β) δ × State β} (h : cmp.Agree V Q r t) (hV : ∀ a b, V a b → V' a b)
    (hQ : ∀ c d, Q c d → Q' c d) : cmp.Agree V' Q' r t := by
  cases h with
  | ok hv hq => exact .ok (hV _ _ hv) (hQ _ _ hq)
  | error he hq => exact .error he (hQ _ _ hq)
  | waived he => exact .waived he

namespace Related

theorem mono {V' : γ → δ → Prop} {x : EvalM α γ} {y : EvalM β δ} (h : cmp.Related P Q V x y)
    (hP : ∀ c d, P' c d → P c d) (hQ : ∀ c d, Q c d → Q' c d) (hV : ∀ a b, V a b → V' a b) :
    cmp.Related P' Q' V' x y :=
  fun c d hp => (h c d (hP c d hp)).mono hV hQ

/-- The rule for a weaker claim about the values. -/
theorem imp {V' : γ → δ → Prop} {x : EvalM α γ} {y : EvalM β δ} (h : cmp.Related P Q V x y)
    (hV : ∀ a b, V a b → V' a b) : cmp.Related P Q V' x y :=
  h.mono (fun _ _ hp => hp) (fun _ _ hq => hq) hV

theorem pure {a : γ} {b : δ} (hv : V a b) : cmp.Related P P V (pure a) (pure b) :=
  fun _ _ hp => .ok hv hp

theorem fail {e : EvalError α} {f : EvalError β} (h : cmp.Accepts e f) :
    cmp.Related P P V (EvalM.fail e) (EvalM.fail f) := fun _ _ hp =>
  h.elim .waived fun hb => .error hb hp

theorem bind {x : EvalM α γ} {y : EvalM β δ} {k : γ → EvalM α ε} {l : δ → EvalM β ζ}
    (h : cmp.Related P Q V x y) (hk : ∀ a b, V a b → cmp.Related Q Q W (k a) (l b)) :
    cmp.Related P Q W (x >>= k) (y >>= l) := by
  intro c d hp
  rw [EvalM.bind_apply, EvalM.bind_apply]
  have hxy := h c d hp
  generalize x cmp.left c = r at hxy ⊢
  generalize y cmp.right d = t at hxy ⊢
  cases hxy with
  | ok hv hq => exact hk _ _ hv _ _ hq
  | error he hq => exact .error he hq
  | waived he => exact .waived he

/-- Two steps of which the first only reads the state. -/
theorem state_bind {k : State α → EvalM α ε} {l : State β → EvalM β ζ}
    (h : ∀ c d, P c d → cmp.Agree W Q (k c cmp.left c) (l d cmp.right d)) :
    cmp.Related P Q W (EvalM.state >>= k) (EvalM.state >>= l) :=
  h

/-- Two steps of which the first only reads the setting. -/
theorem setting_bind {k : Setting → EvalM α ε} {l : Setting → EvalM β ζ}
    (h : cmp.Related P Q W (k cmp.left) (l cmp.right)) :
    cmp.Related P Q W (EvalM.setting >>= k) (EvalM.setting >>= l) :=
  h

theorem modify_bind {f : State α → State α} {g : State β → State β} {k : Unit → EvalM α ε}
    {l : Unit → EvalM β ζ} (hfg : ∀ c d, P c d → R (f c) (g d))
    (h : cmp.Related R Q W (k ()) (l ())) :
    cmp.Related P Q W (EvalM.modify f >>= k) (EvalM.modify g >>= l) :=
  fun c d hp => h (f c) (g d) (hfg c d hp)

theorem andFinally {x : EvalM α γ} {y : EvalM β δ} {f : State α → State α}
    {g : State β → State β} (h : cmp.Related P Q V x y) (hfg : ∀ c d, Q c d → R (f c) (g d)) :
    cmp.Related P R V (x.andFinally f) (y.andFinally g) := by
  intro c d hp
  have hxy := h c d hp
  change cmp.Agree V R ((x cmp.left c).1, f (x cmp.left c).2)
    ((y cmp.right d).1, g (y cmp.right d).2)
  generalize x cmp.left c = r at hxy ⊢
  generalize y cmp.right d = t at hxy ⊢
  cases hxy with
  | ok hv hq => exact .ok hv (hfg _ _ hq)
  | error he hq => exact .error he (hfg _ _ hq)
  | waived he => exact .waived he

end Related

/-! ### Steps of one side -/

/-- On the left, a step ends with this value, whatever the other side does. -/
def SettlesLeft (cmp : Comparison α β) (P R : State α → State β → Prop) (x : EvalM α γ)
    (a : γ) : Prop :=
  ∀ c d, P c d → ∃ c', x cmp.left c = (.ok a, c') ∧ R c' d

theorem Related.bind_left {V : ε → δ → Prop} {a : γ} {x : EvalM α γ} {k : γ → EvalM α ε}
    {y : EvalM β δ} (hx : cmp.SettlesLeft P R x a) (h : cmp.Related R Q V (k a) y) :
    cmp.Related P Q V (x >>= k) y := by
  intro c d hp
  obtain ⟨c', hc', hr⟩ := hx c d hp
  rw [EvalM.bind_apply, hc']
  exact h c' d hr

/-- On the left, a step only reads the state. -/
theorem Related.state_bind_left {V : ε → δ → Prop} {k : State α → EvalM α ε} {y : EvalM β δ}
    (h : ∀ c d, P c d → cmp.Agree V Q (k c cmp.left c) (y cmp.right d)) :
    cmp.Related P Q V (EvalM.state >>= k) y :=
  h

/-- On the left, the state is changed once more in the end. -/
theorem Related.andFinally_left {V : γ → δ → Prop} {x : EvalM α γ} {y : EvalM β δ}
    {f : State α → State α} (h : cmp.Related P Q V x y) (hf : ∀ c d, Q c d → R (f c) d) :
    cmp.Related P R V (x.andFinally f) y :=
  Related.andFinally (g := id) h hf

/-! ### Nodes and counting -/

/-- What `K` has to admit so that scopes, variables and strings can be counted on both sides. -/
structure Metered (cmp : Comparison α β) (K : State α → State β → Prop) : Prop where
  countVar : ∀ σ τ, cmp.Related (At K σ τ) (At K σ τ) (fun _ _ => True) Eval.countVar Eval.countVar
  countString : ∀ σ τ v, cmp.Related (At K σ τ) (At K σ τ) (fun _ _ => True)
    (Eval.countString v) (Eval.countString v)
  openScope : ∀ {c d}, K c d →
    K { c with usage := c.usage.openScope } { d with usage := d.usage.openScope }
  closeScope : ∀ {c d}, K c d →
    K { c with usage := c.usage.closeScope } { d with usage := d.usage.closeScope }

section Nodes

open Eval EvalM

variable {visit : Expr α → EvalM α Scalar} {visit' : Expr β → EvalM β Scalar}
  {K : State α → State β → Prop} {σ : ScopeStack α} {τ : ScopeStack β} {a : α} {b : β}

/-- The limits are checked on both sides. -/
theorem related_checkLimits
    (h : ∀ c d, P c d → c.usage.exceeded? cmp.left.limits = none ∧
        d.usage.exceeded? cmp.right.limits = none ∨
      ∃ x, c.usage.exceeded? cmp.left.limits = some x ∧ (cmp.waives (.limitExceeded x) ∨
        ∃ y, d.usage.exceeded? cmp.right.limits = some y ∧
          cmp.blames (.limitExceeded x) (.limitExceeded y))) :
    cmp.Related P P (fun _ _ => True) checkLimits checkLimits := by
  refine .state_bind fun c d hp => ?_
  simp only [EvalM.bind_apply, EvalM.setting]
  -- the right-hand counter matters only where the left-hand one is not waived
  rcases h c d hp with ⟨hl, hr⟩ | ⟨x, hl, hw | ⟨y, hr, hb⟩⟩ <;> rw [hl]
  · rw [hr]
    exact .ok trivial hp
  · exact .waived hw
  · rw [hr]
    exact .error hb hp

/-- The time is checked on both sides against the same budget. -/
theorem related_checkTime
    (ht : cmp.left.limits.bound .evaluationTime = cmp.right.limits.bound .evaluationTime)
    (hclock : cmp.left.limits.bound .evaluationTime ≠ none → ∀ c d, P c d → c.clock = d.clock)
    (hacc : ∀ budget, cmp.left.limits.bound .evaluationTime = some budget →
      cmp.Accepts (.timeout budget) (.timeout budget)) :
    cmp.Related P P (fun _ _ => True) checkTime checkTime := by
  refine .setting_bind ?_
  rw [← ht]
  cases hb : cmp.left.limits.bound .evaluationTime with
  | none => exact .pure trivial
  | some budget =>
    refine .state_bind fun c d hp => ?_
    rw [← hclock (by simp [hb]) c d hp]
    split
    · exact Related.fail (hacc budget hb) c d hp
    · exact .ok trivial hp

/-- A visit is noted and counted on both sides. -/
theorem related_tick
    (htime : cmp.Related (At K σ τ) (At K σ τ) (fun _ _ => True) checkTime checkTime)
    (hlimits : cmp.Related (At K σ τ) (At K σ τ) (fun _ _ => True) checkLimits checkLimits)
    (hvisit : ∀ {c d}, K c d →
      K { c.note (.visit a) with usage := c.usage.countOp }
        { d.note (.visit b) with usage := d.usage.countOp }) :
    cmp.Related (At K σ τ) (At K σ τ) (fun _ _ => True) (tick a) (tick b) := by
  have hchecks := htime.bind fun _ _ _ => hlimits
  rintro c d ⟨hc, hd, hk⟩
  exact hchecks _ _ ⟨hc, hd, hvisit hk⟩

/-- Counting is in order if checking the limits is, and if `K` does not depend on what has been
counted. -/
theorem Metered.of_checkLimits
    (hlimits : ∀ σ τ,
      cmp.Related (At K σ τ) (At K σ τ) (fun _ _ => True) checkLimits checkLimits)
    (husage : ∀ {c d f}, Usage.Counts f → K c d →
      K { c with usage := f c.usage } { d with usage := f d.usage }) : cmp.Metered K where
  countVar σ τ := .modify_bind (R := At K σ τ)
    (fun _ _ h => ⟨h.1, h.2.1, husage .var h.2.2⟩) (hlimits σ τ)
  countString σ τ v := by
    cases v with
    | str s =>
      exact .modify_bind (R := At K σ τ)
        (fun _ _ h => ⟨h.1, h.2.1, husage (.string s.length) h.2.2⟩) (hlimits σ τ)
    | null | num | bool => exact .pure trivial
  openScope h := husage .openScope h
  closeScope h := husage .closeScope h

/-- Literals agree if they are the same. -/
theorem related_literal {v : Scalar} (hm : cmp.Metered K)
    (htick : cmp.Related (At K σ τ) (At K σ τ) (fun _ _ => True) (tick a) (tick b))
    (hbad : v.isValid = false → cmp.Accepts (.overflow a) (.overflow b)) :
    cmp.Related (At K σ τ) (At K σ τ) cmp.Same (evalNode visit (.lit a v))
      (evalNode visit' (.lit b v)) := by
  refine htick.bind fun _ _ _ => ?_
  dsimp only
  cases hv : v.isValid with
  | true => exact (hm.countString σ τ v).bind fun _ _ _ => .pure (same_of_isValid hv)
  | false => exact .fail (hbad hv)

/-- Operators agree if they do on an accepted number of operands. -/
theorem related_operator {code : Operator} {es : List (Expr α)} {fs : List (Expr β)}
    (hlen : es.length = fs.length)
    (htick : cmp.Related P P (fun _ _ => True) (tick a) (tick b))
    (hbad : code.arity.accepts es.length = false →
      cmp.Accepts (.invalidArity a code code.arity es.length)
        (.invalidArity b code code.arity es.length))
    (happly : code.arity.accepts es.length →
      cmp.Related P P cmp.Same (apply visit a code es) (apply visit' b code fs)) :
    cmp.Related P P cmp.Same (evalNode visit (.op a code es))
      (evalNode visit' (.op b code fs)) := by
  refine htick.bind fun _ _ _ => ?_
  dsimp only
  rw [← hlen]
  cases ha : code.arity.accepts es.length with
  | true => exact happly ha
  | false => exact .fail (hbad ha)

end Nodes

end Comparison

end OpTree
