import OpTree.Check.Basic
import OpTree.Proofs.Evaluation.Calls

/-!
# Comparing two checks

What is known of the check is known by comparison too: of a check with an allow-list and one
without, of the checks of an expression and of what is left of it, of an expression and the same one
relabelled. A `CheckComparison` holds what all steps of such a proof have in common: the errors of
the left-hand check after which nothing more is claimed (they are *waived*), and the errors of the
right-hand check that answer to those of the left-hand check.

`Related P Q V x y` is the judgement: started at reports that `P` relates, the steps `x` and `y` end
with values that `V` relates and at reports that `Q` relates, or with errors that answer to each
other. There is one rule for each way in which steps are put together, and one for each function of
the check that does not go into operands (`related_nameOf`, `related_checkLookup`,
`related_checkCall`, `related_declare`). A statement about one check alone is the comparison of the
check with itself.

On the way the module says what names refer to: `Alike` compares two lists of static frames, and
`StaticFrame.Declares` says what a binding adds to a frame.
-/

namespace OpTree

variable {α β γ δ ε ζ : Type}

/-- What a comparison of two checks is about. -/
structure CheckComparison (α β : Type) where
  /-- The errors of the left-hand check after which nothing is claimed. -/
  waives : EvalError α → Prop
  /-- The error of the right-hand check answers to the one of the left-hand check. -/
  blames : EvalError α → EvalError β → Prop

/-- Only checks that succeed are compared. -/
def CheckComparison.successful : CheckComparison α β where
  waives _ := True
  blames _ _ := True

namespace CheckComparison

open Check

variable (cmp : CheckComparison α β)

/-- Two steps agree in how they end and in what they have reported by then. -/
inductive Agree (V : γ → δ → Prop) (Q : Report α → Report β → Prop) :
    Except (EvalError α) (γ × Report α) → Except (EvalError β) (δ × Report β) → Prop
  | ok {a b r ρ} : V a b → Q r ρ → Agree V Q (.ok (a, r)) (.ok (b, ρ))
  | error {e f} : cmp.blames e f → Agree V Q (.error e) (.error f)
  | waived {e t} : cmp.waives e → Agree V Q (.error e) t

/-- Started at reports that `P` relates, two steps agree. -/
def Related (P Q : Report α → Report β → Prop) (V : γ → δ → Prop) (x : CheckM α γ)
    (y : CheckM β δ) : Prop :=
  ∀ r ρ, P r ρ → cmp.Agree V Q (x r) (y ρ)

/-- A failure on both sides is in order. -/
def Accepts (e : EvalError α) (f : EvalError β) : Prop := cmp.waives e ∨ cmp.blames e f

/-- Where only checks that succeed are compared, failures are always in order. -/
theorem successful_accepts {e : EvalError α} {b : β} :
    successful.Accepts e (e.map fun _ => b) := .inl trivial

variable {cmp} {P P' Q Q' R : Report α → Report β → Prop} {V : γ → δ → Prop} {W : ε → ζ → Prop}

/-! ### The rules -/

/-- A weaker claim about how two steps end. -/
theorem Agree.mono {V' : γ → δ → Prop} {s : Except (EvalError α) (γ × Report α)}
    {t : Except (EvalError β) (δ × Report β)} (h : cmp.Agree V Q s t)
    (hV : ∀ a b, V a b → V' a b) (hQ : ∀ r ρ, Q r ρ → Q' r ρ) : cmp.Agree V' Q' s t := by
  cases h with
  | ok hv hq => exact .ok (hV _ _ hv) (hQ _ _ hq)
  | error he => exact .error he
  | waived he => exact .waived he

namespace Related

variable {x : CheckM α γ} {y : CheckM β δ} {k : γ → CheckM α ε} {l : δ → CheckM β ζ}

/-- The rule for a weaker claim about the values. -/
theorem imp {V' : γ → δ → Prop} (h : cmp.Related P Q V x y) (hV : ∀ a b, V a b → V' a b) :
    cmp.Related P Q V' x y :=
  fun r ρ hp => (h r ρ hp).mono hV fun _ _ hq => hq

/-- Steps without effect keep the reports as they are. -/
theorem pure {a : γ} {b : δ} (hv : V a b) (hQ : ∀ r ρ, P r ρ → Q r ρ) :
    cmp.Related P Q V (pure a) (pure b) :=
  fun r ρ hp => .ok hv (hQ r ρ hp)

/-- Both sides fail, and the failures answer to each other. -/
theorem throw {e : EvalError α} {f : EvalError β} (h : cmp.Accepts e f) :
    cmp.Related P Q V (throw e) (throw f) :=
  fun _ _ _ => h.elim .waived .error

/-- The left-hand side fails in a way after which nothing is claimed. -/
theorem throw_left {e : EvalError α} (h : cmp.waives e) :
    cmp.Related P Q V (MonadExcept.throw e) y :=
  fun _ _ _ => .waived h

/-- Both sides add to their reports. -/
theorem record {change : Report α → Report α} {change' : Report β → Report β}
    (h : ∀ r ρ, P r ρ → Q (change r) (change' ρ)) :
    cmp.Related P Q (fun _ _ => True) (record change) (record change') :=
  fun r ρ hp => .ok trivial (h r ρ hp)

/-- One step after the other. -/
theorem bind (h : cmp.Related P Q V x y) (hk : ∀ a b, V a b → cmp.Related Q R W (k a) (l b)) :
    cmp.Related P R W (x >>= k) (y >>= l) := by
  intro r ρ hp
  have hxy := h r ρ hp
  change cmp.Agree W R (x r >>= fun p => k p.1 p.2) (y ρ >>= fun q => l q.1 q.2)
  generalize x r = s at hxy ⊢
  generalize y ρ = t at hxy ⊢
  cases hxy with
  | ok hv hq => exact hk _ _ hv _ _ hq
  | error he => exact .error he
  | waived he => exact .waived he

/-- Both sides take the same branch. -/
theorem ite {p : Prop} [Decidable p] {x' : CheckM α γ} {y' : CheckM β δ}
    (h : p → cmp.Related P Q V x y) (h' : ¬ p → cmp.Related P Q V x' y') :
    cmp.Related P Q V (if p then x else x') (if p then y else y') := by
  split
  · exact h ‹_›
  · exact h' ‹_›

/-- Both sides do something that does not depend on the reports. -/
theorem lift {s : Except (EvalError α) γ} {t : Except (EvalError β) δ}
    (hok : ∀ a, s = .ok a → ∃ b, t = .ok b ∧ V a b)
    (herror : ∀ e, s = .error e → ∃ f, t = .error f ∧ cmp.Accepts e f) :
    cmp.Related P P V (liftM s) (liftM t) := by
  cases s with
  | ok a =>
    obtain ⟨b, rfl, hv⟩ := hok a rfl
    exact .pure hv fun _ _ hp => hp
  | error e =>
    obtain ⟨f, rfl, hf⟩ := herror e rfl
    exact .throw hf

/-- A step that only the left-hand side takes, at the end. -/
theorem of_left {b : δ} (hwaives : ∀ e, cmp.waives e)
    (h : ∀ r ρ a r', P r ρ → x r = .ok (a, r') → V a b ∧ Q r' ρ) :
    cmp.Related P Q V x (Pure.pure b) := by
  intro r ρ hp
  cases hx : x r with
  | error e => exact .waived (hwaives e)
  | ok p => exact .ok (h r ρ p.1 p.2 hp hx).1 (h r ρ p.1 p.2 hp hx).2

/-- A step that only the left-hand side takes, at the start. -/
theorem bind_left {y : CheckM β ζ} (hx : cmp.Related P Q (fun _ _ => True) x (Pure.pure ()))
    (hk : ∀ a, cmp.Related Q R W (k a) y) : cmp.Related P R W (x >>= k) y :=
  hx.bind (l := fun _ => y) fun a _ _ => hk a

end Related

end CheckComparison

/-! ### Static frames -/

namespace Check

/-- Every name has the same standing in both. -/
def Alike (ss ts : List StaticFrame) : Prop :=
  ∀ (γ : Type) (find : StaticFrame → Option γ), find .empty = none →
    standing find ss = standing find ts

namespace Alike

variable {ss ts : List StaticFrame}

theorem refl (ss : List StaticFrame) : Alike ss ss := fun _ _ _ => rfl

/-- A further frame on both sides does not matter. -/
theorem cons (h : Alike ss ts) (frame : StaticFrame) : Alike (frame :: ss) (frame :: ts) := by
  intro γ find hempty
  rw [standing, standing, h γ find hempty]

/-- A frame without declarations does not matter. -/
theorem cons_empty (h : Alike ss ts) : Alike (.empty :: ss) ts := by
  intro γ find hempty
  rw [standing, hempty]
  exact h γ find hempty

end Alike

/-- If the value of a binding is a lambda node then it declares a lambda. -/
def Declarable (v : Expr α) : Prop :=
  ∀ label ps, v = .op label .lambda ps → ∃ l, Lambda.declare label ps = .ok l

/-- What a binding makes of a frame, when the name is spelled out and when it is not. -/
inductive StaticFrame.Declares (frame : StaticFrame) : Option String → Expr α → StaticFrame → Prop
  | dynamic {v} : frame.Declares none v { frame with dynamic := true }
  | constant {s v} : v.isLambda = false → s ∉ frame.constants →
      frame.Declares (some s) v { frame with constants := s :: frame.constants }
  | lambda {s label ps l} : Lambda.declare label ps = .ok l → frame.lambdas.lookup s = none →
      frame.Declares (some s) (.op label .lambda ps)
        { frame with lambdas := (s, l.params.length) :: frame.lambdas }

/-- What the bindings of a scope make of a frame. -/
inductive StaticFrame.DeclaresAll : StaticFrame → List (Expr α × Expr α) → StaticFrame → Prop
  | nil {frame} : DeclaresAll frame [] frame
  | cons {frame next last n v bs} : frame.Declares n.name? v next → Declarable v →
      DeclaresAll next bs last → DeclaresAll frame ((n, v) :: bs) last

/-- The values of all bindings are declarable. -/
theorem StaticFrame.DeclaresAll.declarable {frame last : StaticFrame}
    {bs : List (Expr α × Expr α)} (h : frame.DeclaresAll bs last) :
    ∀ n v, (n, v) ∈ bs → Declarable v := by
  induction h with
  | nil => exact fun _ _ h => nomatch h
  | cons _ hv _ ih =>
    rintro n' v' (_ | ⟨_, hmem⟩)
    · exact hv
    · exact ih n' v' hmem

/-- The declaration of a constant. -/
theorem declare_of_isLambda_eq_false {node : α} {frame : StaticFrame} {v : Expr α}
    {name : Option String} {visit : CheckM α Unit} (hv : v.isLambda = false) :
    declare node frame name v visit = visit >>= fun _ => (match name with
      | none => pure { frame with dynamic := true }
      | some s => if s ∈ frame.constants then throw (.duplicateName node s .constant)
          else pure { frame with constants := s :: frame.constants }) := by
  cases v with
  | lit a s => rfl
  | op a code es => cases code <;> first | rfl | cases hv

end Check

/-! ### Lambda nodes with the same parameters -/

namespace Lambda

variable {a : α} {b : β} {ps : List (Expr α)} {qs : List (Expr β)}

private theorem paramNames_congr (seen : List String)
    (h : qs.map Expr.name? = ps.map Expr.name?) :
    paramNames b seen qs = (paramNames a seen ps).mapError (EvalError.map fun _ => b) := by
  induction ps generalizing seen qs with
  | nil =>
    obtain rfl := List.map_eq_nil_iff.1 h
    rfl
  | cons p ps ih =>
    cases qs with
    | nil => cases h
    | cons q qs =>
      obtain ⟨hname, h⟩ := List.cons.inj h
      rw [paramNames, paramNames, hname]
      cases p.name? with
      | none => rfl
      | some s =>
        dsimp only
        split
        · rfl
        · rw [ih (s :: seen) h]
          cases paramNames a (s :: seen) ps <;> rfl

/-- What a lambda node declares depends on the names of its parameters. If it declares nothing, then
the error is told of the node. -/
theorem declare_of_names (hlen : qs.length = ps.length)
    (h : qs.dropLast.map Expr.name? = ps.dropLast.map Expr.name?) :
    (declare b qs).map params =
      ((declare a ps).map params).mapError (EvalError.map fun _ => b) := by
  rcases ps.eq_nil_or_concat' with rfl | ⟨ps, e, rfl⟩
  · obtain rfl := List.length_eq_zero_iff.1 hlen
    rfl
  · rcases qs.eq_nil_or_concat' with rfl | ⟨qs, f, rfl⟩
    · simp at hlen
    · rw [List.dropLast_concat, List.dropLast_concat] at h
      rw [declare, declare, List.getLast?_concat, List.getLast?_concat, List.dropLast_concat,
        List.dropLast_concat]
      dsimp only
      rw [paramNames_congr (a := a) (b := b) [] h]
      cases paramNames a [] ps <;> rfl

end Lambda

/-! ### Names and declarations -/

namespace CheckComparison

open Check

variable {cmp : CheckComparison α β} {P Q : Report α → Report β → Prop} {a : α} {b : β}
  {n v : Expr α} {m w : Expr β} {frames frames' : List StaticFrame} {frame : StaticFrame}
  {code : Operator} {visit : CheckM α Unit} {visit' : CheckM β Unit} {A B : Option (List String)}

/-- A name is spelled out on both sides, or computed on both. -/
theorem related_nameOf (hname : m.literal? = n.literal?)
    (hvisit : cmp.Related P Q (fun _ _ => True) visit visit')
    (hspelled : n.literal? ≠ none → ∀ r ρ, P r ρ → Q r ρ)
    (hwarn : ∀ r ρ, Q r ρ → Q (r.warn (.dynamicName a code)) (ρ.warn (.dynamicName b code)))
    (hbad : n.name? = none → cmp.Accepts (.invalidName a code) (.invalidName b code)) :
    cmp.Related P Q (fun s t => s = n.name? ∧ t = n.name?) (nameOf a code n visit)
      (nameOf b code m visit') := by
  match n, m, hname with
  | .lit _ (.str s), .lit _ _, rfl => exact .pure ⟨rfl, rfl⟩ (hspelled nofun)
  | .lit _ .null, .lit _ _, rfl | .lit _ (.num _), .lit _ _, rfl
  | .lit _ (.bool _), .lit _ _, rfl => exact .throw (hbad rfl)
  | .op .., .op .., _ =>
    exact hvisit.bind fun _ _ _ => (Related.record hwarn).bind fun _ _ _ =>
      .pure ⟨rfl, rfl⟩ fun _ _ hq => hq

/-- A lookup refers to the same on both sides. -/
theorem related_checkLookup (hlike : Alike frames frames') (name : Option String)
    (hwarn : ∀ s r ρ, P r ρ → P (r.warn (.unresolvedLookup a s)) (ρ.warn (.unresolvedLookup b s)))
    (hbad : ∀ s, cmp.Accepts (.uninitializedVariable a s) (.uninitializedVariable b s)) :
    cmp.Related P P (fun _ _ => True) (checkLookup frames a name) (checkLookup frames' b name) := by
  cases name with
  | none => exact .pure trivial fun _ _ hp => hp
  | some s =>
    rw [checkLookup, checkLookup, hlike _ _ (if_neg List.not_mem_nil)]
    split
    · exact .pure trivial fun _ _ hp => hp
    · exact .record (hwarn s)
    · exact .throw (hbad s)

/-- A call refers to the same on both sides. What is no lambda is left to the allow-lists. -/
theorem related_checkCall (hlike : Alike frames frames') {args : Nat} {s : String}
    (hlambda : ∀ k, standing (·.lambdas.lookup s) frames = .declared k → ∀ r ρ, P r ρ → Q r ρ)
    (harity : ∀ k, k ≠ args → cmp.Accepts (.lambdaArity a s k args) (.lambdaArity b s k args))
    (hundeclared : standing (·.lambdas.lookup s) frames = .undeclared →
      cmp.Related P Q (fun _ _ => True)
        (if A.all (s ∈ ·) then record (·.addCall s) else throw (.callNotAllowed a s))
        (if B.all (s ∈ ·) then record (·.addCall s) else throw (.callNotAllowed b s)))
    (hundecided : standing (·.lambdas.lookup s) frames = .undecided →
      cmp.Related P Q (fun _ _ => True)
        (if A.all (s ∈ ·) then record (·.addCall s)
          else record (·.warn (.unresolvedCall a s)))
        (if B.all (s ∈ ·) then record (·.addCall s)
          else record (·.warn (.unresolvedCall b s)))) :
    cmp.Related P Q (fun _ _ => True) (checkCall A frames a args (some s))
      (checkCall B frames' b args (some s)) := by
  rw [checkCall, checkCall, ← hlike _ _ rfl]
  cases hs : standing (·.lambdas.lookup s) frames with
  | declared k =>
    exact .ite (fun _ => .pure trivial (hlambda k hs)) fun hk => .throw (harity k hk)
  | undeclared => exact hundeclared hs
  | undecided => exact hundecided hs

/-- The case of one allow-list: a call that surely is a host call is listed or refused on both
sides, and one that may be is listed or warned of. -/
theorem related_checkCall_of_eq (hlike : Alike frames frames') {args : Nat} {s : String}
    (hlambda : ∀ k, standing (·.lambdas.lookup s) frames = .declared k → ∀ r ρ, P r ρ → Q r ρ)
    (hcall : (∀ k, standing (·.lambdas.lookup s) frames ≠ .declared k) → A.all (s ∈ ·) →
      ∀ r ρ, P r ρ → Q (r.addCall s) (ρ.addCall s))
    (hwarn : (∀ k, standing (·.lambdas.lookup s) frames ≠ .declared k) →
      A.all (s ∈ ·) = false → ∀ r ρ, P r ρ →
        Q (r.warn (.unresolvedCall a s)) (ρ.warn (.unresolvedCall b s)))
    (harity : ∀ k, k ≠ args → cmp.Accepts (.lambdaArity a s k args) (.lambdaArity b s k args))
    (hbad : cmp.Accepts (.callNotAllowed a s) (.callNotAllowed b s)) :
    cmp.Related P Q (fun _ _ => True) (checkCall A frames a args (some s))
      (checkCall A frames' b args (some s)) := by
  refine related_checkCall hlike hlambda harity (fun hs => ?_) fun hs => ?_
  · exact .ite (fun hA => .record (hcall (by simp [hs]) hA)) fun _ => .throw hbad
  · exact .ite (fun hA => .record (hcall (by simp [hs]) hA)) fun hA =>
      .record (hwarn (by simp [hs]) (Bool.eq_false_iff.2 hA))

/-- A name is declared on both sides, if it is new, or the frame has computed names from now on. -/
theorem related_declared {name : Option String} {next : String → StaticFrame}
    {isDup : String → Prop} [DecidablePred isDup] {err : String → EvalError α}
    {err' : String → EvalError β} {V : Option String → StaticFrame → Prop}
    (hbad : ∀ s, cmp.Accepts (err s) (err' s)) (hdynamic : V none { frame with dynamic := true })
    (hnext : ∀ s, ¬ isDup s → V (some s) (next s)) :
    cmp.Related P P (fun s t => s = t ∧ V name s)
      (match name with
        | none => pure { frame with dynamic := true }
        | some s => if isDup s then throw (err s) else pure (next s))
      (match name with
        | none => pure { frame with dynamic := true }
        | some s => if isDup s then throw (err' s) else pure (next s)) := by
  cases name with
  | none => exact .pure ⟨rfl, hdynamic⟩ fun _ _ hp => hp
  | some s =>
    exact .ite (fun _ => .throw (hbad s)) fun hs => .pure ⟨rfl, hnext s hs⟩ fun _ _ hp => hp

/-- A binding whose value is no lambda declares a constant on both sides. -/
theorem related_declare_constant {name : Option String} (hv : v.isLambda = false)
    (hw : w.isLambda = false) (hvisit : cmp.Related P Q (fun _ _ => True) visit visit')
    (hdup : ∀ s, cmp.Accepts (.duplicateName a s .constant) (.duplicateName b s .constant)) :
    cmp.Related P Q (fun s t => s = t ∧ frame.Declares name v s ∧ Declarable v)
      (declare a frame name v visit) (declare b frame name w visit') := by
  have hdeclarable : Declarable v := by
    rintro label ps rfl
    cases hv
  rw [declare_of_isLambda_eq_false hv, declare_of_isLambda_eq_false hw]
  exact hvisit.bind fun _ _ _ =>
    related_declared (V := fun name s => frame.Declares name v s ∧ Declarable v) hdup
      ⟨.dynamic, hdeclarable⟩ fun s hs => ⟨.constant hv hs, hdeclarable⟩

/-- A binding whose value is a lambda node declares a lambda on both sides. -/
theorem related_declare_lambda {name : Option String} {label : α} {label' : β}
    {ps : List (Expr α)} {qs : List (Expr β)}
    (hparams : (Lambda.declare label' qs).map Lambda.params =
      ((Lambda.declare label ps).map Lambda.params).mapError (EvalError.map fun _ => label'))
    (hcount : ∀ r ρ, P r ρ → Q r.countOp ρ.countOp)
    (hbad : ∀ e, Lambda.declare label ps = .error e → cmp.Accepts e (e.map fun _ => label'))
    (hdup : ∀ s, cmp.Accepts (.duplicateName a s .lambda) (.duplicateName b s .lambda)) :
    cmp.Related P Q
      (fun s t => s = t ∧ frame.Declares name (.op label .lambda ps) s ∧
        Declarable (.op label .lambda ps))
      (declare a frame name (.op label .lambda ps) visit)
      (declare b frame name (.op label' .lambda qs) visit') := by
  refine (Related.record hcount).bind fun _ _ _ => ?_
  have hlift : cmp.Related Q Q (fun l m => Lambda.declare label ps = .ok l ∧ m.params = l.params)
      (liftM (Lambda.declare label ps)) (liftM (Lambda.declare label' qs)) := by
    refine .lift (fun l hl => ?_) fun e he => ?_
    · rw [hl] at hparams
      cases hm : Lambda.declare label' qs with
      | error e => rw [hm] at hparams; cases hparams
      | ok m =>
        rw [hm] at hparams
        exact ⟨m, rfl, hl, Except.ok.inj hparams⟩
    · rw [he] at hparams
      cases hm : Lambda.declare label' qs with
      | ok m => rw [hm] at hparams; cases hparams
      | error f =>
        rw [hm] at hparams
        exact ⟨f, rfl, Except.error.inj hparams ▸ hbad e he⟩
  refine hlift.bind fun l m h => ?_
  have hdeclarable : Declarable (.op label .lambda ps) := by
    rintro _ _ ⟨⟩
    exact ⟨l, h.1⟩
  rw [h.2]
  exact related_declared
    (V := fun name s => frame.Declares name (.op label .lambda ps) s ∧
      Declarable (.op label .lambda ps)) hdup ⟨.dynamic, hdeclarable⟩ fun s hs =>
        ⟨.lambda h.1 (Option.not_isSome_iff_eq_none.1 hs), hdeclarable⟩

end CheckComparison

end OpTree
