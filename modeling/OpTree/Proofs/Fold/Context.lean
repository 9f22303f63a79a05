import OpTree.Fold
import OpTree.Proofs.Limits.Strings

/-!
# Evaluation in a context

An expression that has a value on its own, without scopes around it and without host calls, has that
value wherever it stands. The frames around it are found below all frames of its own, so a name
that is found without them is found in the same frame; and a name that is not found makes the
evaluation on its own fail, about which nothing is claimed (`embedding`). The strings that are
counted are the same, too, and so is what happens meanwhile.

Main statements: `related_embedding` compares the two evaluations, and `Fold.unbounded_of_constant?`
is what it says of the parts that folding replaces.
-/

namespace OpTree

open Comparison Eval

variable {α : Type}

/-- The one stack has frames outside of those of the other. -/
def ScopeStack.Extends (outer : List (Frame α)) (σ τ : ScopeStack α) : Prop :=
  τ.visible = σ.visible ++ outer

namespace ScopeStack.Extends

variable {outer : List (Frame α)} {σ τ : ScopeStack α} {name : String} {depth : Nat}
  {l : Lambda α}

theorem push (h : σ.Extends outer τ) (frame : Frame α) :
    (σ.push frame).Extends outer (τ.push frame) := by
  rw [Extends, visible_push, visible_push, h, List.cons_append]

theorem constant? (h : σ.Extends outer τ) {v : Scalar} (hv : σ.constant? name = some v) :
    τ.constant? name = some v := by
  rw [ScopeStack.constant?] at hv ⊢
  rw [h, List.findSome?_append, hv, Option.some_or]

/-- A lambda is found in the same frame, and a call does the same to both stacks. -/
theorem lambda? (h : σ.Extends outer τ) (hl : σ.lambda? name = some (depth, l)) :
    ∃ depth', τ.lambda? name = some (depth', l) ∧
      (σ.mark depth name true).Extends outer (τ.mark depth' name true) ∧
      ((σ.mark depth name true).narrow depth).Extends outer
        ((τ.mark depth' name true).narrow depth') := by
  obtain ⟨inner, f, rest, hs, hd, hf, hi⟩ := lambdaIn?_eq_some.1 hl
  -- the frame has more frames outside of it on the right, and as many inside
  have ht : τ.visible = inner ++ f :: (rest ++ outer) := by
    rw [h, hs, List.append_assoc, List.cons_append]
  have hmark : (σ.mark depth name true).visible = inner ++ f.mark name true :: rest :=
    visible_mark hs hd
  have hmark' : (τ.mark ((rest ++ outer).length + 1) name true).visible =
      inner ++ f.mark name true :: (rest ++ outer) := visible_mark ht rfl
  refine ⟨(rest ++ outer).length + 1, lambdaIn?_eq_some.2 ⟨inner, f, _, ht, rfl, hf, hi⟩, ?_, ?_⟩
  · rw [Extends, hmark, hmark', List.append_assoc, List.cons_append]
  · rw [Extends, visible_narrow hmark hd, visible_narrow hmark' rfl, List.cons_append]

end ScopeStack.Extends

/-! ### The comparison -/

/-- An evaluation without host calls, beside one with host calls and without limits. -/
def embedding (limits : Limits) (executor : Executor) (right : Setting) : Comparison α α where
  left := ⟨limits, .empty, executor⟩
  right := right
  waives err :=
    (∃ excess, err = .limitExceeded excess) ∨ (∃ a name, err = .uninitializedVariable a name) ∨
      ∃ a name, err = .undefinedCall a name
  blames err err' := err = err'
  value v := v.isValid
  value_of_isValid _ hv := hv

/-- The evaluation on its own has come to `c`, and the one that started in `base` to `d`: no host
call has been made and no time has passed, what has been counted and what happened were added to
what there was, and the scopes are at most as much deeper as those of the evaluation on its own are
deep. -/
structure Beside (base c d : State α) : Prop where
  history : d.history = base.history
  clock : d.clock = base.clock
  counters : ∀ counter, counter ≠ .scopeDepth →
    d.usage.stats.value counter = base.usage.stats.value counter + c.usage.stats.value counter
  depth : d.usage.scopeDepth ≤ base.usage.scopeDepth + c.usage.scopeDepth
  peak : d.usage.stats.scopeDepthMax ≤
    max base.usage.stats.scopeDepthMax (base.usage.scopeDepth + c.usage.stats.scopeDepthMax)
  trace : d.trace = c.trace ++ base.trace

namespace Beside

variable {base c d : State α}

theorem start (base : State α) : Beside base .start base.bare where
  history := rfl
  clock := rfl
  counters counter _ := by cases counter <;> rfl
  depth := Nat.le_add_right _ _
  peak := Nat.le_max_left _ _
  trace := rfl

theorem counts (h : Beside base c d) {f : Usage → Usage} (hf : Usage.Counts f) :
    Beside base { c with usage := f c.usage } { d with usage := f d.usage } := by
  obtain ⟨hhistory, hclock, hcounters, hdepth, hpeak, htrace⟩ := h
  refine ⟨hhistory, hclock, fun counter hne => ?_, ?_, ?_, htrace⟩
  · have hcounter := hcounters counter hne
    cases counter with
    | scopeDepth => exact absurd rfl hne
    | opCount | scopeCount | varCount | strCount | strChars =>
      cases hf <;>
        simp only [Stats.value, Usage.countOp, Usage.countVar, Usage.countString, Usage.openScope,
          Usage.closeScope] at hcounter ⊢ <;>
        omega
  · cases hf with
    | op | var | string => exact hdepth
    | openScope =>
      simp only [Usage.openScope]
      omega
    | closeScope =>
      simp only [Usage.closeScope]
      omega
  · cases hf with
    | op | var | string | closeScope => exact hpeak
    | openScope =>
      simp only [Usage.openScope]
      omega

theorem note (h : Beside base c d) (event : Event α) :
    Beside base (c.note event) (d.note event) :=
  { h with trace := congrArg (event :: ·) h.trace }

/-- What is accounted for on its own is accounted for where it stands. -/
theorem accounts (h : Beside base c d) {known : α → Bool} {s : String}
    (hs : State.start.Accounts known c s) : base.Accounts known d s := by
  have hcount : d.usage.stats.strCount = base.usage.stats.strCount + c.usage.stats.strCount :=
    h.counters .strCount nofun
  have hchars : d.usage.stats.strChars = base.usage.stats.strChars + c.usage.stats.strChars :=
    h.counters .strChars nofun
  have hvisits : visitsOf known d.trace = visitsOf known c.trace + visitsOf known base.trace := by
    rw [h.trace, visitsOf, List.countP_append]
    rfl
  rcases hs with ⟨hlt, hle⟩ | ⟨hlen, hlt⟩
  · have hlt : 0 < c.usage.stats.strCount := hlt
    have hle : 0 + s.length ≤ c.usage.stats.strChars := hle
    exact .inl ⟨by omega, by omega⟩
  · have hlt : 0 < visitsOf known c.trace := hlt
    exact .inr ⟨hlen, by omega⟩

end Beside

variable {limits : Limits} {executor : Executor} {right : Setting} {base : State α}
  {outer : List (Frame α)}

private theorem parallel_embedding (htime : limits.bound .evaluationTime = none)
    (hright : right.limits = .unlimited) :
    (embedding limits executor right).Parallel (fun _ : Site α => True) (fun _ => Beside base)
      (ScopeStack.Extends outer) where
  valid hv := hv
  constants h hv := h.constant? hv
  lambdas h hl := by
    obtain ⟨depth', hl', hmark, hnarrow⟩ := h.lambda? hl
    exact ⟨depth', _, hl', .inl ⟨rfl, hmark, hnarrow⟩⟩
  push frame h := h.push frame
  noConstant _ _ := .inr fun _ => .inr (.inl ⟨_, _, rfl⟩)
  noLambda _ _ := .inr ⟨rfl, fun _ => .inr (.inr ⟨_, _, rfl⟩)⟩
  fault _ _ _ := .inr rfl
  checks := by
    intro κ _ _ calls σ τ
    refine ⟨related_checkTime ?_ (fun h => absurd htime h) ?_, related_checkLimits ?_⟩
    · exact htime.trans (congrArg (·.bound .evaluationTime) hright).symm
    · intro budget hb
      exact nomatch htime.symm.trans hb
    · intro c d _
      have hr : d.usage.exceeded? (embedding (α := α) limits executor right).right.limits = none :=
        congrArg d.usage.exceeded? hright
      -- only the left-hand run has limits, and it is waived where it exceeds them
      cases hx : c.usage.exceeded? limits with
      | none => exact .inl ⟨hx, hr⟩
      | some x => exact .inr ⟨x, hx, .inl (.inl ⟨x, rfl⟩)⟩
  counts hf h := h.counts hf
  visit _ _ h := h.note _
  external _ _ _ h := h.note _
  enter _ _ _ h := h.note _
  leave h := h.note _
  invoke := by
    rintro κ name values c d - - hi
    cases hi with
    | call _ _ hsome => cases hsome

/-- **Evaluation in a context.** Without host calls, an expression does inside of more scopes what
it does on its own, but for the names that it does not find on its own and for limits. -/
theorem related_embedding (executor : Executor) (base : State α)
    (htime : limits.bound .evaluationTime = none) (hright : right.limits = .unlimited)
    {around : Site α} (haround : around.Sound) (κ : Site α) :
    ∀ τ, κ.Sound → κ.scopes.Extends around.scopes.visible τ →
      (embedding limits executor right).Visits unbounded unbounded
        (At (Beside base) κ.scopes τ) κ.expr κ.expr := by
  -- the frames around are the same at every visit, and only the site changes
  induction κ using Site.leads_wellFounded.induction with
  | _ κ ih =>
    intro τ hs hX
    have hs' : Site.Sound ⟨τ, κ.expr, κ.calls⟩ := by
      have hmem {f : Frame α} (hf : f ∈ τ.visible) :
          f ∈ κ.scopes.visible ∨ f ∈ around.scopes.visible := by
        rw [hX] at hf
        exact List.mem_append.1 hf
      exact ⟨fun f hf => (hmem hf).elim (hs.constants f) (haround.constants f),
        fun f hf => (hmem hf).elim (hs.lambdas f) (haround.lambdas f)⟩
    refine Site.related_unbounded_left hs (Site.related_unbounded_right hs' ?_)
    refine (parallel_embedding htime hright).related_evalNode trivial hs hX ?_
    exact fun κ' τ' h hX' => ih κ' h τ' (h.sound hs) hX'

/-- Without host calls, an expression does inside of more scopes what it does on its own, with the
same bound on the nesting. Of the scopes around it nothing has to be known. -/
theorem related_embedding_eval (executor : Executor) (base : State α)
    (htime : limits.bound .evaluationTime = none) (hright : right.limits = .unlimited)
    (depth : Nat) {κ : Site α} (hs : κ.Sound) {τ : ScopeStack α}
    (hX : κ.scopes.Extends outer τ) :
    (embedding limits executor right).Visits (eval depth) (eval depth)
      (At (Beside base) κ.scopes τ) κ.expr κ.expr := by
  induction depth generalizing κ τ with
  | zero => exact .fail (.inr rfl)
  | succ depth ih =>
    refine (parallel_embedding htime hright).related_evalNode trivial hs hX ?_
    exact fun κ' τ' h hX' => ih (h.sound hs) hX'

/-! ### Parts that have a value of their own -/

namespace Fold

/-- A part has the value of its own that evaluating it without scopes and host calls gives. -/
theorem constant?_eq_some {e : Expr α} {s : Scalar} :
    constant? e = some s ↔ (unbounded e Fold.setting .start).1 = .ok s := by
  rw [constant?, Expr.evaluate, Expr.run_eq_unbounded]
  cases (unbounded e Fold.setting .start).1 with
  | error => constructor <;> rintro ⟨⟩
  | ok v => exact ⟨fun h => congrArg Except.ok (Option.some.inj h), fun h => by cases h; rfl⟩

/-- **What folding replaces.** A part that is found to have a value of its own has that value
wherever it stands. It leaves the scopes as they are, no host call is made, and a string is
accounted for if the `typeOf` nodes are known. -/
theorem unbounded_of_constant? {e : Expr α} {s : Scalar} (h : constant? e = some s)
    {κ : Site α} (hκ : κ.Sound) {setting : Setting}
    (hlimits : setting.limits = .unlimited) {d : State α} (hd : d.scopes = κ.scopes) :
    ∃ d', unbounded e setting d = (.ok s, d') ∧ s.isValid ∧ d'.scopes = κ.scopes ∧
      d'.history = d.history ∧ d'.clock = d.clock ∧
      ∀ t known, s = .str t → e.TypesKnown known → d.Accounts known d' t := by
  have hvalue := constant?_eq_some.1 h
  have htime : Fold.setting.limits.bound .evaluationTime = none := rfl
  have hrun := related_embedding .timed d htime hlimits hκ (.start e) κ.scopes
    (Site.sound_start e) rfl .start d ⟨rfl, hd, .start d⟩
  change Comparison.Agree _ _ _ (unbounded e Fold.setting .start) (unbounded e setting d) at hrun
  generalize hown : unbounded e Fold.setting .start = r at hrun hvalue
  generalize unbounded e setting d = r' at hrun ⊢
  cases hrun with
  | @ok v _ c d' hv hq =>
    obtain ⟨rfl, hvalid⟩ := hv
    obtain ⟨-, hscopes, hk⟩ := hq
    cases hvalue
    refine ⟨d', rfl, hvalid, hscopes, hk.history, hk.clock, ?_⟩
    rintro t known rfl hknown
    have hstart : State.start.Accounts known c t := Expr.accounts_of_str hknown hown
    exact hk.accounts hstart
  | error => cases hvalue
  | waived => cases hvalue

end Fold

end OpTree
