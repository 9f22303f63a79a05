import OpTree.Proofs.Evaluation.Contracts
import OpTree.Proofs.Evaluation.Forward

/-!
# Counter limits are exact

A run under limits does what the run without limits does until a counter is above its bound, and
stops there. Between two steps all counters are within their bounds (`Settled`); a scope that has
just been entered is the one exception, since it is checked at the visit that follows (`Opened`).
A counter that is found above its bound is above it by one, but for the characters of a string,
which are counted at once.

`Tracked` compares the two ends: either they are the same, or the run under limits has stopped while
the other one went on to use up more than a bound allows. Which of these it is can be told from the
statistics of the run without limits.

Main statement: `Expr.run_of_isUntimed`.
-/

namespace OpTree

variable {α β γ : Type}

/-! ### Bounds -/

namespace Limits

/-- Only counters are bounded. -/
def IsUntimed (limits : Limits) : Prop :=
  limits.bound .evaluationTime = none ∧ limits.bound .callTime = none

/-- Every counter is within its bound. -/
def Admits (limits : Limits) (stats : Stats) : Prop :=
  ∀ counter bound, limits.bound (.counter counter) = some bound → stats.value counter ≤ bound

/-- Lower counters are within the same bounds. -/
theorem Admits.mono {limits : Limits} {stats stats' : Stats} (h : limits.Admits stats)
    (hle : ∀ counter, stats'.value counter ≤ stats.value counter) : limits.Admits stats' :=
  fun counter bound hb => Nat.le_trans (hle counter) (h counter bound hb)

end Limits

/-- What the report of an excess says: the counter is bounded, and it is above its bound by one,
or by more if it counts characters. -/
def Usage.Excess.Reports (limits : Limits) (x : Usage.Excess) : Prop :=
  limits.bound (.counter x.counter) = some x.bound ∧ x.bound < x.value ∧
    (x.counter ≠ .strChars → x.value = x.bound + 1)

/-- There are no other counters. -/
theorem Counter.mem_all (counter : Counter) : counter ∈ Counter.all := by
  cases counter <;> decide

namespace Usage

variable {limits : Limits} {u : Usage}

/-- No counter is found above its bound if none is. -/
theorem exceeded?_eq_none : u.exceeded? limits = none ↔
    ∀ counter bound, limits.bound (.counter counter) = some bound → u.value counter ≤ bound := by
  rw [exceeded?, List.findSome?_eq_none_iff]
  constructor
  · intro h counter bound hb
    have hx := h counter counter.mem_all
    simp only [excess?, hb] at hx
    split at hx
    · cases hx
    · omega
  · intro h counter _
    rw [excess?]
    split
    · rename_i bound hb
      exact if_neg (Nat.not_lt.2 (h counter bound hb))
    · rfl

/-- All counters are within their bounds, and so was every depth that has been reached. -/
structure Settled (limits : Limits) (u : Usage) : Prop where
  depth : u.scopeDepth ≤ u.stats.scopeDepthMax
  admits : limits.Admits u.stats

/-- All counters are within their bounds, unless a scope has just been entered. -/
def Opened (limits : Limits) (u : Usage) : Prop :=
  Settled limits u ∨ ∃ v, Settled limits v ∧ u = v.openScope

/-- Where the limits are checked, counters are above their bounds by no more than one, and the depth
is the only counter that may have been higher before. -/
structure Checkable (limits : Limits) (u : Usage) : Prop where
  depth : u.scopeDepth ≤ u.stats.scopeDepthMax
  value : ∀ counter bound, limits.bound (.counter counter) = some bound →
    counter ≠ .strChars → u.value counter ≤ bound + 1
  peak : ∀ bound, limits.bound (.counter .scopeDepth) = some bound → u.scopeDepth ≤ bound →
    u.stats.scopeDepthMax ≤ bound

/-- A counter is never above its peak. -/
theorem value_le (h : u.scopeDepth ≤ u.stats.scopeDepthMax) (counter : Counter) :
    u.value counter ≤ u.stats.value counter := by
  cases counter with
  | scopeDepth => exact h
  | opCount | scopeCount | varCount | strCount | strChars => exact Nat.le_refl _

theorem Settled.zero : Settled limits .zero :=
  ⟨Nat.le_refl _, fun counter _ _ => by cases counter <;> exact Nat.zero_le _⟩

/-- Leaving a scope keeps the counters within their bounds. -/
theorem Settled.closeScope (h : Settled limits u) : Settled limits u.closeScope :=
  ⟨Nat.le_trans (Nat.sub_le _ _) h.depth, h.admits⟩

/-- What has been counted since the counters were settled can be checked if it is one at most. -/
theorem Settled.checkable {v : Usage} (h : Settled limits v)
    (hvalue : ∀ counter, counter ≠ .strChars → u.value counter ≤ v.value counter + 1)
    (hdepth : u.scopeDepth ≤ u.stats.scopeDepthMax)
    (hpeak : u.stats.scopeDepthMax ≤ max v.stats.scopeDepthMax u.scopeDepth) :
    Checkable limits u where
  depth := hdepth
  value counter bound hb hne := by
    have hv := value_le h.depth counter
    have hbound := h.admits counter bound hb
    have hone := hvalue counter hne
    omega
  peak bound hb hle := by
    have hbound : v.stats.scopeDepthMax ≤ bound := h.admits _ bound hb
    omega

/-- Once a variable is counted, the limits can be checked. -/
theorem Settled.countVar (h : Settled limits u) : Checkable limits u.countVar := by
  refine h.checkable (fun counter _ => ?_) h.depth (Nat.le_max_left _ _)
  cases counter <;> simp [value, Stats.value, Usage.countVar]

/-- So they can once a string is counted. -/
theorem Settled.countString (h : Settled limits u) (chars : Nat) :
    Checkable limits (u.countString chars) := by
  refine h.checkable (fun counter hne => ?_) h.depth (Nat.le_max_left _ _)
  cases counter <;> simp [value, Stats.value, Usage.countString] at hne ⊢

/-- So they can once an operation is counted, also if a scope has been entered before. -/
theorem Opened.countOp (h : Opened limits u) : Checkable limits u.countOp := by
  rcases h with h | ⟨v, h, rfl⟩
  · refine h.checkable (fun counter _ => ?_) h.depth (Nat.le_max_left _ _)
    cases counter <;> simp [value, Stats.value, Usage.countOp]
  · refine h.checkable (fun counter _ => ?_) (Nat.le_max_right _ _) (Nat.le_refl _)
    cases counter <;> simp [value, Stats.value, Usage.countOp, Usage.openScope]

/-- Counters that pass the check are settled. -/
theorem Checkable.settled (h : Checkable limits u) (hx : u.exceeded? limits = none) :
    Settled limits u := by
  rw [exceeded?_eq_none] at hx
  refine ⟨h.depth, fun counter bound hb => ?_⟩
  have hle := hx counter bound hb
  cases counter with
  | scopeDepth => exact h.peak bound hb hle
  | opCount | scopeCount | varCount | strCount | strChars => exact hle

theorem exceeded?_unlimited (u : Usage) : u.exceeded? .unlimited = none :=
  rfl

/-- The value that is reported is that of the counter. -/
theorem value_of_exceeded? {x : Excess} (hx : u.exceeded? limits = some x) :
    x.value = u.value x.counter := by
  obtain ⟨counter, -, hc⟩ := List.exists_of_findSome?_eq_some hx
  rw [excess?] at hc
  split at hc
  · split at hc
    · cases hc
      rfl
    · cases hc
  · cases hc

/-- A counter that does not pass the check is reported as it is. -/
theorem Checkable.reports (h : Checkable limits u) {x : Excess}
    (hx : u.exceeded? limits = some x) : x.Reports limits ∧ x.bound < u.stats.value x.counter := by
  obtain ⟨hb, hlt⟩ := exceeded?_eq_some hx
  have hvalue := value_of_exceeded? hx
  refine ⟨⟨hb, hlt, fun hne => ?_⟩, ?_⟩
  · have hone := h.value x.counter x.bound hb hne
    omega
  · have hpeak := value_le h.depth x.counter
    omega

end Usage

/-! ### Runs with and without limits -/

namespace Eval

open EvalM

/-- How a run under limits ends, beside the end of the run without: in the same way, the counters
being settled if there is a value; or before that, when a counter is above its bound. -/
inductive Tracked (limits : Limits) :
    Except (EvalError α) β × State α → Except (EvalError α) β × State α → Prop
  | ok {b c} : c.usage.Settled limits → Tracked limits (.ok b, c) (.ok b, c)
  | error {err c} : (∀ x, err ≠ .limitExceeded x) → Tracked limits (.error err, c) (.error err, c)
  | stopped {x c t} : x.Reports limits → x.bound < t.2.usage.stats.value x.counter →
      c.history <:+ t.2.history → Tracked limits (.error (.limitExceeded x), c) t

variable {limits : Limits} {host : Host} {executor : Executor}

/-- Started where `P` holds of the counters, a step under limits is tracked by the step without. -/
def Exact (limits : Limits) (host : Host) (executor : Executor) (P : Usage → Prop)
    (x : EvalM α β) : Prop :=
  ∀ c : State α, P c.usage →
    Tracked limits (x ⟨limits, host, executor⟩ c) (x ⟨.unlimited, host, executor⟩ c)

namespace Exact

variable {P : Usage → Prop} {x : EvalM α β} {f : β → EvalM α γ}

theorem pure (b : β) :
    Exact limits host executor (Usage.Settled limits) (pure b : EvalM α β) :=
  fun _ hc => .ok hc

theorem fail {err : EvalError α} (h : ∀ x, err ≠ .limitExceeded x) :
    Exact limits host executor P (fail err : EvalM α β) :=
  fun _ _ => .error h

/-- Where a limit stops the first step, its counter stays above the bound as the run without limits
goes on. -/
theorem bind (hx : Exact limits host executor P x)
    (hf : ∀ b, Exact limits host executor (Usage.Settled limits) (f b))
    (hforward : ∀ b, Forward (f b)) : Exact limits host executor P (x >>= f) := by
  intro c hc
  have htracked := hx c hc
  rw [bind_apply, bind_apply]
  generalize x ⟨limits, host, executor⟩ c = r at htracked
  generalize x ⟨.unlimited, host, executor⟩ c = t at htracked
  obtain ⟨err | b, d⟩ := t
  · cases htracked with
    | error hne => exact .error hne
    | stopped hreports hlt hhistory => exact .stopped hreports hlt hhistory
  · cases htracked with
    | ok hsettled => exact hf b d hsettled
    | stopped hreports hlt hhistory =>
      -- the run without limits goes on, and takes nothing back
      have hd := hforward b ⟨.unlimited, host, executor⟩ d
      exact .stopped hreports (Nat.lt_of_lt_of_le hlt (hd.stats _)) (hhistory.trans hd.history)

/-- A change in the end keeps this if it does not touch what has been counted. -/
theorem andFinally {change : State α → State α} (hx : Exact limits host executor P x)
    (hsettled : ∀ c, c.usage.Settled limits → (change c).usage.Settled limits)
    (hstats : ∀ c, (change c).usage.stats = c.usage.stats)
    (hhistory : ∀ c, (change c).history = c.history) :
    Exact limits host executor P (x.andFinally change) := by
  intro c hc
  have htracked := hx c hc
  change Tracked limits ((x ⟨limits, host, executor⟩ c).1, change (x _ c).2)
    ((x ⟨.unlimited, host, executor⟩ c).1, change (x _ c).2)
  generalize x ⟨limits, host, executor⟩ c = r at htracked ⊢
  generalize x ⟨.unlimited, host, executor⟩ c = t at htracked ⊢
  cases htracked with
  | ok h => exact .ok (hsettled _ h)
  | error hne => exact .error hne
  | stopped hreports hlt hsuffix =>
    refine .stopped hreports ?_ ?_
    · rwa [hstats]
    · rwa [hhistory, hhistory]

/-- A check of the limits fails with the first excess. -/
private theorem checkLimits_apply (setting : Setting) (c : State α) :
    checkLimits setting c =
      match c.usage.exceeded? setting.limits with
      | some x => (.error (.limitExceeded x), c)
      | none => (.ok (), c) := by
  simp only [checkLimits, bind_apply, state, EvalM.setting]
  cases c.usage.exceeded? setting.limits <;> rfl

/-- It fails only where a counter is above its bound. -/
private theorem tracked_checkLimits {c : State α} (h : c.usage.Checkable limits) :
    Tracked limits (checkLimits ⟨limits, host, executor⟩ c)
      (checkLimits ⟨.unlimited, host, executor⟩ c) := by
  rw [checkLimits_apply, checkLimits_apply, Usage.exceeded?_unlimited]
  dsimp only
  cases hx : c.usage.exceeded? limits with
  | none => exact .ok (h.settled hx)
  | some x =>
    obtain ⟨hreports, hlt⟩ := h.reports hx
    exact .stopped hreports hlt (List.suffix_refl _)

/-- Counting a variable. -/
theorem countVar : Exact limits host executor (Usage.Settled limits) (countVar (α := α)) :=
  fun _ h => tracked_checkLimits h.countVar

/-- Counting a string. -/
theorem countString (v : Scalar) :
    Exact limits host executor (Usage.Settled limits) (countString (α := α) v) := by
  cases v with
  | str s => exact fun _ h => tracked_checkLimits (h.countString s.length)
  | null | num | bool => exact pure _

/-- A visit, if no time is limited. -/
theorem tick (hu : limits.IsUntimed) (node : α) :
    Exact limits host executor (Usage.Opened limits) (Eval.tick node) := by
  intro c hc
  have htime (d : State α) : checkTime ⟨limits, host, executor⟩ d = (.ok (), d) := by
    simp only [checkTime, bind_apply, EvalM.setting, hu.1]
    rfl
  have hlimited : Eval.tick node ⟨limits, host, executor⟩ c =
      checkLimits ⟨limits, host, executor⟩ (c.visited node) := by
    change (checkTime >>= fun _ => checkLimits) ⟨limits, host, executor⟩ (c.visited node) = _
    rw [bind_apply, htime]
  rw [hlimited]
  exact tracked_checkLimits (c := c.visited node) hc.countOp

/-- A scope is entered with the limits still to be checked. -/
theorem inScope {x : EvalM α Scalar} (frame : Frame α)
    (hx : Exact limits host executor (Usage.Opened limits) x) :
    Exact limits host executor (Usage.Settled limits) (inScope frame x) := by
  intro c hc
  have hbody : Exact limits host executor (Usage.Opened limits) (x.andFinally State.leaveScope) :=
    hx.andFinally (fun _ h => h.closeScope) (fun _ => rfl) fun _ => rfl
  exact hbody (c.enterScope frame) (.inr ⟨c.usage, hc, rfl⟩)

/-- Without time budgets no host call is cut off. -/
theorem await (hu : limits.IsUntimed) (node : α) (name : String) (reply : Reply) :
    Exact limits host executor (Usage.Settled limits) (await node name reply) := by
  intro c hc
  have hnone : allowance? limits c.clock node name = none := by
    rw [allowance?, hu.1, hu.2]
  have hnone' : allowance? .unlimited c.clock node name = none := rfl
  simp only [Eval.await, bind_apply, EvalM.setting, state, hnone, hnone']
  cases reply with
  | never => cases executor <;> exact .error (by simp)
  | answer delay result =>
    cases result with
    | error cause => cases executor <;> exact .error (by simp)
    | ok value => cases executor <;> exact .ok hc

/-- A reply, if no time is limited. -/
theorem receive (hu : limits.IsUntimed) (node : α) (name : String) (reply : Reply) :
    Exact limits host executor (Usage.Settled limits) (receive node name reply) := by
  refine (await hu node name reply).bind (fun v => ?_) fun v => ?_
  · split
    · exact (countString v).bind (fun _ => pure v) fun _ => .pure v
    · exact fail nofun
  · split
    · exact (Forward.countString v).bind fun _ => .pure v
    · exact .fail _

/-- A host call, if no time is limited. -/
theorem invoke (hu : limits.IsUntimed) (node : α) (name : String) (call : HostCall)
    (values : List Scalar) :
    Exact limits host executor (Usage.Settled limits) (invoke node name call values) := by
  intro c hc
  rw [invoke_apply, invoke_apply]
  exact receive hu node name _ { c with history := ⟨name, values⟩ :: c.history } hc

/-- Steps that are exact and take nothing back are closed under composition. -/
theorem closed (hu : limits.IsUntimed) {visit : Expr α → EvalM α Scalar}
    (hforward : ∀ e, Forward (visit e))
    (h : ∀ e, Exact limits host executor (Usage.Opened limits) (visit e)) :
    Closed visit fun x =>
      Forward x ∧ Exact limits host executor (Usage.Settled limits) x where
  pure b := ⟨.pure b, pure b⟩
  fail err hne := ⟨.fail err, fail hne⟩
  bind hx hf := ⟨hx.1.bind fun b => (hf b).1, hx.2.bind (fun b => (hf b).2) fun b => (hf b).1⟩
  state := ⟨.state, fun _ hc => .ok hc⟩
  host hk := ⟨Forward.setting.bind fun s => (hk s.host).1, fun c hc => (hk host).2 c hc⟩
  modify hq := ⟨fun _ c => .of_quiet hq c, fun c hc => .ok (hq.usage c ▸ hc)⟩
  andFinally hx hq := ⟨fun s c => (hx.1 s c).trans (.of_quiet hq _),
    hx.2.andFinally (fun c hc => hq.usage c ▸ hc) (fun c => by rw [hq.usage]) hq.history⟩
  countVar := ⟨(Forward.closed hforward).countVar, countVar⟩
  countString v := ⟨.countString v, countString v⟩
  visits e := ⟨hforward e, fun c hc => h e c (.inl hc)⟩
  inScope frame e := ⟨.inScope frame (hforward e), inScope frame (h e)⟩
  external node name := ⟨.note _, fun _ hc => .ok hc⟩
  invoke node name call values := ⟨.invoke node name call values, invoke hu node name call values⟩

end Exact

/-- **Evaluation is exact.** -/
theorem exact_eval (hu : limits.IsUntimed) (depth : Nat) (e : Expr α) :
    Exact limits host executor (Usage.Opened limits) (eval depth e) := by
  induction depth generalizing e with
  | zero => exact .fail nofun
  | succ depth ih =>
    have hanswer : Forward (answer (eval depth) e) ∧
        Exact limits host executor (Usage.Settled limits) (answer (eval depth) e) :=
      (Exact.closed hu (forward_eval depth) ih).answer e
    rw [eval_succ, evalNode_eq]
    exact (Exact.tick hu _).bind (fun _ => hanswer.2) fun _ => hanswer.1

end Eval

/-! ### Runs -/

namespace Expr

open Eval

variable {limits : Limits} {host : Host} {executor : Executor} {e : Expr α}

/-- Under limits the start is tracked. -/
private theorem tracked_start (hu : limits.IsUntimed) (host : Host) (executor : Executor)
    (e : Expr α) (depth : Nat) :
    Tracked limits (eval depth e ⟨limits, host, executor⟩ .start)
      (eval depth e ⟨.unlimited, host, executor⟩ .start) :=
  exact_eval hu depth e .start (.inl .zero)

/-- A run that succeeds under limits is the run without, and stays within all bounds. -/
theorem run_unlimited_of_ok (hu : limits.IsUntimed) {r : Evaluation}
    (h : (e.run ⟨limits, host, executor⟩).outcome = .ok r) :
    e.run ⟨.unlimited, host, executor⟩ = e.run ⟨limits, host, executor⟩ ∧
      limits.Admits r.stats := by
  have htracked := tracked_start hu host executor e e.extent.nesting
  simp only [run, runWithin] at h ⊢
  generalize eval e.extent.nesting e ⟨limits, host, executor⟩ .start = c at htracked h ⊢
  generalize eval e.extent.nesting e ⟨.unlimited, host, executor⟩ .start = d at htracked ⊢
  cases htracked with
  | ok hsettled =>
    obtain rfl := Except.ok.inj h
    exact ⟨rfl, hsettled.admits⟩
  | error _ | stopped _ _ _ => cases h

/-- A run without limits that stays within all bounds is the run under limits. -/
theorem run_of_admits (hu : limits.IsUntimed) {r : Evaluation}
    (h : (e.run ⟨.unlimited, host, executor⟩).outcome = .ok r) (hadmits : limits.Admits r.stats) :
    e.run ⟨limits, host, executor⟩ = e.run ⟨.unlimited, host, executor⟩ := by
  have htracked := tracked_start hu host executor e e.extent.nesting
  simp only [run, runWithin] at h ⊢
  generalize eval e.extent.nesting e ⟨limits, host, executor⟩ .start = c at htracked ⊢
  generalize eval e.extent.nesting e ⟨.unlimited, host, executor⟩ .start = d at htracked h ⊢
  cases htracked with
  | ok | error => rfl
  | @stopped x _ _ hreports hlt _ =>
    -- what has been used up is not within the bound
    obtain ⟨err | w, d⟩ := d
    · cases h
    · obtain rfl := Except.ok.inj h
      exact absurd (hadmits x.counter x.bound hreports.1) (Nat.not_le.2 hlt)

/-- **Counter limits are exact.** Without time budgets, a run under limits has the outcome of the
run without limits if that succeeds within all bounds, and is stopped by a limit if it succeeds
beyond one. If the run without limits fails, the run under limits fails in the same way or is
stopped by a limit. The host calls made are the first of those that are made without limits. A limit
that stops a run is reported with its bound and the value one above it, or with a value above it if
characters are counted. -/
theorem run_of_isUntimed (hu : limits.IsUntimed) (host : Host) (executor : Executor)
    (e : Expr α) :
    (∀ v s, (e.run ⟨.unlimited, host, executor⟩).outcome = .ok ⟨v, s⟩ →
      (limits.Admits s → (e.run ⟨limits, host, executor⟩).outcome = .ok ⟨v, s⟩) ∧
      (¬ limits.Admits s →
        ∃ x, (e.run ⟨limits, host, executor⟩).outcome = .error (.limitExceeded x))) ∧
    (∀ err, (e.run ⟨.unlimited, host, executor⟩).outcome = .error err →
      (e.run ⟨limits, host, executor⟩).outcome = .error err ∨
        ∃ x, (e.run ⟨limits, host, executor⟩).outcome = .error (.limitExceeded x)) ∧
    (e.run ⟨limits, host, executor⟩).calls <+: (e.run ⟨.unlimited, host, executor⟩).calls ∧
    ∀ x, (e.run ⟨limits, host, executor⟩).outcome = .error (.limitExceeded x) →
      x.Reports limits := by
  have hok : ∀ v s, (e.run ⟨.unlimited, host, executor⟩).outcome = .ok ⟨v, s⟩ →
      limits.Admits s → (e.run ⟨limits, host, executor⟩).outcome = .ok ⟨v, s⟩ :=
    fun v s h hadmits => by rw [run_of_admits hu h hadmits, h]
  have htracked := tracked_start hu host executor e e.extent.nesting
  simp only [run, runWithin] at hok ⊢
  generalize eval e.extent.nesting e ⟨limits, host, executor⟩ .start = c at htracked hok ⊢
  generalize eval e.extent.nesting e ⟨.unlimited, host, executor⟩ .start = d at htracked hok ⊢
  cases htracked with
  | ok hsettled =>
    refine ⟨fun v s h => ⟨hok v s h, fun hnot => ?_⟩, by rintro _ ⟨⟩, List.prefix_refl _,
      by rintro _ ⟨⟩⟩
    cases h
    exact absurd hsettled.admits hnot
  | error hne =>
    refine ⟨by rintro _ _ ⟨⟩, fun err h => .inl h, List.prefix_refl _, fun x h => ?_⟩
    exact absurd (Except.error.inj h) (hne x)
  | @stopped x _ _ hreports _ hhistory =>
    refine ⟨fun v s h => ⟨hok v s h, fun _ => ⟨x, rfl⟩⟩, fun _ _ => .inr ⟨x, rfl⟩,
      List.reverse_prefix.2 hhistory, ?_⟩
    rintro _ ⟨⟩
    exact hreports

/-- Two nodes, of which one is allowed. -/
theorem run_of_isUntimed_typeOf :
    let limits := Limits.unlimited.set (.counter .opCount) (some 1)
    let e : Expr Nat := .op 0 .typeOf [.lit 1 .null]
    let full := e.run ⟨.unlimited, .empty, .timed⟩
    let bounded := e.run ⟨limits, .empty, .timed⟩
    limits.IsUntimed ∧ full.outcome = .ok ⟨.str "null", ⟨2, 0, 0, 0, 0, 0⟩⟩ ∧
      bounded.outcome = .error (.limitExceeded ⟨.opCount, 2, 1⟩) ∧
      ((∀ v s, full.outcome = .ok ⟨v, s⟩ →
          (limits.Admits s → bounded.outcome = .ok ⟨v, s⟩) ∧
          (¬ limits.Admits s → ∃ x, bounded.outcome = .error (.limitExceeded x))) ∧
        (∀ err, full.outcome = .error err →
          bounded.outcome = .error err ∨ ∃ x, bounded.outcome = .error (.limitExceeded x)) ∧
        bounded.calls <+: full.calls ∧
        ∀ x, bounded.outcome = .error (.limitExceeded x) → x.Reports limits) := by
  intro limits e full bounded
  have hu : limits.IsUntimed := ⟨rfl, rfl⟩
  exact ⟨hu, rfl, rfl, run_of_isUntimed hu .empty .timed e⟩

end Expr

end OpTree
