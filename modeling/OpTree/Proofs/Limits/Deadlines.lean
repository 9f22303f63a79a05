import Mathlib.Data.Nat.Find
import OpTree.Proofs.Evaluation.Forward
import OpTree.Proofs.Evaluation.Visits

/-!
# Time budgets are exact without a timer

Without a timer a host call runs to its end, and only afterwards is it found to have taken too long.
Since nothing but host calls takes time, the clock shows how long the calls so far have taken
(`Host.elapsed`), and where budgets cut a run off can be told from its host calls alone
(`Budgets.Cuts`).

`Interrupts` is what budgets make of a step that succeeds without them: as long as they cut no call
off the step is the same, and at the first call that they do it fails, blaming that call or the
evaluation as a whole. This is closed under all ways in which steps are put together
(`Interruptible.composed`), and so it holds of whole evaluations.

Main statement: `Expr.run_within_budgets`.
-/

namespace OpTree

open List

variable {α β γ : Type}

/-! ### How long calls take -/

/-- The milliseconds until a reply. -/
def Reply.delay : Reply → Nat
  | .answer delay _ => delay
  | .never => 0

namespace Host

variable (host : Host)

/-- How long a call takes that is made after others, which are given the latest first. -/
def delay (earlier : List Invocation) (call : Invocation) : Nat :=
  match host.find? call.name with
  | some found => (found.reply host.lookups earlier call.arguments).delay
  | none => 0

/-- How long all calls take together, the latest first. -/
def elapsed : List Invocation → Nat
  | [] => 0
  | call :: earlier => elapsed earlier + host.delay earlier call

/-- How long each of some calls takes, in order. -/
def delays (calls : List Invocation) : List Nat :=
  calls.mapIdx fun i call => host.delay (calls.take i).reverse call

variable {host}

/-- The time that the first calls have taken is the sum of their delays. -/
theorem elapsed_take_reverse (calls : List Invocation) (i : Nat) :
    host.elapsed (calls.take i).reverse = ((host.delays calls).take i).sum := by
  induction i with
  | zero => rfl
  | succ i ih =>
    by_cases hi : i < calls.length
    · have hi' : i < (host.delays calls).length := by simpa [delays] using hi
      have hdelay : (host.delays calls)[i] = host.delay (calls.take i).reverse calls[i] := by
        simp [delays]
      rw [take_succ_eq_append_getElem hi, take_succ_eq_append_getElem hi', reverse_append,
        sum_append, ← ih, hdelay]
      simp [elapsed]
    · have hle : calls.length ≤ i := by omega
      have hle' : (host.delays calls).length ≤ i := by simpa [delays] using hle
      rw [take_of_length_le (by omega)] at ih ⊢
      rw [take_of_length_le (by omega)] at ih ⊢
      exact ih

end Host

/-- A host call, and the node that makes it. -/
structure Request (α : Type) where
  node : α
  call : Invocation

/-- What is noted of the call. -/
def Request.event (r : Request α) : Event α := .external r.node r.call.name

/-! ### Budgets -/

/-- The limit is set, and an amount reaches it. -/
def Limit.ReachedBy (limit : Limit) (amount : Nat) : Prop :=
  ∃ bound, limit = some bound ∧ bound ≤ amount

/-- Time for the whole evaluation and for every single call, in milliseconds, if it is bounded. -/
structure Budgets where
  evaluation : Limit
  call : Limit

/-- The limits with other time budgets. -/
def Limits.within (limits : Limits) (budgets : Budgets) : Limits :=
  (limits.set .evaluationTime budgets.evaluation).set .callTime budgets.call

namespace Budgets

variable (B : Budgets) (host : Host)

/-- A call takes too long that is made after others, which are given the latest first: too long for
a single call, or for the whole evaluation. -/
def Cuts (call : Invocation) (earlier : List Invocation) : Prop :=
  B.call.ReachedBy (host.delay earlier call) ∨
    B.evaluation.ReachedBy (host.elapsed (call :: earlier))

/-- There is time for an evaluation, and none of its calls takes too long. The calls are given the
latest first. -/
def Spares : List Invocation → Prop
  | [] => ¬ B.evaluation.ReachedBy 0
  | call :: earlier => ¬ B.Cuts host call earlier ∧ Spares earlier

variable {B host} {history later : List Invocation}

/-- Where no call has taken too long, the time of the evaluation is not over. -/
theorem Spares.evaluation (h : B.Spares host history) :
    ¬ B.evaluation.ReachedBy (host.elapsed history) := by
  cases history with
  | nil => exact h
  | cons call earlier => exact fun hreached => h.1 (.inr hreached)

/-- Where no call has taken too long, none had before. -/
theorem Spares.of_suffix (h : B.Spares host later) (hs : history <:+ later) :
    B.Spares host history := by
  induction later with
  | nil => exact suffix_nil.1 hs ▸ h
  | cons call earlier ih =>
    rcases suffix_cons_iff.1 hs with rfl | hs
    · exact h
    · exact ih h.2 hs

/-- With calls of these delays, made one after the other, the call at an index takes too long. -/
def Overrun (B : Budgets) (delays : List Nat) (i : Nat) : Prop :=
  (∃ delay, delays[i]? = some delay ∧ B.call.ReachedBy delay) ∨
    B.evaluation.ReachedBy (delays.take (i + 1)).sum

variable {calls : List Invocation} {delays : List Nat}

/-- A call is cut off just if its delay overruns a budget. -/
theorem cuts_iff_overrun {i : Nat} (hi : i < calls.length) :
    B.Cuts host calls[i] (calls.take i).reverse ↔ B.Overrun (host.delays calls) i := by
  have hdelay : (host.delays calls)[i]? = some (host.delay (calls.take i).reverse calls[i]) := by
    simp [Host.delays, hi]
  have helapsed : host.elapsed (calls[i] :: (calls.take i).reverse)
      = ((host.delays calls).take (i + 1)).sum := by
    rw [← Host.elapsed_take_reverse, take_succ_eq_append_getElem hi, reverse_append]
    rfl
  rw [Cuts, Overrun, helapsed, hdelay]
  simp

/-- No call is cut off if none of them takes too long. -/
theorem spares_iff (h0 : ¬ B.evaluation.ReachedBy 0) {n : Nat} (hn : n ≤ calls.length) :
    B.Spares host (calls.take n).reverse ↔ ∀ i < n, ¬ B.Overrun (host.delays calls) i := by
  induction n with
  | zero => simpa [Spares] using h0
  | succ n ih =>
    have hcalls : (calls.take (n + 1)).reverse = calls[n] :: (calls.take n).reverse := by
      rw [take_succ_eq_append_getElem hn, reverse_append]
      rfl
    rw [hcalls, Spares, ih (by omega), cuts_iff_overrun hn, Nat.forall_lt_succ_right, and_comm]

/-- No call takes too long if none does by itself and all of them do not together. -/
theorem forall_not_overrun_iff (h0 : ¬ B.evaluation.ReachedBy 0) :
    (∀ i < delays.length, ¬ B.Overrun delays i) ↔
      (∀ delay ∈ delays, ¬ B.call.ReachedBy delay) ∧ ¬ B.evaluation.ReachedBy delays.sum := by
  constructor
  · intro h
    constructor
    · intro delay hdelay hreached
      obtain ⟨i, hi, rfl⟩ := getElem_of_mem hdelay
      exact h i hi (.inl ⟨_, getElem?_eq_getElem hi, hreached⟩)
    · intro hreached
      cases hlen : delays.length with
      | zero =>
        rw [length_eq_zero_iff.1 hlen] at hreached
        exact h0 hreached
      | succ n =>
        refine h n (by omega) (.inr ?_)
        rwa [take_of_length_le (by omega)]
  · rintro ⟨hcall, hall⟩ i hi (⟨delay, hdelay, hreached⟩ | ⟨bound, hbound, hle⟩)
    · exact hcall delay (mem_of_getElem? hdelay) hreached
    · have hsum : (delays.take (i + 1)).sum + (delays.drop (i + 1)).sum = delays.sum := by
        rw [← sum_append, take_append_drop]
      exact hall ⟨bound, hbound, by omega⟩

/-- No call of a list is cut off just if no delay reaches the budget of a call, nor their sum that
of the evaluation. -/
theorem spares_reverse_iff (h0 : ¬ B.evaluation.ReachedBy 0) :
    B.Spares host calls.reverse ↔ (∀ delay ∈ host.delays calls, ¬ B.call.ReachedBy delay) ∧
      ¬ B.evaluation.ReachedBy (host.delays calls).sum := by
  have hiff : B.Spares host (calls.take calls.length).reverse ↔
      ∀ i < calls.length, ¬ B.Overrun (host.delays calls) i := spares_iff h0 le_rfl
  have hlen : (host.delays calls).length = calls.length := by simp [Host.delays]
  rw [take_length, ← hlen] at hiff
  exact hiff.trans (forall_not_overrun_iff h0)

/-- If a call takes too long then there is a first one. -/
theorem exists_first_overrun {n : Nat} (h : ¬ ∀ i < n, ¬ B.Overrun delays i) :
    ∃ i < n, B.Overrun delays i ∧ ∀ j < i, ¬ B.Overrun delays j := by
  classical
  have hex : ∃ i, i < n ∧ B.Overrun delays i := by
    by_contra hnone
    exact h fun i hi hover => hnone ⟨i, hi, hover⟩
  obtain ⟨hlt, hover⟩ := Nat.find_spec hex
  refine ⟨Nat.find hex, hlt, hover, fun j hj hj' => ?_⟩
  exact Nat.find_min hex hj ⟨hj.trans hlt, hj'⟩

end Budgets

namespace Eval

open EvalM

variable {limits : Limits} {host : Host} {B : Budgets} {node : α} {call : Invocation}
  {earlier : List Invocation}

/-- Of the two budgets the one that is used up first counts, and that of the call in a tie. -/
private theorem allowance?_within (clock : Nat) (name : String) :
    allowance? (limits.within B) clock node name =
      match B.call, B.evaluation with
      | none, none => none
      | some own, none => some ⟨own, .callTimeout node name own⟩
      | none, some total => some ⟨total - clock, .timeout total⟩
      | some own, some total =>
        if total - clock < own then some ⟨total - clock, .timeout total⟩
        else some ⟨own, .callTimeout node name own⟩ := rfl

/-- There is enough time for a call that does not take too long. -/
theorem lt_of_allowance?_of_not_cuts (h : ¬ B.Cuts host call earlier) {a : Allowance α}
    (ha : allowance? (limits.within B) (host.elapsed earlier) node call.name = some a) :
    host.delay earlier call < a.milliseconds := by
  have hcall (own : Nat) (hown : B.call = some own) : host.delay earlier call < own := by
    by_contra hle
    exact h (.inl ⟨own, hown, Nat.not_lt.1 hle⟩)
  have hall (total : Nat) (htotal : B.evaluation = some total) :
      host.elapsed earlier + host.delay earlier call < total := by
    by_contra hle
    exact h (.inr ⟨total, htotal, Nat.not_lt.1 hle⟩)
  rw [allowance?_within] at ha
  split at ha
  · cases ha
  · rename_i own hown _
    cases ha
    exact hcall own hown
  · rename_i total _ htotal
    cases ha
    have := hall total htotal
    dsimp only
    omega
  · rename_i own total hown htotal
    have := hcall own hown
    have := hall total htotal
    split at ha <;> cases ha <;> dsimp only <;> omega

/-- There is not enough time for a call that takes too long. -/
theorem exists_allowance?_of_cuts (h : B.Cuts host call earlier) :
    ∃ a, allowance? (limits.within B) (host.elapsed earlier) node call.name = some a ∧
      a.milliseconds ≤ host.delay earlier call := by
  have hcuts : (∃ own, B.call = some own ∧ own ≤ host.delay earlier call) ∨
      ∃ total, B.evaluation = some total ∧
        total ≤ host.elapsed earlier + host.delay earlier call := h
  rw [allowance?_within]
  cases hown : B.call with
  | none =>
    cases htotal : B.evaluation with
    | none => simp [hown, htotal] at hcuts
    | some total =>
      have hle : total ≤ host.elapsed earlier + host.delay earlier call := by
        simpa [hown, htotal] using hcuts
      exact ⟨_, rfl, by dsimp only; omega⟩
  | some own =>
    cases htotal : B.evaluation with
    | none =>
      have hle : own ≤ host.delay earlier call := by simpa [hown, htotal] using hcuts
      exact ⟨_, rfl, hle⟩
    | some total =>
      have hle : own ≤ host.delay earlier call ∨
          total ≤ host.elapsed earlier + host.delay earlier call := by
        simpa [hown, htotal] using hcuts
      dsimp only
      split
      · exact ⟨_, rfl, by dsimp only; omega⟩
      · exact ⟨_, rfl, by dsimp only; omega⟩

/-- An allowance that is used up is that of the call, or of the evaluation if it has less left. -/
theorem expired_of_allowance? {name : String} {clock : Nat} {a : Allowance α}
    (ha : allowance? (limits.within B) clock node name = some a) :
    (∀ own, B.call = some own → (∀ total, B.evaluation = some total → own ≤ total - clock) →
        a.expired = .callTimeout node name own) ∧
      ∀ total, B.evaluation = some total → (∀ own, B.call = some own → total - clock < own) →
        a.expired = .timeout total := by
  rw [allowance?_within] at ha
  cases hown : B.call with
  | none =>
    cases htotal : B.evaluation with
    | none => simp [hown, htotal] at ha
    | some total =>
      simp only [hown, htotal] at ha
      cases ha
      simp
  | some own =>
    cases htotal : B.evaluation with
    | none =>
      simp only [hown, htotal] at ha
      cases ha
      simp
    | some total =>
      simp only [hown, htotal] at ha
      split at ha
      · rename_i hless
        cases ha
        refine ⟨?_, by rintro _ ⟨⟩ _; rfl⟩
        rintro _ ⟨⟩ hle
        have := hle total rfl
        omega
      · rename_i hless
        cases ha
        refine ⟨by rintro _ ⟨⟩ _; rfl, ?_⟩
        rintro _ ⟨⟩ hlt
        exact absurd (hlt own rfl) hless

/-! ### Steps under budgets -/

/-- The change takes no time, makes no call and notes none. -/
structure Timeless (change : State α → State α) : Prop where
  clock : ∀ c, (change c).clock = c.clock
  history : ∀ c, (change c).history = c.history
  externals : ∀ c, (change c).externals = c.externals

theorem Timeless.refl : Timeless fun c : State α => c :=
  ⟨fun _ => rfl, fun _ => rfl, fun _ => rfl⟩

theorem Timeless.enterScope (frame : Frame α) : Timeless fun c => c.enterScope frame :=
  ⟨fun _ => rfl, fun _ => rfl, fun _ => rfl⟩

theorem Timeless.leaveScope : Timeless fun c : State α => c.leaveScope :=
  ⟨fun _ => rfl, fun _ => rfl, fun _ => rfl⟩

/-- Nor does any quiet change. -/
theorem Quiet.timeless {change : State α → State α} (h : Quiet change) : Timeless change :=
  ⟨h.clock, h.history, h.externals⟩

/-- Budgets cut a call off that has been noted and is made after others: this is where the step
fails, with what the allowance of the call says. -/
def CutsOff (limits : Limits) (host : Host) (B : Budgets) (r : Request α)
    (earlier : List Invocation) (outcome : Except (EvalError α) β × State α) : Prop :=
  outcome.2.history = r.call :: earlier ∧ r.event ∈ outcome.2.externals ∧ ∃ a : Allowance α,
    allowance? (limits.within B) (host.elapsed earlier) r.node r.call.name = some a ∧
      outcome.1 = .error a.expired

/-- What budgets make of a step that goes from `c` to `d` without them and makes some host calls,
given the latest first. The clock keeps to the host calls. As long as no call is cut off the step is
the same, and it fails at the first of its calls that is. -/
structure Interrupts (limits : Limits) (host : Host) (x : EvalM α β) (c : State α) (b : β)
    (d : State α) (made : List (Request α)) : Prop where
  clock : d.clock = host.elapsed d.history
  history : d.history = made.map Request.call ++ c.history
  spared : ∀ B : Budgets, B.Spares host d.history →
    x ⟨limits.within B, host, .untimed⟩ c = (.ok b, d)
  cut : ∀ r earlier, r :: earlier <:+ made → ∀ B : Budgets,
    B.Spares host (earlier.map Request.call ++ c.history) →
    B.Cuts host r.call (earlier.map Request.call ++ c.history) →
    CutsOff limits host B r (earlier.map Request.call ++ c.history)
      (x ⟨limits.within B, host, .untimed⟩ c)

/-- Budgets can only interrupt the step at a host call. Each of its calls is noted once. -/
def Interruptible (limits : Limits) (host : Host) (x : EvalM α β) : Prop :=
  ∀ c b d, c.clock = host.elapsed c.history → x ⟨limits, host, .untimed⟩ c = (.ok b, d) →
    ∃ made, Interrupts limits host x c b d made ∧
      d.externals ~ made.map Request.event ++ c.externals

namespace Interrupts

variable {x : EvalM α β} {f : β → EvalM α γ} {a : β} {b : γ} {c c' d : State α}
  {made made' : List (Request α)}

/-- A step that makes no call. -/
theorem of_history_eq {a : β} (hclock : d.clock = host.elapsed d.history)
    (hhistory : d.history = c.history)
    (hspared : ∀ B : Budgets, B.Spares host c.history →
      x ⟨limits.within B, host, .untimed⟩ c = (.ok a, d)) :
    Interrupts limits host x c a d [] where
  clock := hclock
  history := hhistory
  spared B hB := hspared B (hhistory ▸ hB)
  cut _ _ h := absurd (suffix_nil.1 h) (cons_ne_nil _ _)

/-- A suffix of two lists is one of the second, or begins in the first. -/
private theorem suffix_append_cases {r : α} {l l₁ l₂ : List α} (h : r :: l <:+ l₁ ++ l₂) :
    r :: l <:+ l₂ ∨ ∃ mid, l = mid ++ l₂ ∧ r :: mid <:+ l₁ := by
  rcases suffix_or_suffix_of_suffix h (suffix_append l₁ l₂) with hs | hs
  · exact .inl hs
  · rcases suffix_cons_iff.1 hs with rfl | ⟨mid, rfl⟩
    · exact .inl (suffix_refl _)
    · obtain ⟨later, hlater⟩ := h
      rw [← cons_append, ← append_assoc] at hlater
      exact .inr ⟨mid, rfl, later, append_cancel_right hlater⟩

/-- A sequence is interrupted in its first part or in its second. -/
theorem bind (hx : Interrupts limits host x c a c' made)
    (hf : Interrupts limits host (f a) c' b d made') :
    Interrupts limits host (x >>= f) c b d (made' ++ made) where
  clock := hf.clock
  history := by rw [hf.history, hx.history, map_append, append_assoc]
  spared B hB := by
    have hfirst : B.Spares host c'.history := hB.of_suffix (hf.history ▸ suffix_append _ _)
    rw [bind_apply, hx.spared B hfirst]
    exact hf.spared B hB
  cut r earlier hr B hB hcuts := by
    rcases suffix_append_cases hr with hs | ⟨earlier', rfl, hs⟩
    · obtain ⟨hcall, hevent, a', ha', herr⟩ := hx.cut r earlier hs B hB hcuts
      rw [bind_apply]
      generalize x ⟨limits.within B, host, .untimed⟩ c = outcome at hcall hevent herr
      obtain ⟨_ | _, d'⟩ := outcome
      · cases herr
        exact ⟨hcall, hevent, a', ha', rfl⟩
      · cases herr
    · -- the call comes after all calls of the first part
      have hearlier : (earlier' ++ made).map Request.call ++ c.history
          = earlier'.map Request.call ++ c'.history := by
        rw [hx.history, map_append, append_assoc]
      rw [hearlier] at hB hcuts ⊢
      have hfirst : B.Spares host c'.history := hB.of_suffix (suffix_append _ _)
      rw [bind_apply, hx.spared B hfirst]
      exact hf.cut r earlier' hs B hB hcuts

/-- What a step does that does another one after no call, and ends with a change that takes no
time. -/
theorem between {y : EvalM α β} {b : β} {c₀ : State α} {post : State α → State α}
    (hx : Interrupts limits host x c₀ b d made) (hc₀ : c₀.history = c.history)
    (hpost : Timeless post)
    (hy : ∀ B : Budgets, y ⟨limits.within B, host, .untimed⟩ c =
      ((x ⟨limits.within B, host, .untimed⟩ c₀).1,
        post (x ⟨limits.within B, host, .untimed⟩ c₀).2)) :
    Interrupts limits host y c b (post d) made := by
  refine ⟨?_, ?_, fun B hB => ?_, fun r earlier hr B hB hcuts => ?_⟩
  · rw [hpost.clock, hpost.history, hx.clock]
  · rw [hpost.history, hx.history, hc₀]
  · rw [hpost.history] at hB
    rw [hy, hx.spared B hB]
  · rw [← hc₀] at hB hcuts ⊢
    obtain ⟨hcall, hevent, hfails⟩ := hx.cut r earlier hr B hB hcuts
    rw [hy]
    exact ⟨(hpost.history _).trans hcall, (hpost.externals _).symm ▸ hevent, hfails⟩

/-- All calls of a step before which there are none. -/
theorem reverse_history {b : β} (h : Interrupts limits host x c b d made)
    (hc : c.history = []) : d.history.reverse = made.reverse.map Request.call := by
  rw [h.history, hc, append_nil, map_reverse]

/-- Where the first of all calls takes too long the step is cut off. -/
theorem cutsOff_of_overrun {b : β} (h : Interrupts limits host x c b d made)
    (hc : c.history = []) (h0 : ¬ B.evaluation.ReachedBy 0) {i : Nat} (hi : i < made.reverse.length)
    (hover : B.Overrun (host.delays d.history.reverse) i)
    (hfirst : ∀ j < i, ¬ B.Overrun (host.delays d.history.reverse) j) :
    CutsOff limits host B made.reverse[i] (d.history.reverse.take i).reverse
      (x ⟨limits.within B, host, .untimed⟩ c) := by
  have hcalls := h.reverse_history hc
  have hi' : i < d.history.reverse.length := by rwa [hcalls, length_map]
  have hcall : d.history.reverse[i] = made.reverse[i].call := by simp only [hcalls, getElem_map]
  have hearlier : (made.reverse.take i).reverse.map Request.call ++ c.history
      = (d.history.reverse.take i).reverse := by
    rw [hc, append_nil, map_reverse, map_take, hcalls]
  have hsuffix : made.reverse[i] :: (made.reverse.take i).reverse <:+ made := by
    have hprefix := take_prefix (i + 1) made.reverse
    rw [take_succ_eq_append_getElem hi] at hprefix
    simpa using reverse_suffix.2 hprefix
  have hcuts := (Budgets.cuts_iff_overrun hi').2 hover
  have hspares := (Budgets.spares_iff h0 hi'.le).2 hfirst
  rw [← hearlier] at hcuts hspares ⊢
  exact h.cut _ _ hsuffix B hspares (hcall ▸ hcuts)

/-- If some call takes too long then the step is cut off at the first that does. -/
theorem exists_cutsOff {b : β} (h : Interrupts limits host x c b d made) (hc : c.history = [])
    (h0 : ¬ B.evaluation.ReachedBy 0) (hnot : ¬ B.Spares host d.history) :
    ∃ i r a, made.reverse[i]? = some r ∧ B.Overrun (host.delays d.history.reverse) i ∧
      (∀ j < i, ¬ B.Overrun (host.delays d.history.reverse) j) ∧
      allowance? (limits.within B) ((host.delays d.history.reverse).take i).sum r.node r.call.name
        = some a ∧
      (x ⟨limits.within B, host, .untimed⟩ c).1 = .error a.expired ∧
      r.event ∈ (x ⟨limits.within B, host, .untimed⟩ c).2.externals ∧
      (x ⟨limits.within B, host, .untimed⟩ c).2.history.reverse
        = d.history.reverse.take (i + 1) := by
  have hspares : B.Spares host (d.history.reverse.take d.history.reverse.length).reverse ↔
      ∀ i < d.history.reverse.length, ¬ B.Overrun (host.delays d.history.reverse) i :=
    Budgets.spares_iff h0 le_rfl
  rw [take_length, reverse_reverse] at hspares
  obtain ⟨i, hi, hover, hfirst⟩ := Budgets.exists_first_overrun (mt hspares.2 hnot)
  have hcalls := h.reverse_history hc
  have hi' : i < made.reverse.length := by rwa [hcalls, length_map] at hi
  have hcall : d.history.reverse[i] = made.reverse[i].call := by simp only [hcalls, getElem_map]
  obtain ⟨hhistory, hevent, a, ha, herr⟩ := h.cutsOff_of_overrun hc h0 hi' hover hfirst
  rw [Host.elapsed_take_reverse] at ha
  refine ⟨i, made.reverse[i], a, getElem?_eq_getElem hi', hover, hfirst, ha, herr, hevent, ?_⟩
  rw [hhistory, take_succ_eq_append_getElem hi, hcall, reverse_cons, reverse_reverse]

end Interrupts

namespace Interruptible

variable {x : EvalM α β} {f : β → EvalM α γ} {visit : Expr α → EvalM α Scalar}

theorem pure (b : β) : Interruptible limits host (pure b : EvalM α β) := by
  rintro c _ _ hc ⟨⟩
  exact ⟨[], .of_history_eq hc rfl fun _ _ => rfl, .refl _⟩

theorem fail (err : EvalError α) : Interruptible limits host (fail err : EvalM α β) := by
  rintro c b d hc ⟨⟩

theorem bind (hx : Interruptible limits host x) (hf : ∀ b, Interruptible limits host (f b)) :
    Interruptible limits host (x >>= f) := by
  intro c b d hc h
  obtain ⟨a, c', hca, hcb⟩ := bind_eq_ok.1 h
  obtain ⟨made, hfirst, hmade⟩ := hx c a c' hc hca
  obtain ⟨made', hsecond, hmade'⟩ := hf a c' b d hfirst.clock hcb
  refine ⟨made' ++ made, hfirst.bind hsecond, ?_⟩
  rw [map_append, append_assoc]
  exact hmade'.trans (hmade.append_left _)

theorem state : Interruptible limits host (state : EvalM α (State α)) := by
  rintro c _ _ hc ⟨⟩
  exact ⟨[], .of_history_eq hc rfl fun _ _ => rfl, .refl _⟩

/-- A step between two changes that take no time. -/
theorem between {pre post : State α → State α} (hpre : Timeless pre) (hpost : Timeless post)
    (hx : Interruptible limits host x) : Interruptible limits host (β := β) fun setting c =>
      ((x setting (pre c)).1, post (x setting (pre c)).2) := by
  intro c b d hc h
  obtain ⟨hb, rfl⟩ := Prod.mk.inj h
  have hc' : (pre c).clock = host.elapsed (pre c).history := by
    rw [hpre.clock, hpre.history, hc]
  obtain ⟨made, hx', hmade⟩ := hx (pre c) b _ hc' (Prod.ext hb rfl)
  rw [hpre.externals] at hmade
  exact ⟨made, hx'.between (hpre.history c) hpost fun _ => rfl, (hpost.externals _).symm ▸ hmade⟩

/-! ### Counting -/

/-- A step that does not depend on budgets, takes no time and makes no call. -/
private theorem of_same (hsame : ∀ B : Budgets, ∀ c : State α,
      x ⟨limits.within B, host, .untimed⟩ c = x ⟨limits, host, .untimed⟩ c)
    (htimeless : Timeless fun c : State α => (x ⟨limits, host, .untimed⟩ c).2) :
    Interruptible limits host x := by
  intro c b d hc h
  obtain rfl : (x ⟨limits, host, .untimed⟩ c).2 = d := congrArg Prod.snd h
  have hclock := htimeless.clock c
  have hhistory := htimeless.history c
  refine ⟨[], .of_history_eq ?_ hhistory fun B _ => (hsame B c).trans h,
    .of_eq (htimeless.externals c)⟩
  rw [hclock, hhistory, hc]

/-- Budgets do not matter to the counters. -/
private theorem checkLimits_within (c : State α) :
    checkLimits ⟨limits.within B, host, .untimed⟩ c
      = checkLimits ⟨limits, host, .untimed⟩ c := by
  have hexcess : c.usage.excess? (limits.within B) = c.usage.excess? limits :=
    funext fun counter => rfl
  have hexceeded : c.usage.exceeded? (limits.within B) = c.usage.exceeded? limits :=
    congrArg (Counter.all.findSome? ·) hexcess
  simp only [checkLimits, bind_apply, EvalM.state, setting, hexceeded]
  cases c.usage.exceeded? limits <;> rfl

/-- Counting takes no time. -/
private theorem timeless_usage {change : State α → State α} (f : Usage → Usage)
    (h : ∀ c, change c = { c with usage := f c.usage }) : Timeless change := by
  obtain rfl : change = fun c => { c with usage := f c.usage } := funext h
  exact ⟨fun _ => rfl, fun _ => rfl, fun _ => rfl⟩

/-- Counting a variable takes no time. -/
theorem countVar : Interruptible limits host (countVar : EvalM α Unit) :=
  of_same (fun _ _ => checkLimits_within _) (timeless_usage _ fun _ => checkLimits_snd _ _)

private theorem countString_within (v : Scalar) (c : State α) :
    Eval.countString v ⟨limits.within B, host, .untimed⟩ c
      = Eval.countString v ⟨limits, host, .untimed⟩ c := by
  cases v with
  | str text => exact checkLimits_within { c with usage := c.usage.countString text.length }
  | null | num | bool => rfl

/-- Counting a string takes no time. -/
theorem countString (v : Scalar) : Interruptible limits host (countString v : EvalM α Unit) := by
  refine of_same (fun _ _ => countString_within v _) ?_
  cases v with
  | str text => exact timeless_usage (·.countString text.length) fun _ => checkLimits_snd _ _
  | null | num | bool => exact .refl

/-- A node is not visited too late as long as no call is cut off. -/
theorem tick (node : α) : Interruptible limits host (tick node) := by
  intro c b d hc h
  have hd : c.visited node = d := (tick_snd node ⟨limits, host, .untimed⟩ c).symm.trans
    (congrArg Prod.snd h)
  subst hd
  have hexternals : (c.visited node).externals = c.externals :=
    filter_cons_of_neg Bool.false_ne_true
  refine ⟨[], .of_history_eq hc rfl fun B hB => ?_, .of_eq hexternals⟩
  have htime : checkTime ⟨limits.within B, host, .untimed⟩ (c.visited node)
      = (.ok (), c.visited node) := by
    have hclock : (c.visited node).clock = host.elapsed c.history := hc
    have hbound : (limits.within B).bound .evaluationTime = B.evaluation := rfl
    simp only [checkTime, bind_apply, setting, hbound]
    cases hbudget : B.evaluation with
    | none => rfl
    | some budget =>
      have hlt : ¬ budget ≤ (c.visited node).clock := fun hle =>
        hB.evaluation ⟨budget, hbudget, hclock ▸ hle⟩
      simp only [bind_apply, EvalM.state, if_neg hlt]
      rfl
  have hlimits : checkLimits ⟨limits, host, .untimed⟩ (c.visited node)
      = (.ok b, c.visited node) := by
    obtain ⟨_, c', htime', hlimits'⟩ := bind_eq_ok.1
      (show (checkTime >>= fun _ => checkLimits) ⟨limits, host, .untimed⟩ (c.visited node) = _
        from h)
    have hc' : c.visited node = c' :=
      (checkTime_snd _ _).symm.trans (congrArg Prod.snd htime')
    exact hc' ▸ hlimits'
  change (checkTime >>= fun _ => checkLimits) ⟨limits.within B, host, .untimed⟩ (c.visited node) = _
  rw [bind_apply, htime]
  exact (checkLimits_within _).trans hlimits

end Interruptible

/-! ### Host calls -/

/-- An answer comes too late if it took as long as it was allowed. -/
theorem await_answer (limits : Limits) (name : String) (delay : Nat) (v : Scalar) (c : State α) :
    await node name (.answer delay (.ok v)) ⟨limits, host, .untimed⟩ c =
      ((allowance? limits c.clock node name).elim (.ok v) fun a =>
          if delay < a.milliseconds then .ok v else .error a.expired,
        { c with clock := c.clock + delay }) := by
  cases ha : allowance? limits c.clock node name with
  | none =>
    simp only [await, bind_apply, setting, EvalM.state, ha]
    rfl
  | some a =>
    simp only [await, bind_apply, setting, EvalM.state, ha, Option.elim_some]
    by_cases hlt : delay < a.milliseconds
    · simp only [if_pos hlt]
      rfl
    · simp only [if_neg hlt]
      rfl

/-- What is awaited with success is an answer. -/
theorem answer_of_await {name : String} {reply : Reply} {v : Scalar} {c d : State α}
    (h : await node name reply ⟨limits, host, .untimed⟩ c = (.ok v, d)) :
    ∃ delay, reply = .answer delay (.ok v) ∧ d = { c with clock := c.clock + delay } := by
  cases reply with
  | never => cases h
  | answer delay result =>
    cases result with
    | error cause => cases h
    | ok w =>
      rw [await_answer] at h
      obtain ⟨hw, rfl⟩ := Prod.mk.inj h
      obtain rfl : w = v := by
        cases ha : allowance? limits c.clock node name with
        | none =>
          rw [ha, Option.elim_none] at hw
          exact Except.ok.inj hw
        | some a =>
          rw [ha, Option.elim_some] at hw
          split at hw
          · exact Except.ok.inj hw
          · cases hw
      exact ⟨delay, rfl, rfl⟩

variable {found : HostCall} {c d : State α} {v : Scalar}

/-- A host call is cut off if it takes too long. -/
private theorem Interrupts.await {delay : Nat} (hfound : host.find? call.name = some found)
    (hreply : found.reply host.lookups c.history call.arguments = .answer delay (.ok v))
    (hclock : c.clock = host.elapsed c.history)
    (hevent : Request.event ⟨node, call⟩ ∈ c.externals) :
    Interrupts limits host
      (fun s c => Eval.await node call.name (.answer delay (.ok v)) s
        { c with history := call :: c.history })
      c v { c with history := call :: c.history, clock := c.clock + delay } [⟨node, call⟩] := by
  have hdelay : host.delay c.history call = delay := by
    rw [Host.delay, hfound]
    exact congrArg Reply.delay hreply
  refine ⟨?_, rfl, fun B hB => ?_, fun r earlier hr B hB hcuts => ?_⟩
  · change c.clock + delay = host.elapsed c.history + host.delay c.history call
    rw [hdelay, hclock]
  · rw [await_answer]
    dsimp only
    cases ha : allowance? (limits.within B) c.clock node call.name with
    | none => rfl
    | some a =>
      have hlt := lt_of_allowance?_of_not_cuts hB.1 (hclock ▸ ha)
      rw [hdelay] at hlt
      rw [Option.elim_some, if_pos hlt]
  · obtain ⟨rfl, rfl⟩ : r = ⟨node, call⟩ ∧ earlier = [] := by
      have heq := hr.eq_of_length_le (by simp)
      simpa using heq
    obtain ⟨a, ha, hle⟩ : ∃ a, allowance? (limits.within B) (host.elapsed c.history) node call.name
        = some a ∧ a.milliseconds ≤ host.delay c.history call := exists_allowance?_of_cuts hcuts
    have hle' : ¬ delay < a.milliseconds := Nat.not_lt.2 (hdelay ▸ hle)
    refine ⟨?_, ?_, a, ha, ?_⟩
    · rw [await_answer]
      rfl
    · rw [await_answer]
      exact hevent
    · have ha' : allowance? (limits.within B) c.clock node call.name = some a := hclock ▸ ha
      rw [await_answer]
      dsimp only
      rw [ha', Option.elim_some, if_neg hle']

/-- Counts the answer of a host call, which has to be valid. -/
private def accept (node : α) (name : String) (v : Scalar) : EvalM α Scalar :=
  if v.isValid then do
    countString v
    return v
  else
    EvalM.fail (.invalidCallReturn node name)

/-- The answer of a host call is awaited and then accepted. -/
private theorem Interrupts.invoke {name : String} {values : List Scalar}
    (hfound : host.find? name = some found) (hclock : c.clock = host.elapsed c.history)
    (hevent : Request.event ⟨node, ⟨name, values⟩⟩ ∈ c.externals)
    (h : Eval.invoke node name found values ⟨limits, host, .untimed⟩ c = (.ok v, d)) :
    ∃ made, Interrupts limits host (Eval.invoke node name found values) c v d
        (made ++ [⟨node, ⟨name, values⟩⟩]) ∧
      d.externals ~ made.map Request.event ++ c.externals := by
  rw [invoke_apply] at h
  obtain ⟨w, c', hawait, hrest⟩ := bind_eq_ok.1 h
  obtain ⟨delay, hreply, rfl⟩ := answer_of_await hawait
  have hcall : Interrupts limits host
      (fun s c => Eval.await node name (.answer delay (.ok w)) s
        { c with history := ⟨name, values⟩ :: c.history })
      c w { c with history := ⟨name, values⟩ :: c.history, clock := c.clock + delay }
      [⟨node, ⟨name, values⟩⟩] :=
    Interrupts.await hfound hreply hclock hevent
  have haccept : Interruptible limits host (accept node name w) := by
    rw [accept]
    split
    · exact (Interruptible.countString w).bind fun _ => .pure w
    · exact .fail _
  obtain ⟨made, hrest', hmade⟩ := haccept _ v d hcall.clock hrest
  have hboth := hcall.bind (f := accept node name) hrest'
  refine ⟨made, hboth.between rfl .refl fun B => ?_, hmade⟩
  rw [invoke_apply, hreply]
  rfl

/-- A call is noted, its arguments are evaluated, and then the host is called. -/
theorem Interruptible.callHost {visit : Expr α → EvalM α Scalar} (name : String)
    (es : List (Expr α)) (hes : Interruptible limits host (arguments visit es)) :
    Interruptible limits host (Comparison.callHost visit node name es) := by
  intro c v d hc h
  have hcall (limits : Limits) : Comparison.callHost visit node name es ⟨limits, host, .untimed⟩ c =
      invokeNamed visit node name es host ⟨limits, host, .untimed⟩
        (c.note (.external node name)) := rfl
  cases hfound : host.find? name with
  | none =>
    simp only [invokeNamed, hfound] at hcall
    cases (hcall limits).symm.trans h
  | some found =>
    simp only [invokeNamed, hfound] at hcall
    rw [hcall] at h
    obtain ⟨values, c', hvalues, hinvoke⟩ := bind_eq_ok.1 h
    obtain ⟨args, hargs, hnoted⟩ := hes (c.note (.external node name)) values c' hc hvalues
    have hevent : (c.note (.external node name)).externals
        = Request.event ⟨node, ⟨name, values⟩⟩ :: c.externals := filter_cons_of_pos rfl
    rw [hevent] at hnoted
    have hnoted' := hnoted.trans perm_middle
    obtain ⟨made, hinvoke', hmade⟩ :=
      Interrupts.invoke hfound hargs.clock (hnoted'.mem_iff.2 mem_cons_self) hinvoke
    have hhistory : (c.note (.external node name)).history = c.history := rfl
    have hboth := (hargs.bind hinvoke').between hhistory .refl fun _ => hcall _
    refine ⟨_, hboth, hmade.trans ?_⟩
    simp only [map_append, map_cons, append_assoc, cons_append, nil_append]
    exact hnoted'.append_left _

/-! ### Whole evaluations -/

/-- Budgets can only interrupt an operator at a host call if that is so for its operands. -/
theorem Interruptible.composed {visit : Expr α → EvalM α Scalar}
    (h : ∀ e, Interruptible limits host (visit e)) :
    Composed visit (Interruptible limits host) where
  pure := .pure
  fail err _ := .fail err
  bind := .bind
  state := .state
  modify hq := between hq.timeless .refl (.pure ())
  andFinally hx hq := between .refl hq.timeless hx
  countVar := .countVar
  countString := .countString
  visits := h
  inScope frame e := between (.enterScope frame) .leaveScope (h e)
  callHost _ name es hes := .callHost name es hes

/-- **Budgets can only interrupt an evaluation at a host call.** -/
theorem interruptible_eval (depth : Nat) (e : Expr α) :
    Interruptible limits host (eval depth e) := by
  induction depth generalizing e with
  | zero => exact .fail _
  | succ depth ih =>
    rw [eval_succ, evalNode_eq]
    exact (Interruptible.tick _).bind fun _ => (Interruptible.composed ih).answer e

end Eval

/-! ### Runs -/

namespace Expr

open Eval

/-- How budgets interrupt a run that succeeds. Its host calls are made by nodes that have noted
them, each of them once. -/
private theorem exists_interrupts {limits : Limits} {host : Host} {e : Expr α} {result : Evaluation}
    (h : (e.run ⟨limits, host, .untimed⟩).outcome = .ok result) :
    ∃ v d made, result = ⟨v, d.usage.stats⟩ ∧
      Interrupts limits host (eval e.extent.nesting e) .start v d made ∧
      (e.run ⟨limits, host, .untimed⟩).calls = d.history.reverse ∧
      made.reverse.map Request.event ~
        (e.run ⟨limits, host, .untimed⟩).trace.filter Event.isExternal := by
  obtain ⟨v, d, heval, rfl⟩ : ∃ v d,
      eval e.extent.nesting e ⟨limits, host, .untimed⟩ .start = (.ok v, d) ∧
        result = ⟨v, d.usage.stats⟩ := by
    simp only [run, runWithin] at h
    generalize eval e.extent.nesting e ⟨limits, host, .untimed⟩ .start = r at h
    obtain ⟨_ | v, d⟩ := r
    · cases h
    · exact ⟨v, d, rfl, (Except.ok.inj h).symm⟩
  obtain ⟨made, hmade, hnoted⟩ := interruptible_eval e.extent.nesting e .start v d rfl heval
  refine ⟨v, d, made, rfl, hmade, congrArg (·.2.history.reverse) heval, ?_⟩
  have htrace : (e.run ⟨limits, host, .untimed⟩).trace = d.trace.reverse :=
    congrArg (·.2.trace.reverse) heval
  have hnoted' : d.trace.filter Event.isExternal ~ made.map Request.event :=
    hnoted.trans (.of_eq (append_nil _))
  rw [map_reverse, htrace, filter_reverse]
  exact (reverse_perm _).trans (hnoted'.symm.trans (reverse_perm _).symm)

/-- **Time budgets are exact.** Let an expression have a value without a timer, under any limits,
and let time budgets be set in their place. The outcome stays the same if no host call takes as long
as a call may, and all of them together not as long as the evaluation may. Or else the run fails at
the first call that takes too long by itself or together with those before it. It blames this call,
at the node that has noted it, if a call may take no longer than what is then left for the
evaluation, and it blames the evaluation in all other cases. -/
theorem run_within_budgets {limits : Limits} {host : Host} {e : Expr α} {result : Evaluation}
    (h : (e.run ⟨limits, host, .untimed⟩).outcome = .ok result) :
    let full := e.run ⟨limits, host, .untimed⟩
    let delays := host.delays full.calls
    ∃ requests : List (Request α), requests.map Request.call = full.calls ∧
      requests.map Request.event ~ full.trace.filter Event.isExternal ∧
      ∀ B : Budgets, B.evaluation ≠ some 0 →
        let timed := e.run ⟨limits.within B, host, .untimed⟩
        (timed.outcome = .ok result ↔
          (∀ delay ∈ delays, ¬ B.call.ReachedBy delay) ∧ ¬ B.evaluation.ReachedBy delays.sum) ∧
        (timed.outcome ≠ .ok result → ∃ i r, requests[i]? = some r ∧
          B.Overrun delays i ∧ (∀ j < i, ¬ B.Overrun delays j) ∧
          timed.calls = full.calls.take (i + 1) ∧ r.event ∈ timed.trace ∧
          (∀ own, B.call = some own →
            (∀ total, B.evaluation = some total → own ≤ total - (delays.take i).sum) →
            timed.outcome = .error (.callTimeout r.node r.call.name own)) ∧
          ∀ total, B.evaluation = some total →
            (∀ own, B.call = some own → total - (delays.take i).sum < own) →
            timed.outcome = .error (.timeout total)) := by
  obtain ⟨v, d, made, rfl, hmade, hcalls, hevents⟩ := exists_interrupts h
  intro full delays
  have hrequests : made.reverse.map Request.call = full.calls :=
    (hmade.reverse_history rfl).symm.trans hcalls.symm
  refine ⟨made.reverse, hrequests, hevents, fun B hB => ?_⟩
  intro timed
  have h0 : ¬ B.evaluation.ReachedBy 0 := by
    rintro ⟨bound, hbound, hle⟩
    exact hB (hbound.trans (congrArg some (Nat.le_zero.1 hle)))
  have hspares : B.Spares host d.history ↔
      (∀ delay ∈ delays, ¬ B.call.ReachedBy delay) ∧ ¬ B.evaluation.ReachedBy delays.sum := by
    rw [← reverse_reverse d.history, ← hcalls]
    exact Budgets.spares_reverse_iff h0
  have houtcome : timed.outcome = (eval e.extent.nesting e ⟨limits.within B, host, .untimed⟩
      .start).1.map fun w => ⟨w, (eval e.extent.nesting e ⟨limits.within B, host, .untimed⟩
      .start).2.usage.stats⟩ := rfl
  have hok (hsp : B.Spares host d.history) : timed.outcome = .ok ⟨v, d.usage.stats⟩ := by
    rw [houtcome, hmade.spared B hsp]
    rfl
  constructor
  · rw [← hspares]
    refine ⟨fun hsame => ?_, hok⟩
    by_contra hnot
    obtain ⟨_, _, a, _, _, _, _, herr, _, _⟩ := hmade.exists_cutsOff rfl h0 hnot
    rw [houtcome, herr] at hsame
    cases hsame
  · intro hne
    obtain ⟨i, r, a, hr, hover, hfirst, ha, herr, hevent, hhistory⟩ :=
      hmade.exists_cutsOff rfl h0 (mt hok hne)
    rw [← hcalls] at hover hfirst ha hhistory
    have hevent' : r.event ∈ timed.trace := mem_reverse.2 (mem_of_mem_filter hevent)
    obtain ⟨hown, htotal⟩ := expired_of_allowance? ha
    refine ⟨i, r, hr, hover, hfirst, hhistory, hevent', fun own hset hle => ?_,
      fun total hset hlt => ?_⟩
    · rw [houtcome, herr, hown own hset hle]
      rfl
    · rw [houtcome, herr, htotal total hset hlt]
      rfl

/-- Calls of 10 and 30 milliseconds, within 41 of which each may take 31, and within 40. -/
theorem run_within_budgets_coalesce :
    let near : HostCall := .function fun _ _ => .answer 10 (.ok .null)
    let far : HostCall := .function fun _ _ => .answer 30 (.ok (.bool true))
    let host : Host := ⟨⟨⟨[("near", near), ("far", far)]⟩⟩, none, .empty⟩
    let e : Expr Nat := .op 0 .coalesce
      [.op 1 .call [.lit 2 (.str "near")], .op 3 .call [.lit 4 (.str "far")]]
    let result : Evaluation := ⟨.bool true, ⟨3, 0, 0, 0, 0, 0⟩⟩
    let full := e.run ⟨.unlimited, host, .untimed⟩
    let timed (B : Budgets) := e.run ⟨Limits.unlimited.within B, host, .untimed⟩
    full.outcome = .ok result ∧ host.delays full.calls = [10, 30] ∧
      (timed ⟨some 41, some 31⟩).outcome = .ok result ∧
      (timed ⟨some 40, some 31⟩).outcome ≠ .ok result := by
  intro near far host e result full timed
  have hfull : full.outcome = .ok result := by rfl
  have hdelays : host.delays full.calls = [10, 30] := by rfl
  obtain ⟨requests, -, -, hexact⟩ := run_within_budgets hfull
  refine ⟨hfull, hdelays, (hexact ⟨some 41, some 31⟩ (by simp)).1.2 ?_, fun hsame => ?_⟩
  · rw [hdelays]
    simp [Limit.ReachedBy]
  · have hspared := (hexact ⟨some 40, some 31⟩ (by simp)).1.1 hsame
    rw [hdelays] at hspared
    simp [Limit.ReachedBy] at hspared

end Expr

end OpTree
