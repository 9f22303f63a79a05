import OpTree.Proofs.Evaluation.Demand

/-!
# Statistics are consistent

Every node is counted as an operation before anything else is counted for it, and that is one scope
or one string at most: a scope or a call of a lambda enters a scope, and a literal, a lookup or a
host call may give a string. So the operations of an evaluation cover its scopes and strings. They
cover the scopes with one to spare, because the body of a scope is an operation too, and in the end
there is one that enters none.

`Usage.Covers n m u v` says how far operations cover what is counted from one usage to another:
scopes and strings together but for `n`, and scopes with `m` to spare. Both numbers add up where
steps are put together (`Eval.Covered.bind`), and a node whose operands are covered is covered
itself (`Eval.Covered.evalNode`).

Main statement: `Expr.stats_of_evaluate`.
-/

namespace OpTree

variable {α β γ : Type}

/-! ### Counters -/

namespace Usage

/-- No more scopes are open now, or have ever been open at a time, than have been counted; one has
been open if one has been counted; and characters are counted with their strings only. -/
structure Coherent (u : Usage) : Prop where
  depth : u.scopeDepth ≤ u.stats.scopeCount
  peak : u.stats.scopeDepthMax ≤ u.stats.scopeCount
  reached : u.stats.scopeDepthMax = 0 → u.stats.scopeCount = 0
  chars : u.stats.strCount = 0 → u.stats.strChars = 0

/-- Where nothing has been counted the counters agree. -/
theorem Coherent.zero : Coherent .zero :=
  ⟨Nat.le_refl _, Nat.le_refl _, fun _ => rfl, fun _ => rfl⟩

/-- Whatever is counted, counters stay coherent. -/
theorem Coherent.of_counts {f : Usage → Usage} (hf : Counts f) {u : Usage} (h : u.Coherent) :
    (f u).Coherent := by
  obtain ⟨hdepth, hpeak, hreached, hchars⟩ := h
  cases hf with
  | op | var => exact ⟨hdepth, hpeak, hreached, hchars⟩
  | string chars => exact ⟨hdepth, hpeak, hreached, fun h => absurd h (Nat.succ_ne_zero _)⟩
  | openScope =>
    refine ⟨Nat.succ_le_succ hdepth, ?_, fun h => ?_, hchars⟩
    · exact Nat.max_le.2 ⟨Nat.le_succ_of_le hpeak, Nat.succ_le_succ hdepth⟩
    · simp [openScope] at h
  | closeScope => exact ⟨Nat.le_trans (Nat.sub_le _ _) hdepth, hpeak, hreached, hchars⟩

/-- From the one usage to the other the operations cover the scopes and strings that are counted but
for `n`, and the scopes alone with `m` to spare. -/
structure Covers (n m : Nat) (u v : Usage) : Prop where
  coherent : u.Coherent → v.Coherent
  scopes : v.stats.scopeCount + u.stats.opCount + m ≤ u.stats.scopeCount + v.stats.opCount
  strings : v.stats.scopeCount + v.stats.strCount + u.stats.opCount ≤
    u.stats.scopeCount + u.stats.strCount + v.stats.opCount + n

namespace Covers

variable {n m n' m' : Nat} {u v w : Usage}

theorem refl (u : Usage) : Covers 0 0 u u :=
  ⟨id, Nat.le_refl _, Nat.le_refl _⟩

theorem trans (h : Covers n m u v) (h' : Covers n' m' v w) : Covers (n + n') (m + m') u w where
  coherent hu := h'.coherent (h.coherent hu)
  scopes := by
    have hscopes := h.scopes
    have hscopes' := h'.scopes
    omega
  strings := by
    have hstrings := h.strings
    have hstrings' := h'.strings
    omega

theorem mono (h : Covers n m u v) (hn : n ≤ n') (hm : m' ≤ m) : Covers n' m' u v where
  coherent := h.coherent
  scopes := Nat.le_trans (Nat.add_le_add_left hm _) h.scopes
  strings := Nat.le_trans h.strings (Nat.add_le_add_left hn _)

/-- An operation covers one thing. -/
theorem of_countOp (h : Covers 1 0 u.countOp v) : Covers 0 1 u v where
  coherent hu := h.coherent (hu.of_counts .op)
  scopes := by
    have hscopes := h.scopes
    simp only [countOp] at hscopes
    omega
  strings := by
    have hstrings := h.strings
    simp only [countOp] at hstrings
    omega

/-- A scope is covered by the operation that its body has to spare. -/
theorem of_openScope (h : Covers 0 1 u.openScope v) : Covers 1 0 u v.closeScope where
  coherent hu := (h.coherent (hu.of_counts .openScope)).of_counts .closeScope
  scopes := by
    have hscopes := h.scopes
    simp only [openScope, closeScope] at hscopes ⊢
    omega
  strings := by
    have hstrings := h.strings
    simp only [openScope, closeScope] at hstrings ⊢
    omega

end Covers

end Usage

/-! ### Steps -/

namespace Eval

open EvalM Usage

/-- A step that succeeds is covered. -/
def Covered (n m : Nat) (x : EvalM α β) : Prop :=
  ∀ setting c b d, x setting c = (.ok b, d) → c.usage.Covers n m d.usage

namespace Covered

variable {n m n' m' : Nat} {x : EvalM α β} {visit : Expr α → EvalM α Scalar} {node : α}
  {code : Operator} {e : Expr α} {es : List (Expr α)}

theorem mono (h : Covered n m x) (hn : n ≤ n') (hm : m' ≤ m) : Covered n' m' x :=
  fun setting c b d hx => (h setting c b d hx).mono hn hm

/-- Of two steps the uncovered amounts add up, and so does what is to spare. -/
theorem bind {f : β → EvalM α γ} (hx : Covered n m x) (hf : ∀ b, Covered n' m' (f b)) :
    Covered (n + n') (m + m') (x >>= f) := by
  intro setting c b d h
  obtain ⟨a, c', ha, hd⟩ := bind_eq_ok.1 h
  exact (hx setting c a c' ha).trans (hf a setting c' b d hd)

/-- After a step that leaves nothing uncovered. -/
theorem andThen {f : β → EvalM α γ} (hx : Covered 0 0 x) (hf : ∀ b, Covered n m (f b)) :
    Covered n m (x >>= f) := by
  rw [← Nat.zero_add n, ← Nat.zero_add m]
  exact hx.bind hf

theorem fail (err : EvalError α) : Covered n m (fail err : EvalM α β) := by
  rintro setting c b d ⟨⟩

/-- A step that counts nothing. -/
theorem of_usage (h : ∀ setting c, (x setting c).2.usage = c.usage) : Covered 0 0 x := by
  intro setting c b d hx
  have hd : d.usage = c.usage := congrArg (·.2.usage) hx.symm |>.trans (h setting c)
  exact hd ▸ .refl _

theorem pure (b : β) : Covered 0 0 (pure b : EvalM α β) :=
  of_usage fun _ _ => rfl

theorem setting : Covered 0 0 (setting : EvalM α Setting) :=
  of_usage fun _ _ => rfl

theorem state : Covered 0 0 (state : EvalM α (State α)) :=
  of_usage fun _ _ => rfl

/-- A change that does not touch the counters counts nothing. -/
theorem modify {change : State α → State α} (hq : Quiet change) : Covered 0 0 (modify change) :=
  of_usage fun _ c => hq.usage c

/-- Nor does such a change in the end. -/
theorem andFinally {change : State α → State α} (hx : Covered n m x) (hq : Quiet change) :
    Covered n m (x.andFinally change) := by
  intro setting c b d hd
  obtain ⟨hb, rfl⟩ := Prod.mk.inj hd
  rw [hq.usage]
  exact hx setting c b _ (Prod.ext hb rfl)

/-! ### Counting -/

/-- Counting ends with a check of the limits, which counts nothing. -/
private theorem counted {f : Usage → Usage} (h : ∀ u, Covers n m u (f u)) :
    Covered n m (modifyUsage f >>= fun _ => checkLimits : EvalM α Unit) := by
  have hcount : Covered n m (modifyUsage f : EvalM α Unit) := by
    rintro setting c b d ⟨⟩
    exact h c.usage
  have hcheck : Covered 0 0 (checkLimits : EvalM α Unit) :=
    of_usage fun s c => by rw [checkLimits_snd]
  exact hcount.bind fun _ => hcheck

/-- Variables need no cover. -/
theorem countVar : Covered 0 0 (countVar : EvalM α Unit) :=
  counted fun _ => ⟨fun h => h.of_counts .var, Nat.le_refl _, Nat.le_refl _⟩

/-- A string is left uncovered. -/
theorem countString (v : Scalar) : Covered 1 0 (countString v : EvalM α Unit) := by
  cases v with
  | str s => exact counted fun _ => ⟨fun h => h.of_counts (.string s.length), Nat.le_refl _, by
      simp only [Usage.countString]
      omega⟩
  | null | num | bool => exact (pure ()).mono (Nat.zero_le _) (Nat.le_refl _)

/-- A value that is counted if it is a string. -/
theorem counting (v : Scalar) :
    Covered 1 0 (Eval.countString v >>= fun _ => Pure.pure v : EvalM α Scalar) :=
  (countString v).bind fun _ => pure v

/-! ### Scopes and host calls -/

/-- The scope uses up the operation that its body has to spare, and leaves one thing uncovered. -/
theorem inScope {x : EvalM α Scalar} (frame : Frame α) (hx : Covered 0 1 x) :
    Covered 1 0 (inScope frame x) := by
  intro setting c b d h
  rw [inScope_apply] at h
  obtain ⟨hb, rfl⟩ := Prod.mk.inj h
  exact (hx setting (c.enterScope frame) b _ (Prod.ext hb rfl)).of_openScope

/-- Waiting counts nothing. -/
theorem await (name : String) (reply : Reply) : Covered 0 0 (await node name reply) := by
  have hpass (ms : Nat) : Covered 0 0 (pass ms : EvalM α Unit) := of_usage fun _ _ => rfl
  refine setting.andThen fun s => state.andThen fun c => ?_
  dsimp only
  split
  · refine (hpass _).andThen fun _ => ?_
    split
    · exact fail _
    · split
      · exact pure _
      · exact fail _
    · exact pure _
  · split
    · exact (hpass _).andThen fun _ => fail _
    · exact fail _

/-- The string that a reply gives is left uncovered. -/
theorem receive (name : String) (reply : Reply) : Covered 1 0 (receive node name reply) := by
  refine (await name reply).andThen fun v => ?_
  split
  · exact counting v
  · exact fail _

/-- So is the string of a host call. -/
theorem invoke (name : String) (call : HostCall) (values : List Scalar) :
    Covered 1 0 (invoke node name call values) := by
  intro setting c b d h
  rw [invoke_apply] at h
  exact receive name _ setting { c with history := ⟨name, values⟩ :: c.history } b d h

/-! ### Operators -/

section

variable (hv : ∀ e, Covered 0 1 (visit e))

include hv

/-- Visits have something to spare, which names, arguments and bindings do not need. -/
theorem visits (e : Expr α) : Covered 0 0 (visit e) :=
  (hv e).mono (Nat.le_refl _) (Nat.zero_le _)

/-- A name is covered by the visit of its operand. -/
theorem nameOf (e : Expr α) : Covered 0 0 (nameOf visit node code e) := by
  rw [Eval.nameOf]
  split
  · exact pure _
  · refine (visits hv e).andThen fun v => ?_
    split
    · exact pure _
    · exact fail _

/-- The string that a lookup finds is left uncovered. -/
theorem lookUp (e : Expr α) : Covered 1 0 (lookUp visit node e) := by
  refine (nameOf hv e).andThen fun name => state.andThen fun c => ?_
  split
  · exact counting _
  · exact fail _

/-- A declaration is covered by the visit of its value. -/
theorem declare (frame : Frame α) (name : String) (e : Expr α) :
    Covered 0 0 (declare visit node frame name e) := by
  rw [Eval.declare.eq_def]
  split
  · refine (of_usage fun _ _ => rfl : Covered 0 0 (ofExcept _)).andThen fun l => ?_
    split
    · exact pure _
    · exact fail _
  · refine (visits hv e).andThen fun v => ?_
    split
    · exact pure _
    · exact fail _

/-- The evaluation of a scope leaves one thing uncovered. Its operation will cover it. -/
theorem evalScope : ∀ (es : List (Expr α)) (frame : Frame α),
    Covered 1 0 (evalScope visit node frame es)
  | [], _ => (pure _).mono (Nat.zero_le _) (Nat.le_refl _)
  | [e], frame => inScope frame (hv e)
  | n :: e :: es, frame =>
    (nameOf hv n).andThen fun name => countVar.andThen fun _ =>
      (declare hv frame name e).andThen fun new => evalScope es new

/-- Arguments are covered by their visits. -/
theorem arguments (es : List (Expr α)) : Covered 0 0 (arguments visit es) := by
  induction es with
  | nil => exact pure _
  | cons e es ih => exact (visits hv e).andThen fun v => ih.andThen fun vs => pure _

/-- So are the arguments that are bound to parameters. -/
theorem bindParams : ∀ (params : List String) (es : List (Expr α)) (frame : Frame α),
    Covered 0 0 (bindParams visit node frame params es)
  | [], _, _ => pure _
  | _ :: _, [], _ => pure _
  | p :: params, e :: es, frame => by
    refine (visits hv e).andThen fun v => countVar.andThen fun _ => ?_
    split
    · exact bindParams params es _
    · exact fail _

/-- The call of a lambda opens a scope, and leaves one thing uncovered as well. -/
theorem callLambda (name : String) (depth : Nat) (lambda : Lambda α) (es : List (Expr α)) :
    Covered 1 0 (callLambda visit node name depth lambda es) := by
  rw [Eval.callLambda]
  split
  · exact fail _
  · split
    · exact fail _
    · refine (modify (.enter _ _)).andThen fun _ => ?_
      refine (modify (.scopes (·.mark depth name true))).andThen fun _ => ?_
      refine andFinally ?_ ((Quiet.scopes (·.mark depth name false)).trans .leave)
      refine (bindParams hv _ es _).andThen fun frame => ?_
      refine (modify (.scopes (·.narrow depth))).andThen fun _ => ?_
      exact (inScope frame (hv _)).andFinally (.scopes (·.widen))

/-- Whatever a call is to, it leaves one thing uncovered at most. -/
theorem evalCall (e : Expr α) (es : List (Expr α)) : Covered 1 0 (evalCall visit node e es) := by
  refine (nameOf hv e).andThen fun name => state.andThen fun c => ?_
  have hnote : Covered 0 0 (note (.external node name)) := of_usage fun _ _ => rfl
  split
  · exact callLambda hv _ _ _ es
  · refine hnote.andThen fun _ => setting.andThen fun s => ?_
    split
    · exact (arguments hv es).andThen fun values => invoke name _ values
    · exact fail _

/-- Operands that are visited one after the other are covered, and so are they together. -/
theorem of_demands {x : EvalM α Scalar} (hx : ∀ setting, Demands setting visit code es [] x) :
    Covered 0 0 x := by
  have hsteps {setting values c steps r} (hev : Evaluates setting visit code es values c steps r) :
      ∀ v, r.1 = .ok v → c.usage.Covers 0 0 r.2.usage := by
    induction hev with
    | done => exact fun _ _ => .refl _
    | fails => nofun
    | @visits values c i e value d _ r _ _ hvisit _ ih =>
      exact fun v hr => (visits hv e setting c value d hvisit).trans (ih v hr)
  intro setting c v d h
  obtain ⟨steps, hev⟩ := hx setting c
  rw [h] at hev
  exact hsteps hev v rfl

/-- **One step.** A node is covered, with one operation to spare for a scope around it, if its
operands are. -/
theorem evalNode (e : Expr α) : Covered 0 1 (evalNode visit e) := by
  have hanswer : Covered 1 0 (answer visit e) := by
    cases e with
    | lit a v =>
      rw [answer]
      split
      · exact counting v
      · exact fail _
    | op a code es =>
      rw [answer]
      split
      · rename_i harity
        rcases code.isPlain_or with hp | rfl | rfl | rfl | rfl
        · have hplain : Covered 0 0 (apply visit a code es) :=
            of_demands hv fun s => demands_apply hp harity
          exact hplain.mono (Nat.zero_le _) (Nat.le_refl _)
        · cases es with
          | nil => cases harity
          | cons n args => exact evalCall hv n args
        · obtain ⟨n, rfl⟩ := List.length_eq_one_iff.1 (beq_iff_eq.1 harity)
          exact lookUp hv n
        · exact evalScope hv es .empty
        · exact fail _
      · exact fail _
  intro setting c b d h
  rw [evalNode_eq] at h
  obtain ⟨_, c', htick, hd⟩ := bind_eq_ok.1 h
  have hvisited := tick_snd e.label setting c
  rw [htick] at hvisited
  cases hvisited
  exact (hanswer setting (c.visited e.label) b d hd).of_countOp

end

end Covered

/-- **Evaluation is covered**, in whatever state and setting. -/
theorem covered_eval (depth : Nat) (e : Expr α) : Covered 0 1 (eval depth e) := by
  induction depth generalizing e with
  | zero => exact .fail _
  | succ depth ih =>
    rw [eval_succ]
    exact .evalNode ih e

end Eval

/-- **Statistics are consistent.** Whenever an evaluation succeeds, no more scopes have been open at
a time than have been entered, and one has been open if one has been entered. There are at least as
many operations as scopes and strings together, and more operations than scopes. Without strings
there are no characters. -/
theorem Expr.stats_of_evaluate {setting : Setting} {e : Expr α} {r : Evaluation}
    (h : e.evaluate setting = .ok r) :
    r.stats.scopeDepthMax ≤ r.stats.scopeCount ∧
      r.stats.scopeCount + r.stats.strCount ≤ r.stats.opCount ∧
      r.stats.scopeCount < r.stats.opCount ∧
      (r.stats.scopeDepthMax = 0 ↔ r.stats.scopeCount = 0) ∧
      (r.stats.strCount = 0 → r.stats.strChars = 0) := by
  have hcovered := Eval.covered_eval e.extent.nesting e setting .start
  simp only [evaluate, run, runWithin] at h
  generalize Eval.eval e.extent.nesting e setting .start = c at h hcovered
  obtain ⟨err | v, d⟩ := c
  · cases h
  · obtain rfl : ⟨v, d.usage.stats⟩ = r := Except.ok.inj h
    obtain ⟨hcoherent, hscopes, hstrings⟩ := hcovered v d rfl
    obtain ⟨-, hpeak, hreached, hchars⟩ := hcoherent .zero
    change d.usage.stats.scopeCount + 0 + 1 ≤ 0 + d.usage.stats.opCount at hscopes
    change d.usage.stats.scopeCount + d.usage.stats.strCount + 0 ≤
      0 + 0 + d.usage.stats.opCount + 0 at hstrings
    dsimp only
    refine ⟨hpeak, by omega, by omega, ⟨hreached, fun hcount => ?_⟩, hchars⟩
    exact Nat.le_zero.1 (hcount ▸ hpeak)

/-- A lambda that gives back its argument: no operation is left over. -/
theorem Expr.stats_of_evaluate_identity :
    let e : Expr Nat := .op 0 .scope [.lit 1 (.str "f"),
      .op 2 .lambda [.lit 3 (.str "x"), .op 4 .lookup [.lit 5 (.str "x")]],
      .op 6 .call [.lit 7 (.str "f"), .lit 8 (.str "text")]]
    let stats : Stats := ⟨4, 2, 2, 2, 2, 8⟩
    e.evaluate ⟨.unlimited, .empty, .timed⟩ = .ok ⟨.str "text", stats⟩ ∧
      stats.scopeDepthMax ≤ stats.scopeCount ∧
      stats.scopeCount + stats.strCount ≤ stats.opCount ∧
      stats.scopeCount < stats.opCount ∧
      (stats.scopeDepthMax = 0 ↔ stats.scopeCount = 0) ∧
      (stats.strCount = 0 → stats.strChars = 0) := by
  intro e stats
  have hrun : e.evaluate ⟨.unlimited, .empty, .timed⟩ = .ok ⟨.str "text", stats⟩ := by
    decide +kernel
  exact ⟨hrun, stats_of_evaluate hrun⟩

end OpTree
