import OpTree.Proofs.Evaluation.Demand
import OpTree.Proofs.Evaluation.Nesting
import OpTree.Proofs.Limits.Exactness

/-!
# The size of an expression bounds its work

In an expression without lambdas no node can be evaluated from anywhere but the place where it
stands, and every operator visits an operand once at most. To count what that comes to, everything
an evaluation does is given a price (`Prices`): the visit of a node, an operation, a scope, a
variable and a string. `Prices.due` charges every node of the expression once, and `Spends p n x`
says that a step spends no more than `n`; for the evaluation of an expression that is what is due
(`Eval.spends_eval`). With the right prices it is a counter that is charged, or the visits of one
node.

Main statement: `Expr.work_le_size`.
-/

namespace OpTree

open List

variable {α β γ : Type}

/-! ### Prices -/

/-- The node of a visit. -/
def Event.visited? : Event α → Option α
  | .visit node => some node
  | _ => none

/-- What is charged for the things that an evaluation does. -/
structure Prices (α : Type) where
  visit : α → Nat
  op : Nat
  scope : Nat
  var : Nat
  string : Nat

namespace Prices

variable (p : Prices α)

/-- What has been spent so far. -/
def spent (c : State α) : Nat :=
  ((c.trace.filterMap Event.visited?).map p.visit).sum + p.op * c.usage.stats.opCount +
    p.scope * c.usage.stats.scopeCount + p.var * c.usage.stats.varCount +
    p.string * c.usage.stats.strCount

/-- What is due for a node beside its visit and what its operands cost: a call or a lookup may give
a string, and a scope has as many variables as bindings. -/
def own (code : Operator) (count : Nat) : Nat :=
  match code with
  | .call | .lookup => p.string
  | .scope => p.scope + count / 2 * p.var
  | _ => 0

mutual

/-- What is due for an expression, every node being evaluated once. -/
def due : Expr α → Nat
  | .lit a _ => p.visit a + p.op + p.string
  | .op a code es => p.visit a + p.op + (p.own code es.length + dueAll es)

/-- What is due for a list of expressions. -/
def dueAll : List (Expr α) → Nat
  | [] => 0
  | e :: es => due e + dueAll es

end

variable {p}

/-- For a list of expressions is due what is due for each of them. -/
theorem dueAll_eq (es : List (Expr α)) : p.dueAll es = (es.map p.due).sum := by
  induction es with
  | nil => rfl
  | cons e es ih => rw [dueAll, ih, map_cons, sum_cons]

/-- Of a part of the operands no more is due than of all. -/
theorem dueAll_le_of_sublist {es fs : List (Expr α)} (h : es.Sublist fs) :
    p.dueAll es ≤ p.dueAll fs := by
  rw [dueAll_eq, dueAll_eq]
  exact (h.map p.due).sum_le_sum fun _ _ => Nat.zero_le _

/-- A visit spends the price of the node and that of an operation. -/
theorem spent_visited (c : State α) (node : α) :
    p.spent (c.visited node) = p.spent c + (p.visit node + p.op) := by
  simp only [spent, State.visited, State.note, Event.visited?, filterMap_cons, map_cons, sum_cons,
    Usage.countOp, Nat.mul_add]
  omega

/-- What is spent depends on the nodes visited and on the counters. -/
theorem spent_congr {c d : State α} (hstats : d.usage.stats = c.usage.stats)
    (htrace : d.trace.filterMap Event.visited? = c.trace.filterMap Event.visited?) :
    p.spent d = p.spent c := by
  rw [spent, spent, hstats, htrace]

end Prices

/-- One visit of the node is charged. -/
def Prices.ofNode [DecidableEq α] (node : α) : Prices α :=
  ⟨fun a => if a = node then 1 else 0, 0, 0, 0, 0⟩

/-- What a counter counts is charged, and every scope for the depth. -/
def Prices.ofCounter : Counter → Prices α
  | .opCount => ⟨fun _ => 0, 1, 0, 0, 0⟩
  | .scopeCount | .scopeDepth => ⟨fun _ => 0, 0, 1, 0, 0⟩
  | .varCount => ⟨fun _ => 0, 0, 0, 1, 0⟩
  | .strCount => ⟨fun _ => 0, 0, 0, 0, 1⟩
  | .strChars => ⟨fun _ => 0, 0, 0, 0, 0⟩

namespace Prices

section

variable [DecidableEq α] (node : α)

private theorem sum_map_visit (nodes : List α) :
    (nodes.map (ofNode node).visit).sum = nodes.count node := by
  induction nodes with
  | nil => rfl
  | cons a nodes ih =>
    rw [map_cons, sum_cons, ih, count_cons]
    simp only [ofNode, beq_iff_eq]
    omega

/-- Where only the visits of a node are charged, their number has been spent. -/
theorem spent_ofNode (c : State α) :
    (ofNode node).spent c = (c.trace.filterMap Event.visited?).count node := by
  rw [← sum_map_visit]
  simp [spent, ofNode]

/-- A node costs nothing then but its visit. -/
private theorem own_ofNode (code : Operator) (count : Nat) : (ofNode node).own code count = 0 := by
  cases code <;> simp [own, ofNode]

mutual

/-- For every occurrence of the label one visit is due. -/
theorem due_ofNode : (e : Expr α) → (ofNode node).due e = e.labels.count node
  | .lit a v => by
    rw [due, Expr.labels, count_singleton]
    simp [ofNode]
  | .op a code es => by
    rw [due, Expr.labels, count_cons, own_ofNode, dueAll_ofNode es]
    simp [ofNode]
    omega

private theorem dueAll_ofNode :
    (es : List (Expr α)) → (ofNode node).dueAll es = (Expr.labelsAll es).count node
  | [] => rfl
  | e :: es => by rw [dueAll, Expr.labelsAll, count_append, due_ofNode e, dueAll_ofNode es]

end

end

section

variable {p : Prices α}

mutual

/-- Where one thing is charged at most, and no visit, no more is due than the expression has nodes.
The variables leave one node over: every binding has two operands. -/
theorem due_add_var_le_size (hvisit : ∀ a, p.visit a = 0)
    (hone : p.op + p.scope + p.var + p.string ≤ 1) : (e : Expr α) → p.due e + p.var ≤ e.size
  | .lit a v => by
    rw [due, Expr.size, hvisit]
    omega
  | .op a code es => by
    have hall := dueAll_add_le_sizeAll hvisit hone es
    have hhalf : es.length / 2 * p.var ≤ es.length * p.var :=
      Nat.mul_le_mul_right _ (Nat.div_le_self _ _)
    have hown : p.own code es.length ≤ p.string + p.scope + es.length / 2 * p.var := by
      cases code <;> simp only [own] <;> omega
    rw [due, Expr.size, hvisit]
    omega

private theorem dueAll_add_le_sizeAll (hvisit : ∀ a, p.visit a = 0)
    (hone : p.op + p.scope + p.var + p.string ≤ 1) :
    (es : List (Expr α)) → p.dueAll es + es.length * p.var ≤ Expr.sizeAll es
  | [] => by simp [dueAll]
  | e :: es => by
    have he := due_add_var_le_size hvisit hone e
    have hes := dueAll_add_le_sizeAll hvisit hone es
    rw [dueAll, Expr.sizeAll, length_cons, Nat.succ_mul]
    omega

end

/-- What is due for a counter is at most one for each node. -/
theorem due_ofCounter_le_size (counter : Counter) (e : Expr α) :
    (ofCounter counter).due e ≤ e.size := by
  have h := due_add_var_le_size (p := .ofCounter counter) (fun a => by cases counter <;> rfl)
    (by cases counter <;> simp [ofCounter]) e
  omega

end

end Prices

/-! ### Expressions without lambdas -/

namespace Expr

/-- An expression without lambda nodes is none itself. -/
theorem isLambda_eq_false (e : Expr α) (he : e.lambdaCount = 0) : e.isLambda = false := by
  cases e with
  | lit => rfl
  | op a code es =>
    refine isLambda_op_of_ne ?_ a es
    rintro rfl
    simp [lambdaCount] at he

/-- Without lambda nodes in the expression there are none in its operands. -/
theorem lambdaCount_of_mem {a : α} {code : Operator} {e : Expr α} {es : List (Expr α)}
    (h : (op a code es).lambdaCount = 0) (he : e ∈ es) : e.lambdaCount = 0 := by
  rw [lambdaCount] at h
  have hall : lambdaCountAll es = 0 := by omega
  clear h
  induction es with
  | nil => cases he
  | cons f fs ih =>
    rw [lambdaCountAll] at hall
    rcases mem_cons.1 he with rfl | he
    · omega
    · exact ih he (by omega)

end Expr

/-! ### Steps that spend -/

/-- No lambda is visible, and there have been at least as many scopes as are open or have been open
at a time. -/
structure State.Flat (c : State α) : Prop where
  lambdas : ∀ f ∈ c.scopes.visible, f.lambdas = .empty
  depth : c.usage.scopeDepth ≤ c.usage.stats.scopeCount
  peak : c.usage.stats.scopeDepthMax ≤ c.usage.stats.scopeCount

namespace State.Flat

theorem start : (start : State α).Flat :=
  ⟨nofun, Nat.le_refl _, Nat.le_refl _⟩

/-- Without lambdas no name is that of a lambda. -/
theorem lambda?_eq_none {c : State α} (h : c.Flat) (name : String) :
    c.scopes.lambda? name = none := by
  refine Option.eq_none_iff_forall_ne_some.2 fun found hfound => ?_
  obtain ⟨f, hf, hl⟩ := ScopeStack.exists_mem_of_lambda? hfound
  rw [h.lambdas f hf] at hl
  cases hl

end State.Flat

/-- What a counter has counted has been charged for. -/
theorem State.Flat.value_le_spent {c : State α} (h : c.Flat) {counter : Counter}
    (hne : counter ≠ .strChars) :
    c.usage.stats.value counter ≤ (Prices.ofCounter counter).spent c := by
  cases counter with
  | scopeDepth => simpa [Prices.spent, Prices.ofCounter, Stats.value] using h.peak
  | opCount | scopeCount | varCount | strCount =>
    simp [Prices.spent, Prices.ofCounter, Stats.value]
  | strChars => exact absurd rfl hne

namespace Eval

open EvalM

/-- Where no lambda is visible, the step spends no more than some amount. -/
def Spends (p : Prices α) (n : Nat) (x : EvalM α β) : Prop :=
  ∀ setting c, c.Flat → (x setting c).2.Flat ∧ p.spent (x setting c).2 ≤ p.spent c + n

namespace Spends

variable {p : Prices α} {n m : Nat} {x : EvalM α β} {visit : Expr α → EvalM α Scalar} {node : α}
  {code : Operator} {e : Expr α} {es : List (Expr α)} {frame : Frame α}

theorem pure (b : β) : Spends p n (pure b : EvalM α β) :=
  fun _ _ hc => ⟨hc, Nat.le_add_right _ _⟩

theorem fail (err : EvalError α) : Spends p n (fail err : EvalM α β) :=
  fun _ _ hc => ⟨hc, Nat.le_add_right _ _⟩

theorem mono (hx : Spends p n x) (h : n ≤ m) : Spends p m x := by
  intro s c hc
  obtain ⟨hd, hle⟩ := hx s c hc
  exact ⟨hd, by omega⟩

/-- One step after the other costs the sum of both. -/
theorem bind {f : β → EvalM α γ} (hx : Spends p n x) (hf : ∀ b, Spends p m (f b)) :
    Spends p (n + m) (x >>= f) := by
  intro s c hc
  obtain ⟨hd, hle⟩ := hx s c hc
  rw [bind_apply]
  generalize x s c = r at hd hle
  obtain ⟨err | b, d⟩ := r
  · exact ⟨hd, by dsimp only at hle ⊢; omega⟩
  · obtain ⟨hd', hle'⟩ := hf b s d hd
    exact ⟨hd', by dsimp only at hle ⊢; omega⟩

/-- A step that spends nothing. -/
theorem andThen {f : β → EvalM α γ} (hx : Spends p 0 x) (hf : ∀ b, Spends p n (f b)) :
    Spends p n (x >>= f) :=
  Nat.zero_add n ▸ hx.bind hf

theorem setting : Spends p 0 (setting : EvalM α Setting) :=
  fun _ _ hc => ⟨hc, Nat.le_refl _⟩

/-- A step that goes on from the state it finds may suppose it to be flat. -/
theorem state_bind {k : State α → EvalM α β} (h : ∀ c, c.Flat → Spends p n (k c)) :
    Spends p n (state >>= k) :=
  fun s c hc => h c hc s c hc

/-- A change that concerns neither scopes nor counters. -/
theorem modify {change : State α → State α} (hscopes : ∀ c, (change c).scopes = c.scopes)
    (husage : ∀ c, (change c).usage = c.usage)
    (htrace : ∀ c, (change c).trace.filterMap Event.visited? = c.trace.filterMap Event.visited?) :
    Spends p 0 (modify change) := by
  intro s c hc
  have hflat : (change c).Flat := by
    obtain ⟨hlambdas, hdepth, hpeak⟩ := hc
    rw [← hscopes c] at hlambdas
    rw [← husage c] at hdepth hpeak
    exact ⟨hlambdas, hdepth, hpeak⟩
  exact ⟨hflat, (Prices.spent_congr (congrArg Usage.stats (husage c)) (htrace c)).le⟩

/-! ### Counting -/

/-- Checking the limits costs nothing. -/
theorem checkLimits : Spends p 0 (checkLimits : EvalM α Unit) := by
  intro s c hc
  rw [checkLimits_snd]
  exact ⟨hc, Nat.le_refl _⟩

/-- A visit costs the price of the node and that of an operation. -/
theorem tick (node : α) : Spends p (p.visit node + p.op) (tick node) := by
  intro s c hc
  rw [tick_snd]
  exact ⟨⟨hc.lambdas, hc.depth, hc.peak⟩, (Prices.spent_visited c node).le⟩

/-- Counting a variable costs a variable. -/
theorem countVar : Spends p p.var (countVar : EvalM α Unit) := by
  have hcount : Spends p p.var (modifyUsage Usage.countVar : EvalM α Unit) := by
    intro s c hc
    refine ⟨⟨hc.lambdas, hc.depth, hc.peak⟩, le_of_eq ?_⟩
    simp only [Prices.spent, modifyUsage, EvalM.modify, Usage.countVar, Nat.mul_add]
    omega
  exact hcount.bind fun _ => checkLimits

/-- Counting a value costs a string at most. -/
theorem countString (v : Scalar) : Spends p p.string (countString v : EvalM α Unit) := by
  cases v with
  | str text =>
    have hcount : Spends p p.string
        (modifyUsage (Usage.countString · text.length) : EvalM α Unit) := by
      intro s c hc
      refine ⟨⟨hc.lambdas, hc.depth, hc.peak⟩, le_of_eq ?_⟩
      simp only [Prices.spent, modifyUsage, EvalM.modify, Usage.countString, Nat.mul_add]
      omega
    exact hcount.bind fun _ => checkLimits
  | null | num | bool => exact pure _

/-! ### Scopes and host calls -/

/-- A scope costs its own price and what is done inside of it. -/
theorem inScope {x : EvalM α Scalar} (hx : Spends p n x) (hframe : frame.lambdas = .empty) :
    Spends p (p.scope + n) (inScope frame x) := by
  intro s c hc
  have hopen : (c.enterScope frame).Flat := by
    refine ⟨forall_mem_cons.2 ⟨hframe, hc.lambdas⟩, Nat.succ_le_succ hc.depth, ?_⟩
    exact Nat.max_le.2 ⟨Nat.le_succ_of_le hc.peak, Nat.succ_le_succ hc.depth⟩
  have hspent : p.spent (c.enterScope frame) = p.spent c + p.scope := by
    simp only [Prices.spent, State.enterScope, Usage.openScope, Nat.mul_add]
    omega
  obtain ⟨hd, hle⟩ := hx s (c.enterScope frame) hopen
  rw [inScope_apply]
  generalize (x s (c.enterScope frame)).2 = d at hd hle ⊢
  refine ⟨⟨fun f hf => hd.lambdas f (mem_of_mem_tail hf), ?_, hd.peak⟩, ?_⟩
  · exact Nat.le_trans (Nat.sub_le _ _) hd.depth
  · change p.spent d ≤ _
    omega

/-- Waiting costs nothing. -/
theorem await (name : String) (reply : Reply) : Spends p 0 (await node name reply) := by
  have hpass (ms : Nat) : Spends p 0 (pass ms : EvalM α Unit) :=
    modify (fun _ => rfl) (fun _ => rfl) fun _ => rfl
  refine setting.andThen fun s => state_bind fun c _ => ?_
  dsimp only
  split
  · refine (hpass _).andThen fun _ => ?_
    split
    · exact fail _
    · split
      · exact pure _
      · exact fail _
    · exact pure _
  · split
    · exact (hpass _).andThen fun _ => fail _
    · exact fail _

/-- A host call costs a string at most. -/
theorem invoke (name : String) (call : HostCall) (values : List Scalar) :
    Spends p p.string (invoke node name call values) := by
  refine state_bind fun c _ => ?_
  have hpush : Spends p 0 (EvalM.modify fun state : State α =>
      { state with history := ⟨name, values⟩ :: c.history }) :=
    modify (fun _ => rfl) (fun _ => rfl) fun _ => rfl
  refine hpush.andThen fun _ => setting.andThen fun s => (await name _).andThen fun v => ?_
  split
  · exact (countString v).bind (m := 0) fun _ => pure v
  · exact fail _

/-! ### Names, lookups, scopes and calls -/

/-- A name costs no more than the evaluation of its operand. -/
theorem nameOf (h : Spends p n (visit e)) : Spends p n (nameOf visit node code e) := by
  rw [Eval.nameOf]
  split
  · exact pure _
  · refine h.bind (m := 0) fun v => ?_
    split
    · exact pure _
    · exact fail _

/-- A lookup costs a string at most beside its name. -/
theorem lookUp (h : Spends p n (visit e)) : Spends p (n + p.string) (lookUp visit node e) := by
  refine h.nameOf.bind fun name => state_bind fun c _ => ?_
  split
  · exact (countString _).bind (m := 0) fun _ => pure _
  · exact fail _

/-- A binding of a value that is not a lambda. -/
private theorem declare_bind {name : String} {k : Frame α → EvalM α β}
    (he : e.isLambda = false) (h : Spends p n (visit e)) (hframe : frame.lambdas = .empty)
    (hk : ∀ new : Frame α, new.lambdas = .empty → Spends p m (k new)) :
    Spends p (n + m) (declare visit node frame name e >>= k) := by
  rw [Comparison.declare_of_not_isLambda he, bind_assoc]
  refine h.bind fun v => ?_
  cases hbind : frame.bindConstant? name v with
  | none => exact fun _ _ hc => ⟨hc, Nat.le_add_right _ _⟩
  | some new =>
    obtain ⟨-, rfl⟩ := Frame.bindConstant?_eq_some.1 hbind
    rw [pure_bind]
    exact hk _ hframe

/-- A scope costs what is due for it, as long as nothing in it is a lambda. -/
theorem evalScope :
    ∀ (es : List (Expr α)) (frame : Frame α), frame.lambdas = .empty →
      (∀ e ∈ es, e.isLambda = false ∧ Spends p (p.due e) (visit e)) →
      Spends p (p.own .scope es.length + p.dueAll es) (evalScope visit node frame es)
  | [], _, _, _ => pure _
  | [body], frame, hframe, h => by
    have hbody := ((h body mem_cons_self).2.inScope hframe)
    refine hbody.mono ?_
    simp only [Prices.own, Prices.dueAll]
    omega
  | n :: v :: es, frame, hframe, h => by
    rw [forall_mem_cons, forall_mem_cons] at h
    have hrest (new : Frame α) (hnew : new.lambdas = .empty) := evalScope es new hnew h.2.2
    refine Spends.mono (h.1.2.nameOf.bind fun name => countVar.bind fun _ =>
      declare_bind h.2.1.1 h.2.1.2 hframe hrest) ?_
    simp only [Prices.own, Prices.dueAll, length_cons]
    have hpairs : (es.length + 1 + 1) / 2 = es.length / 2 + 1 := by omega
    rw [hpairs, Nat.succ_mul]
    omega

/-- Arguments cost what is due for them. -/
theorem arguments (h : ∀ e ∈ es, Spends p (p.due e) (visit e)) :
    Spends p (p.dueAll es) (arguments visit es) := by
  induction es with
  | nil => exact pure _
  | cons e es ih =>
    rw [forall_mem_cons] at h
    exact h.1.bind fun v => (ih h.2).bind (m := 0) fun vs => pure _

/-- Without lambdas every call is one of the host. -/
theorem evalCall (he : Spends p n (visit e)) (h : ∀ e ∈ es, Spends p (p.due e) (visit e)) :
    Spends p (n + (p.dueAll es + p.string)) (evalCall visit node e es) := by
  refine he.nameOf.bind fun name => state_bind fun c hc => ?_
  have hnote : Spends p 0 (note (.external node name)) :=
    modify (fun _ => rfl) (fun _ => rfl) fun _ => rfl
  rw [hc.lambda?_eq_none name]
  refine hnote.andThen fun _ => setting.andThen fun s => ?_
  split
  · exact (arguments h).bind fun values => invoke name _ values
  · exact fail _

/-! ### Nodes -/

/-- Operands that are visited one after the other spend what is due for them. -/
theorem of_demands {x : EvalM α Scalar} (hx : ∀ setting, Demands setting visit code es [] x)
    (h : ∀ e ∈ es, Spends p (p.due e) (visit e)) : Spends p (p.dueAll es) x := by
  -- the operands of the steps are among all of them
  have hsteps {setting values c steps r} (hev : Evaluates setting visit code es values c steps r)
      (hc : c.Flat) : r.2.Flat ∧ p.spent r.2 ≤ p.spent c + p.dueAll (steps.map Step.operand) := by
    induction hev with
    | done => exact ⟨hc, Nat.le_add_right _ _⟩
    | fails _ he hv =>
      obtain ⟨hd, hle⟩ := h _ (mem_of_getElem? he) setting _ hc
      rw [hv] at hd hle
      exact ⟨hd, hle⟩
    | visits _ he hv _ ih =>
      obtain ⟨hd, hle⟩ := h _ (mem_of_getElem? he) setting _ hc
      rw [hv] at hd hle
      obtain ⟨hr, hle'⟩ := ih hd
      refine ⟨hr, ?_⟩
      rw [map_cons, Prices.dueAll]
      dsimp only at hle ⊢
      omega
  intro s c hc
  obtain ⟨steps, hev⟩ := hx s c
  obtain ⟨hr, hle⟩ := hsteps hev hc
  have hall : p.dueAll (steps.map Step.operand) ≤ p.dueAll es :=
    Prices.dueAll_le_of_sublist (hev.operands fun _ _ => Nat.zero_le _)
  exact ⟨hr, by omega⟩

/-- **One step.** A node spends what is due for it if its operands do, unless it is a lambda. -/
theorem evalNode (he : e.isLambda = false)
    (h : ∀ a code es, e = .op a code es →
      ∀ f ∈ es, f.isLambda = false ∧ Spends p (p.due f) (visit f)) :
    Spends p (p.due e) (evalNode visit e) := by
  rw [evalNode_eq]
  cases e with
  | lit a v =>
    rw [Prices.due, answer]
    refine (tick a).bind fun _ => ?_
    split
    · exact (countString v).bind (m := 0) fun _ => pure v
    · exact fail _
  | op a code es =>
    have hes := h a code es rfl
    have hvisits : ∀ f ∈ es, Spends p (p.due f) (visit f) := fun f hf => (hes f hf).2
    rw [Prices.due, answer]
    refine (tick a).bind fun _ => ?_
    split
    · rename_i harity
      rcases code.isPlain_or with hp | rfl | rfl | rfl | rfl
      · refine (of_demands (fun s => demands_apply hp harity) hvisits).mono ?_
        exact Nat.le_add_left _ _
      · cases es with
        | nil => cases harity
        | cons n args =>
          rw [forall_mem_cons] at hvisits
          refine (evalCall hvisits.1 hvisits.2).mono ?_
          simp only [Prices.own, Prices.dueAll]
          omega
      · obtain ⟨n, rfl⟩ := length_eq_one_iff.1 (beq_iff_eq.1 harity)
        refine (hvisits n mem_cons_self).lookUp.mono ?_
        simp only [Prices.own, Prices.dueAll]
        omega
      · exact evalScope es .empty rfl hes
      · cases he
    · exact fail _

end Spends

/-- **An expression without lambdas spends what is due for it**, in whatever state and setting. -/
theorem spends_eval {p : Prices α} (depth : Nat) (e : Expr α) (he : e.lambdaCount = 0) :
    Spends p (p.due e) (eval depth e) := by
  induction depth generalizing e with
  | zero => exact .fail _
  | succ depth ih =>
    rw [eval_succ]
    refine .evalNode (e.isLambda_eq_false he) ?_
    rintro a code es rfl f hf
    have hf' := Expr.lambdaCount_of_mem he hf
    exact ⟨f.isLambda_eq_false hf', ih f hf'⟩

end Eval

/-! ### Runs -/

namespace Expr

open Eval Prices

/-- **The size of an expression bounds its work.** In an expression without lambdas whose nodes are
all different every node is visited once at most, under any limits and with any host. And no limit
is exceeded if no time and no characters are bounded, and every other counter by no less than the
size of the expression. -/
theorem work_le_size {e : Expr α} (htree : e.labels.Nodup) (hfree : e.lambdaCount = 0) :
    (∀ setting, ((e.run setting).trace.filterMap Event.visited?).Nodup) ∧
      ∀ limits : Limits, limits.IsUntimed → limits.bound (.counter .strChars) = none →
        (∀ counter bound, limits.bound (.counter counter) = some bound → e.size ≤ bound) →
        ∀ host executor x,
          (e.run ⟨limits, host, executor⟩).outcome ≠ .error (.limitExceeded x) := by
  constructor
  · intro setting
    classical
    rw [nodup_iff_count_le_one]
    intro a
    obtain ⟨-, hle⟩ := spends_eval (p := .ofNode a) e.extent.nesting e hfree setting .start .start
    have hdue : (ofNode a).due e ≤ 1 := due_ofNode a e ▸ nodup_iff_count_le_one.1 htree a
    have hcount := spent_ofNode a (eval e.extent.nesting e setting .start).2
    have hstart : (ofNode a).spent (.start : State α) = 0 := rfl
    have htrace : (e.run setting).trace =
        (eval e.extent.nesting e setting .start).2.trace.reverse := rfl
    rw [htrace, filterMap_reverse, count_reverse]
    omega
  · intro limits hu hchars hbound host executor x hx
    have htracked : Tracked limits (eval e.extent.nesting e ⟨limits, host, executor⟩ .start)
        (eval e.extent.nesting e ⟨.unlimited, host, executor⟩ .start) :=
      exact_eval hu _ e .start (.inl .zero)
    obtain ⟨hflat, hle⟩ := spends_eval (p := .ofCounter x.counter) e.extent.nesting e hfree
      ⟨.unlimited, host, executor⟩ .start .start
    simp only [run, runWithin] at hx
    generalize eval e.extent.nesting e ⟨limits, host, executor⟩ .start = r at htracked hx
    generalize eval e.extent.nesting e ⟨.unlimited, host, executor⟩ .start = t at htracked hflat hle
    cases htracked with
    | ok => cases hx
    | error hne => exact hne x (Except.error.inj hx)
    | stopped hreports hlt =>
      cases hx
      have hsize := hbound x.counter x.bound hreports.1
      have hne : x.counter ≠ .strChars := by
        intro h
        have hb := hreports.1
        rw [h, hchars] at hb
        cases hb
      have hvalue := hflat.value_le_spent hne
      have hdue := due_ofCounter_le_size x.counter e
      have hstart : (ofCounter x.counter).spent (.start : State α) = 0 := by
        cases x.counter <;> rfl
      omega

/-- A scope with a lookup of its own variable, every counter bounded by the number of nodes. -/
theorem work_le_size_scope :
    let limits := [Counter.opCount, .scopeCount, .scopeDepth, .varCount, .strCount].foldl
      (fun limits counter => limits.set (.counter counter) (some 5)) Limits.unlimited
    let e : Expr Nat := .op 0 .scope [.lit 1 (.str "x"), .lit 2 (.str "value"),
      .op 3 .lookup [.lit 4 (.str "x")]]
    let host : Host := .empty
    (e.labels.Nodup ∧ e.lambdaCount = 0 ∧ e.size = 5 ∧ limits.IsUntimed ∧
        limits.bound (.counter .strChars) = none ∧
        ∀ counter bound, limits.bound (.counter counter) = some bound → e.size ≤ bound) ∧
      ((e.run ⟨limits, host, .timed⟩).trace.filterMap Event.visited?).Nodup ∧
      ∀ x, (e.run ⟨limits, host, .timed⟩).outcome ≠ .error (.limitExceeded x) := by
  intro limits e host
  have htree : e.labels.Nodup := by decide
  have hfree : e.lambdaCount = 0 := by decide
  have hsize : e.size = 5 := by decide
  have hu : limits.IsUntimed := ⟨rfl, rfl⟩
  have hbound : ∀ counter bound, limits.bound (.counter counter) = some bound → e.size ≤ bound := by
    intro counter bound hb
    have hb' : some 5 = some bound := by cases counter <;> first | exact hb | cases hb
    exact hsize.le.trans (Option.some.inj hb').le
  obtain ⟨hvisits, hlimits⟩ := work_le_size htree hfree
  exact ⟨⟨htree, hfree, hsize, hu, rfl, hbound⟩, hvisits _,
    hlimits limits hu rfl hbound host .timed⟩

end Expr

end OpTree
