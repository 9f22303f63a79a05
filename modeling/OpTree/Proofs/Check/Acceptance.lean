import OpTree.Proofs.Check.Walk

/-!
# What the check accepts

A check threads a report through the whole expression, and what is known in the end is the final
report only. `Accepted ρ x b` says that the step `x` of a check has succeeded with `b`, at whatever
report it began, and that all it has recorded is in the report `ρ`. Since no step takes anything
back (`Grows`), a sequence of steps is accepted only if each of them is (`Accepted.bind`). The rest
of the module reads off the check of each kind of node what its acceptance means.
-/

namespace OpTree

variable {α β γ : Type}

/-- All that one report lists is listed by the other, which has gone on from it. -/
structure Report.Within (r ρ : Report α) : Prop where
  opCount : r.opCount ≤ ρ.opCount
  calls : r.calls ⊆ ρ.calls
  warnings : r.warnings <+: ρ.warnings

namespace Report.Within

variable {r r' r'' : Report α}

/-- Nothing need be added. -/
theorem refl (r : Report α) : r.Within r :=
  ⟨Nat.le_refl _, List.Subset.refl _, List.prefix_refl _⟩

/-- What has gone on twice has gone on. -/
theorem trans (h : r.Within r') (h' : r'.Within r'') : r.Within r'' :=
  ⟨Nat.le_trans h.opCount h'.opCount, List.Subset.trans h.calls h'.calls,
    h.warnings.trans h'.warnings⟩

/-- Counting takes nothing back. -/
theorem countOp (r : Report α) : r.Within r.countOp :=
  ⟨Nat.le_succ _, List.Subset.refl _, List.prefix_refl _⟩

/-- Neither does a warning. -/
theorem warn (r : Report α) (warning : Warning α) : r.Within (r.warn warning) :=
  ⟨Nat.le_refl _, List.Subset.refl _, List.prefix_append _ _⟩

/-- Neither does listing a call. -/
theorem addCall (r : Report α) (name : String) : r.Within (r.addCall name) := by
  rw [Report.addCall]
  split
  · exact .refl r
  · exact ⟨Nat.le_refl _, List.subset_append_left _ _, List.prefix_refl _⟩

end Report.Within

namespace Check

/-! ### Reports grow -/

/-- The report is the same on both sides, and it has gone on from the given one. -/
def From (start r ρ : Report α) : Prop :=
  r = ρ ∧ start.Within r

/-- The step takes nothing back, whatever has been reported before. -/
def Grows (x : CheckM α β) : Prop :=
  ∀ start, CheckComparison.successful.Related (From start) (From start) Eq x x

variable {start : Report α} {x : CheckM α β}

/-- The same is added on both sides. -/
private theorem From.change {r ρ : Report α} (h : From start r ρ) (change : Report α → Report α)
    (hc : r.Within (change r)) : From start (change r) (change ρ) :=
  ⟨congrArg change h.1, h.2.trans hc⟩

theorem From.countOp {r ρ : Report α} (h : From start r ρ) : From start r.countOp ρ.countOp :=
  h.change _ (.countOp r)

theorem From.warn {r ρ : Report α} (h : From start r ρ) (w : Warning α) :
    From start (r.warn w) (ρ.warn w) :=
  h.change (·.warn w) (.warn r w)

theorem From.addCall {r ρ : Report α} (h : From start r ρ) (name : String) :
    From start (r.addCall name) (ρ.addCall name) :=
  h.change (·.addCall name) (.addCall r name)

/-- What adds to a report takes nothing back. -/
theorem Grows.record {change : Report α → Report α} (h : ∀ r : Report α, r.Within (change r)) :
    Grows (record change) :=
  fun _ => (CheckComparison.Related.record fun r _ hr => hr.change change (h r)).imp
    fun _ _ _ => rfl

/-- A step that takes nothing back goes on from the report at which it is started. -/
theorem Grows.within (h : Grows x) {r r' : Report α} {b : β} (hx : x r = .ok (b, r')) :
    r.Within r' := by
  have hends := h r r r ⟨rfl, .refl r⟩
  rw [hx] at hends
  cases hends with
  | ok _ hr => exact hr.2

/-- Two steps take nothing back if neither does. -/
theorem Grows.bind {f : β → CheckM α γ} (h : Grows x) (hf : ∀ b, Grows (f b)) :
    Grows (x >>= f) :=
  fun start => (h start).bind fun b _ hb => hb ▸ hf b start

section

variable (allowed : Option (List String))

/-- All steps of a check take nothing back. -/
def growthWalk (start : Report α) : Walk (.successful : CheckComparison α α) where
  left := allowed
  right := allowed
  labels := Eq
  site _ _ := True
  frames _ _ := True
  reports _ := From start
  site_inside _ _ := trivial
  frames_scope _ _ := trivial
  frames_params _ _ := trivial
  count _ h := h.countOp
  call := by
    rintro os ss a _ n args s fr fr' - - - hlike rfl
    refine .bind (.record fun _ _ h => h.countOp) fun _ _ _ => ?_
    exact CheckComparison.related_checkCall_of_eq hlike (fun _ _ _ _ h => h)
      (fun _ _ _ _ h => h.addCall s) (fun _ _ _ _ h => h.warn _) (fun _ _ => .inl trivial)
      (.inl trivial)
  warn := by
    rintro _ _ r ρ w - rfl h
    rw [w.map_node]
    exact h.warn w
  error _ _ _ := CheckComparison.successful_accepts

variable {allowed} {frames : List StaticFrame} {node : α} {es : List (Expr α)}

private theorem growthWalk_paired (e : Expr α) : (growthWalk allowed start).Paired e e :=
  Walk.paired_self (fun _ => rfl) e

private theorem growthWalk_pairedAll (es : List (Expr α)) :
    List.Forall₂ (growthWalk allowed start).Paired es es :=
  List.forall₂_same.2 fun e _ => growthWalk_paired e

private theorem growthWalk_site (e : Expr α) : (growthWalk allowed start).site [] e := trivial

/-- A step without a value takes nothing back if its reports are related. -/
private theorem grows_of_related {x : CheckM α Unit} (h : ∀ start,
    CheckComparison.successful.Related (From start) (From start) (fun _ _ => True) x x) :
    Grows x :=
  fun start => (h start).imp fun _ _ _ => rfl

/-- The check of an expression takes nothing back. -/
theorem grows_check (frames : List StaticFrame) (e : Expr α) : Grows (check allowed frames e) :=
  grows_of_related fun _ =>
    (growthWalk_paired e).node (growthWalk_site e) trivial (.refl frames) []

/-- Nor does that of several expressions. -/
theorem grows_checkAll (frames : List StaticFrame) (es : List (Expr α)) :
    Grows (checkAll allowed frames es) :=
  grows_of_related fun _ => Walk.related_checkAll (growthWalk_pairedAll es)
    (fun e _ => growthWalk_site e) trivial (.refl frames) []

private theorem grows_checkTail : Grows (checkTail allowed frames es) :=
  grows_of_related fun _ => Walk.related_checkTail (growthWalk_pairedAll es)
    (fun e _ => growthWalk_site e) trivial (.refl frames) []

private theorem grows_checkLast : Grows (checkLast allowed frames es) :=
  grows_of_related fun _ => Walk.related_checkLast (growthWalk_pairedAll es)
    (fun e _ => growthWalk_site e) trivial (.refl frames) []

private theorem grows_checkLambdas : Grows (checkLambdas allowed frames es) :=
  grows_of_related fun _ => Walk.related_checkLambdas trivial (.refl frames)
    (growthWalk_pairedAll es) (fun _ _ _ x _ => growthWalk_site x) []

private theorem related_checkBindings (frame : StaticFrame) :
    CheckComparison.successful.Related (From start) (From start)
      (fun s t => s = t ∧ frame.DeclaresAll (bindings es) s)
      (checkBindings allowed frames node frame es) (checkBindings allowed frames node frame es) :=
  Walk.related_checkBindings rfl (growthWalk_site (.op node .scope es)) trivial (.refl frames)
    (growthWalk_pairedAll es) rfl (List.Subset.refl _) []

private theorem grows_checkBindings (frame : StaticFrame) :
    Grows (checkBindings allowed frames node frame es) :=
  fun _ => (related_checkBindings frame).imp fun _ _ h => h.1

/-- One binding stands for a scope that has it. -/
private theorem related_declare (frame : StaticFrame) (name : Option String) (v : Expr α) :
    CheckComparison.successful.Related (From start) (From start)
      (fun s t => s = t ∧ frame.Declares name v s ∧ Declarable v)
      (declare node frame name v (check allowed frames v))
      (declare node frame name v (check allowed frames v)) :=
  Walk.related_declare (growthWalk_paired v) name rfl (growthWalk_site (.op node .scope [v, v]))
    List.mem_cons_self trivial (.refl frames) []

private theorem grows_checkCall (args : Nat) :
    ∀ name, Grows (checkCall allowed frames node args name)
  | none => fun _ => .pure rfl fun _ _ h => h
  | some name => fun _ =>
    (CheckComparison.related_checkCall_of_eq (.refl frames) (fun _ _ _ _ h => h)
      (fun _ _ _ _ h => h.addCall name) (fun _ _ _ _ h => h.warn _) (fun _ _ => .inl trivial)
      (.inl trivial)).imp fun _ _ _ => rfl

private theorem grows_checkLookup (name : Option String) :
    Grows (checkLookup frames node name) := fun _ =>
  (CheckComparison.related_checkLookup (.refl frames) name (fun _ _ _ h => h.warn _)
    fun _ => .inl trivial).imp fun _ _ _ => rfl

end

/-! ### Acceptance -/

/-- The step succeeds at some report, and all that has been recorded by then is in `ρ`. -/
def Accepted (ρ : Report α) (x : CheckM α β) (b : β) : Prop :=
  ∃ r r', x r = .ok (b, r') ∧ r'.Within ρ

namespace Accepted

variable {ρ : Report α} {b c : β} {x : CheckM α β}

/-- Two steps are accepted one after the other. -/
theorem bind {f : β → CheckM α γ} {c : γ} (h : Accepted ρ (x >>= f) c) (hf : ∀ b, Grows (f b)) :
    ∃ b, Accepted ρ x b ∧ Accepted ρ (f b) c := by
  obtain ⟨r, r', hr, hw⟩ := h
  change (x r >>= fun p => f p.1 p.2) = .ok (c, r') at hr
  cases hx : x r with
  | error err =>
    rw [hx] at hr
    cases hr
  | ok p =>
    rw [hx] at hr
    exact ⟨p.1, ⟨r, p.2, hx, ((hf p.1).within hr).trans hw⟩, p.2, r', hr, hw⟩

/-- What is known of the value of a step is true of an accepted one. -/
theorem value {V : β → β → Prop} (h : Accepted ρ x b)
    (hx : ∀ start, CheckComparison.successful.Related (From start) (From start) V x x) : V b b := by
  obtain ⟨r, r', hr, -⟩ := h
  have hends := hx r r r ⟨rfl, .refl r⟩
  rw [hr] at hends
  cases hends with
  | ok hv _ => exact hv

/-- A value without effect is accepted as it is. -/
theorem eq_of_pure (h : Accepted ρ (pure b) c) : b = c := by
  obtain ⟨r, r', hr, -⟩ := h
  cases hr
  rfl

/-- A failure is not accepted. -/
theorem false_of_throw {err : EvalError α} (h : Accepted ρ (throw err : CheckM α β) b) : False := by
  obtain ⟨r, r', hr, -⟩ := h
  cases hr

/-- A warning has been recorded. -/
theorem mem_warnings {warning : Warning α} {u : Unit}
    (h : Accepted ρ (record (·.warn warning)) u) : warning ∈ ρ.warnings := by
  obtain ⟨r, r', hr, hw⟩ := h
  cases hr
  exact hw.warnings.subset (List.mem_append_right _ List.mem_cons_self)

/-- A call has been listed. -/
theorem mem_calls {name : String} {u : Unit} (h : Accepted ρ (record (·.addCall name)) u) :
    name ∈ ρ.calls := by
  obtain ⟨r, r', hr, hw⟩ := h
  cases hr
  refine hw.calls ?_
  change name ∈ (r.addCall name).calls
  unfold Report.addCall
  split
  · assumption
  · exact List.mem_append_right _ List.mem_cons_self

variable {frames : List StaticFrame} {node : α} {allowed : Option (List String)}
  {code : Operator} {e n v : Expr α} {es args rest : List (Expr α)} {frame last : StaticFrame}
  {visit : CheckM α Unit} {name : Option String} {u : Unit}

/-! ### Names -/

/-- A name is spelled by a literal, or it is computed and there is a warning. -/
theorem of_nameOf (h : Accepted ρ (nameOf node code e visit) name) :
    (∃ s, e.name? = some s ∧ name = some s) ∨
      e.name? = none ∧ name = none ∧ Accepted ρ visit () ∧
        .dynamicName node code ∈ ρ.warnings := by
  unfold nameOf at h
  split at h
  · exact .inl ⟨_, rfl, h.eq_of_pure.symm⟩
  · exact h.false_of_throw.elim
  · have hpure : Grows (pure none : CheckM α (Option String)) :=
      fun _ => .pure rfl fun _ _ h => h
    have hwarn : Grows (record (α := α) (·.warn (.dynamicName node code))) :=
      .record fun r => .warn r _
    obtain ⟨_, hv, h⟩ := h.bind fun _ => hwarn.bind fun _ => hpure
    obtain ⟨_, hw, h⟩ := h.bind fun _ => hpure
    exact .inr ⟨rfl, h.eq_of_pure.symm, hv, hw.mem_warnings⟩

/-- An operand that stands for a name is accepted itself. A literal is accepted everywhere. -/
theorem of_nameOf_check (h : Accepted ρ (nameOf node code n (check allowed frames n)) name) :
    Accepted ρ (check allowed frames n) () := by
  rcases h.of_nameOf with ⟨s, hs, -⟩ | ⟨-, -, hv, -⟩
  · cases n with
    | lit => exact ⟨ρ, ρ, rfl, .refl ρ⟩
    | op => cases hs
  · exact hv

/-! ### Nodes -/

/-- The number of operands is accepted, and what is checked then. -/
private theorem of_node {err : EvalError α} {accepts : Bool} {x : CheckM α Unit}
    (h : Accepted ρ (record Report.countOp >>= fun _ => if accepts then x else throw err) u) :
    accepts ∧ Accepted ρ x () := by
  obtain ⟨r, r', hr, hw⟩ := h
  change (if accepts then x else throw err) r.countOp = .ok (u, r') at hr
  cases accepts with
  | true => exact ⟨rfl, r.countOp, r', hr, hw⟩
  | false => cases hr

/-- Each of several expressions is accepted. -/
theorem of_checkAll (h : Accepted ρ (checkAll allowed frames es) u) :
    ∀ e ∈ es, Accepted ρ (check allowed frames e) () := by
  induction es with
  | nil => nofun
  | cons e es ih =>
    obtain ⟨_, he, hes⟩ := h.bind fun _ => grows_checkAll frames es
    exact List.forall_mem_cons.2 ⟨he, ih hes⟩

/-- The operands of a plain operator are checked in the same scopes. -/
theorem of_plain (h : Accepted ρ (check allowed frames (.op node code es)) u)
    (hp : code.isPlain) :
    code.arity.accepts es.length ∧ ∀ e ∈ es, Accepted ρ (check allowed frames e) () := by
  rw [check_of_isPlain hp] at h
  obtain ⟨ha, h⟩ := of_node h
  exact ⟨ha, h.of_checkAll⟩

/-- A lambda that no scope declares is refused. -/
theorem false_of_lambda (h : Accepted ρ (check allowed frames (.op node .lambda es)) u) : False :=
  (of_node h).2.false_of_throw

/-- A lambda node is accepted nowhere. -/
theorem isLambda_eq_false (h : Accepted ρ (check allowed frames e) ()) : e.isLambda = false := by
  cases e with
  | lit => rfl
  | op a code es =>
    by_cases hc : code = .lambda
    · subst hc
      exact h.false_of_lambda.elim
    · exact Expr.isLambda_op_of_ne hc a es

/-- A lookup has one operand, its name, which refers to something. -/
theorem of_lookup (h : Accepted ρ (check allowed frames (.op node .lookup es)) u) :
    ∃ e name, es = [e] ∧ Accepted ρ (nameOf node .lookup e (check allowed frames e)) name ∧
      Accepted ρ (checkLookup frames node name) () := by
  obtain ⟨ha, h⟩ := of_node h
  obtain ⟨e, rfl⟩ := List.length_eq_one_iff.1 (beq_iff_eq.1 ha)
  obtain ⟨name, hn, hl⟩ := h.bind fun _ => grows_checkLookup _
  exact ⟨e, name, rfl, hn, hl⟩

/-- A call has a name, which may be called, and arguments. -/
theorem of_call (h : Accepted ρ (check allowed frames (.op node .call es)) u) :
    ∃ n args name, es = n :: args ∧
      Accepted ρ (nameOf node .call n (check allowed frames n)) name ∧
        Accepted ρ (checkCall allowed frames node args.length name) () ∧
          ∀ e ∈ args, Accepted ρ (check allowed frames e) () := by
  obtain ⟨ha, h⟩ := of_node h
  obtain ⟨name, hn, h⟩ := h.bind fun _ => (grows_checkCall _ _).bind fun _ => grows_checkTail
  obtain ⟨_, hc, h⟩ := h.bind fun _ => grows_checkTail
  cases es with
  | nil => cases ha
  | cons n args => exact ⟨n, args, name, rfl, hn, hc, of_checkAll h⟩

/-- A scope has bindings, which make a frame, and a body. The lambdas and the body are checked
inside of the frame. -/
theorem of_scope (h : Accepted ρ (check allowed frames (.op node .scope es)) u) :
    es.length % 2 = 1 ∧ ∃ frame, Accepted ρ (checkBindings allowed frames node .empty es) frame ∧
      Accepted ρ (checkLambdas allowed (frame :: frames) es) () ∧
        Accepted ρ (checkLast allowed (frame :: frames) es) () := by
  obtain ⟨ha, h⟩ := of_node h
  obtain ⟨frame, hb, h⟩ := h.bind fun _ => grows_checkLambdas.bind fun _ => grows_checkLast
  obtain ⟨_, hl, hlast⟩ := h.bind fun _ => grows_checkLast
  exact ⟨beq_iff_eq.1 ha, frame, hb, hl, hlast⟩

/-- An accepted operator has an accepted number of operands. -/
theorem of_arity (h : Accepted ρ (check allowed frames (.op node code es)) u) :
    code.arity.accepts es.length := by
  rcases code.isPlain_or with hp | rfl | rfl | rfl | rfl
  · exact (h.of_plain hp).1
  · obtain ⟨n, args, _, rfl, -⟩ := h.of_call
    exact decide_eq_true (Nat.le_add_left 1 args.length)
  · obtain ⟨e, _, rfl, -⟩ := h.of_lookup
    rfl
  · exact beq_iff_eq.2 h.of_scope.1
  · exact h.false_of_lambda.elim

/-- The operands of other operators than scopes and lambdas are accepted in the same scopes. -/
theorem of_operand (h : Accepted ρ (check allowed frames (.op node code es)) u)
    (hscope : code ≠ .scope) (he : e ∈ es) : Accepted ρ (check allowed frames e) () := by
  rcases code.isPlain_or with hp | rfl | rfl | rfl | rfl
  · exact (h.of_plain hp).2 e he
  · obtain ⟨n, args, _, rfl, hn, -, hargs⟩ := h.of_call
    rcases List.mem_cons.1 he with rfl | he
    · exact hn.of_nameOf_check
    · exact hargs e he
  · obtain ⟨n, _, rfl, hn, -⟩ := h.of_lookup
    obtain rfl := List.mem_singleton.1 he
    exact hn.of_nameOf_check
  · exact absurd rfl hscope
  · exact h.false_of_lambda.elim

/-! ### Bindings -/

/-- A binding is a name and a value, and it is followed by the others. -/
theorem of_binding
    (h : Accepted ρ (checkBindings allowed frames node frame (n :: v :: rest)) last) :
    ∃ name frame', Accepted ρ (nameOf node .scope n (check allowed frames n)) name ∧
      Accepted ρ (declare node frame name v (check allowed frames v)) frame' ∧
        Accepted ρ (checkBindings allowed frames node frame' rest) last := by
  have hdeclare (name : Option String) :
      Grows (declare node frame name v (check allowed frames v)) :=
    fun _ => (related_declare frame name v).imp fun _ _ h => h.1
  obtain ⟨name, hn, h⟩ := h.bind fun name =>
    (hdeclare name).bind fun next => grows_checkBindings next
  obtain ⟨frame', hd, h⟩ := h.bind fun next => grows_checkBindings next
  exact ⟨name, frame', hn, hd, h⟩

/-- A name that is spelled is new to the frame, and a lambda is well-formed. -/
theorem of_declare
    (h : Accepted ρ (declare node frame name v (check allowed frames v)) last) :
    frame.Declares name v last ∧ Declarable v :=
  (h.value fun _ => related_declare frame name v).2

/-- A value that is not a lambda is accepted itself. -/
theorem of_declare_constant
    (h : Accepted ρ (declare node frame name v (check allowed frames v)) last)
    (hv : v.isLambda = false) : Accepted ρ (check allowed frames v) () := by
  rw [declare_of_isLambda_eq_false hv] at h
  obtain ⟨_, hvisit, -⟩ := h.bind fun _ _ =>
    (CheckComparison.related_declared (V := fun _ _ => True) (fun _ => .inl trivial) trivial
      fun _ _ => trivial).imp fun _ _ h => h.1
  exact hvisit

/-- The names of bindings are accepted, and so are the values that are not lambdas. -/
theorem of_checkBindings : ∀ {es : List (Expr α)} {frame : StaticFrame},
    Accepted ρ (checkBindings allowed frames node frame es) last →
      ∀ n v, (n, v) ∈ bindings es → Accepted ρ (check allowed frames n) () ∧
        (v.isLambda = false → Accepted ρ (check allowed frames v) ())
  | [], _, _ | [_], _, _ => nofun
  | n :: v :: rest, frame, h => by
    obtain ⟨name, frame', hn, hd, hrest⟩ := h.of_binding
    exact forall_bindings_cons.2
      ⟨⟨hn.of_nameOf_check, hd.of_declare_constant⟩, hrest.of_checkBindings⟩

/-- The frame of a scope is what its bindings make of the empty one. -/
theorem declaresAll (h : Accepted ρ (checkBindings allowed frames node frame es) last) :
    frame.DeclaresAll (bindings es) last :=
  (h.value fun _ => related_checkBindings frame).2

private theorem of_checkLast (h : Accepted ρ (checkLast allowed frames (args ++ [e])) u) :
    Accepted ρ (check allowed frames e) () := by
  induction args with
  | nil => exact h
  | cons a args ih =>
    cases args with
    | nil => exact h
    | cons b args => exact ih h

/-- The last operand of a scope is checked inside of it. -/
theorem of_checkLast_of_suffix (h : Accepted ρ (checkLast allowed frames es) u)
    (hs : [e] <:+ es) : Accepted ρ (check allowed frames e) () := by
  obtain ⟨args, rfl⟩ := hs
  exact h.of_checkLast

/-- The body of a lambda that a scope declares is checked below its parameters. -/
theorem of_checkLambdas {label : α} {ps : List (Expr α)} {l : Lambda α}
    (h : Accepted ρ (checkLambdas allowed frames (n :: .op label .lambda ps :: rest)) u)
    (hl : Lambda.declare label ps = .ok l) :
    Accepted ρ (check allowed (.ofParams l.params :: frames) l.body) () := by
  obtain ⟨_, hb, -⟩ := h.bind fun _ => grows_checkLambdas
  obtain ⟨-, -, -, qs, rfl, hqs⟩ := Lambda.declare_eq_ok hl
  -- the check reads the names off the operands, which all spell one
  have hparams : (qs ++ [l.body]).dropLast.filterMap Expr.name? = l.params := by
    rw [List.dropLast_concat]
    calc qs.filterMap Expr.name? = (qs.map Expr.name?).filterMap id := by
          rw [List.filterMap_map]
          rfl
      _ = (l.params.map some).filterMap id := by rw [hqs]
      _ = l.params := by
          rw [List.filterMap_map]
          exact List.filterMap_some
  have hlast :
      Accepted ρ (checkLast allowed (.ofParams l.params :: frames) (qs ++ [l.body])) () := by
    rw [← hparams]
    exact hb
  exact hlast.of_checkLast

/-- The lambdas of the remaining bindings are accepted too. -/
theorem of_checkLambdas_tail (h : Accepted ρ (checkLambdas allowed frames (n :: v :: rest)) u) :
    Accepted ρ (checkLambdas allowed frames rest) () := by
  obtain ⟨_, -, h⟩ := h.bind fun _ => grows_checkLambdas
  exact h

/-- The bodies of the lambdas that bindings declare are accepted below some parameters. -/
theorem of_mem_checkLambdas : ∀ {es : List (Expr α)},
    Accepted ρ (checkLambdas allowed frames es) u →
      ∀ n v, (n, v) ∈ bindings es → ∀ body, v.lambdaBody? = some body →
        ∃ params, Accepted ρ (check allowed (.ofParams params :: frames) body) ()
  | [], _ | [_], _ => nofun
  | n :: v :: rest, h => by
    obtain ⟨_, hv, hrest⟩ := h.bind fun _ => grows_checkLambdas
    refine forall_bindings_cons.2 ⟨fun body hbody => ?_, hrest.of_mem_checkLambdas⟩
    match v, hbody with
    | .op _ .lambda ps, hbody =>
      obtain ⟨qs, rfl⟩ := List.getLast?_eq_some_iff.1 hbody
      exact ⟨_, of_checkLast_of_suffix hv (List.suffix_append qs [body])⟩

end Accepted

end Check

/-- A check of a whole expression begins outside of all scopes, with nothing reported. -/
theorem Expr.check_eq_ok {e : Expr α} {allowed : Option (List String)}
    {r : Report α} : e.check allowed = .ok r ↔ Check.check allowed [] e .empty = .ok ((), r) := by
  change (Check.check allowed [] e .empty >>= fun p => Except.ok p.2) = .ok r ↔ _
  cases hc : Check.check allowed [] e .empty with
  | error err => exact ⟨nofun, nofun⟩
  | ok p => exact ⟨fun h => by cases h; rfl, fun h => by cases h; rfl⟩

/-- A check of a whole expression accepts it outside of all scopes. -/
theorem Check.accepted_of_check {e : Expr α} {allowed : Option (List String)} {r : Report α}
    (h : e.check allowed = .ok r) : Accepted r (check allowed [] e) () :=
  ⟨.empty, r, Expr.check_eq_ok.1 h, .refl r⟩

end OpTree
