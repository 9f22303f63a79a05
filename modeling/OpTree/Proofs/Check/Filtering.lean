import OpTree.Proofs.Check.Acceptance

/-!
# An allow-list only filters

A check with an allow-list goes the same way as a check without one. Only at a call that surely is
a host call, since no enclosing scope declares a lambda of its name or has computed names
(`Undeclared`), does it stop if the name is not on the list. Where it goes on, the calls off the
list are missing from its report, and it warns of those that may yet turn out to be lambdas.

If all host calls of an expression (`CallsHost`) are on the list, then the two checks of it fail or
succeed alike; that is a walk along both (`Check.filteringWalk`). If the check with the list
accepts, then they are on the list, since it has met every one of them (`Check.allows_of_accepted`).

Main statement: `Expr.check_some_iff`.
-/

namespace OpTree

open List

variable {α : Type}

/-! ### Calls and the scopes they stand in -/

/-- The binding has a literal name, and is no lambda of the given name. -/
def Misses (name : String) (n v : Expr α) : Prop :=
  ∃ s, n.name? = some s ∧ (v.isLambda → s ≠ name)

/-- The scopes have no computed names and no lambda of the given name. -/
def Undeclared (name : String) (ss : List (List (Expr α))) : Prop :=
  ∀ es ∈ ss, ∀ n v, (n, v) ∈ bindings es → Misses name n v

/-- There is a call with that literal name in the expression that cannot be to a lambda. -/
def CallsHost (ss : List (List (Expr α))) (e : Expr α) (name : String) : Prop :=
  ∃ ss' a n args, Inside ss e ss' (.op a .call (n :: args)) ∧ n.name? = some name ∧
    Undeclared name ss'

/-- All host calls of the expression are on the list. -/
def Allows (A : List String) (ss : List (List (Expr α))) (e : Expr α) : Prop :=
  ∀ name, CallsHost ss e name → name ∈ A

/-- The host calls of a part are among those of the whole. -/
theorem Allows.inside {A : List String} {ss ss' : List (List (Expr α))} {e x : Expr α}
    (hin : Inside ss e ss' x) (h : Allows A ss e) : Allows A ss' x := by
  rintro name ⟨ss'', a, n, args, hcall, hname⟩
  exact h name ⟨ss'', a, n, args, hin.trans hcall, hname⟩

/-! ### Reports side by side -/

/-- What the check with an allow-list reports, compared with what the check without one does. -/
structure Report.Filtered (A : List String) (r r' : Report α) : Prop where
  opCount : r'.opCount = r.opCount
  calls : r'.calls = r.calls.filter (· ∈ A)
  warnings : r'.warnings.filter (·.kind ≠ "UnresolvedCall") = r.warnings

namespace Report.Filtered

variable {A : List String} {r r' : Report α} {name : String}

/-- An operator is counted by both checks. -/
theorem countOp (h : r.Filtered A r') : r.countOp.Filtered A r'.countOp :=
  ⟨congrArg (· + 1) h.opCount, h.calls, h.warnings⟩

/-- A warning that has nothing to do with calls is given by both checks. -/
theorem warn (h : r.Filtered A r') {w : Warning α} (hw : w.kind ≠ "UnresolvedCall") :
    (r.warn w).Filtered A (r'.warn w) := by
  refine ⟨h.opCount, h.calls, ?_⟩
  simp only [Report.warn, filter_append, h.warnings, filter_singleton, decide_eq_true hw,
    cond_true]

/-- A call on the list is listed by both checks, unless both have listed it before. -/
theorem addCall (h : r.Filtered A r') (hname : name ∈ A) :
    (r.addCall name).Filtered A (r'.addCall name) := by
  have hmem : name ∈ r'.calls ↔ name ∈ r.calls := by
    rw [h.calls, mem_filter, decide_eq_true hname]
    exact and_iff_left rfl
  by_cases hr : name ∈ r.calls
  · simp only [Report.addCall, hr, hmem.2 hr, if_true]
    exact h
  · simp only [Report.addCall, hr, mt hmem.1 hr, if_false]
    refine ⟨h.opCount, ?_, h.warnings⟩
    simp only [filter_append, h.calls, filter_singleton, decide_eq_true hname, cond_true]

/-- A call off the list is listed by the one check, and the other warns of it. -/
theorem addCall_of_notMem (h : r.Filtered A r') {a : α} (hname : name ∉ A) :
    (r.addCall name).Filtered A (r'.warn (.unresolvedCall a name)) := by
  have hkind : (Warning.unresolvedCall a name).kind = "UnresolvedCall" := rfl
  have hwarned : r.Filtered A (r'.warn (.unresolvedCall a name)) :=
    ⟨h.opCount, h.calls, by rw [← h.warnings]; simp [Report.warn, hkind]⟩
  by_cases hr : name ∈ r.calls
  · simp only [Report.addCall, hr, if_true]
    exact hwarned
  · simp only [Report.addCall, hr, if_false]
    exact ⟨hwarned.opCount, by simp [hwarned.calls, hname], hwarned.warnings⟩

end Report.Filtered

namespace Check

/-! ### Static frames -/

/-- The frame has no computed names and no lambda of the given name. -/
def StaticFrame.Misses (name : String) (frame : StaticFrame) : Prop :=
  frame.lambdas.lookup name = none ∧ frame.dynamic = false

/-- The frames are those of the scopes, as far as host calls go. Between them may stand the frames
of parameters. -/
def Agree (frames : List StaticFrame) (ss : List (List (Expr α))) : Prop :=
  ∀ name, (∀ frame ∈ frames, frame.Misses name) ↔ Undeclared name ss

section

variable {A : List String} {frames : List StaticFrame} {frame next last : StaticFrame}
  {ss ss' : List (List (Expr α))} {a : α} {n v e x : Expr α} {es : List (Expr α)} {name : String}

private theorem standing_eq_undeclared (frames : List StaticFrame) (name : String) :
    standing (fun frame => frame.lambdas.lookup name) frames = .undeclared ↔
      ∀ frame ∈ frames, frame.Misses name := by
  induction frames with
  | nil => simp [standing]
  | cons frame frames ih =>
    rw [standing, forall_mem_cons, StaticFrame.Misses, ← ih]
    cases hfind : frame.lambdas.lookup name with
    | some k => simp
    | none => cases hdynamic : frame.dynamic <;> simp

/-- A name that is computed is never missed again, and one that is spelled is missed but by a lambda
of that name. -/
theorem StaticFrame.Declares.misses_iff (h : frame.Declares n.name? v next) :
    next.Misses name ↔ frame.Misses name ∧ OpTree.Misses name n v := by
  unfold OpTree.Misses
  cases hn : n.name? with
  | none =>
    rw [hn] at h
    cases h
    simp [Misses]
  | some s =>
    rw [hn] at h
    cases h with
    | constant hv => simp [Misses, hv]
    | @lambda _ _ _ l =>
      by_cases hs : name = s
      · simp [Misses, hs, Expr.isLambda]
      · simp [Misses, lookup_cons, beq_eq_false_iff_ne.2 hs, Ne.symm hs]

/-- A frame misses a name after some bindings if it did before and they do. -/
theorem StaticFrame.DeclaresAll.misses_iff {bs : List (Expr α × Expr α)}
    (h : frame.DeclaresAll bs last) :
    last.Misses name ↔ frame.Misses name ∧ ∀ n v, (n, v) ∈ bs → OpTree.Misses name n v := by
  induction h with
  | nil => simp
  | @cons frame next last n v bs hdeclares _ _ ih =>
    have hall : (∀ n' v', (n', v') ∈ (n, v) :: bs → OpTree.Misses name n' v') ↔
        OpTree.Misses name n v ∧ ∀ n' v', (n', v') ∈ bs → OpTree.Misses name n' v' := by
      simp [or_imp, forall_and]
    rw [ih, hdeclares.misses_iff, hall, and_assoc]

namespace Agree

/-- Outside of all scopes there are no frames. -/
theorem nil : Agree [] ([] : List (List (Expr α))) := by
  intro name
  simp [Undeclared]

/-- The frame that the bindings of a scope make is the one of the scope. -/
theorem scope (h : Agree frames ss) (hframe : StaticFrame.empty.DeclaresAll (bindings es) frame) :
    Agree (frame :: frames) (es :: ss) := by
  intro name
  have hempty : StaticFrame.Misses name .empty := ⟨rfl, rfl⟩
  rw [forall_mem_cons, h name, hframe.misses_iff, and_iff_right hempty]
  exact (forall_mem_cons (p := fun es => ∀ n v, (n, v) ∈ bindings es → Misses name n v)).symm

/-- Parameters declare no lambdas. -/
theorem params (h : Agree frames ss) (ps : List String) : Agree (.ofParams ps :: frames) ss := by
  intro name
  rw [forall_mem_cons, h name]
  exact and_iff_right ⟨rfl, rfl⟩

/-- A name that surely refers to no lambda is declared by no scope. -/
theorem undeclared_iff (h : Agree frames ss) :
    standing (fun frame => frame.lambdas.lookup name) frames = .undeclared ↔ Undeclared name ss :=
  (standing_eq_undeclared frames name).trans (h name)

end Agree

/-! ### What the check with the list has met -/

/-- All that is inside of an accepted expression is accepted, in the frames of its scopes. -/
theorem Accepted.of_inside {ρ : Report α} {allowed : Option (List String)}
    (h : Accepted ρ (check allowed frames e) ()) (hin : Inside ss e ss' x)
    (hss : Agree frames ss) :
    ∃ frames', Agree frames' ss' ∧ Accepted ρ (check allowed frames' x) () := by
  induction hin generalizing frames with
  | here => exact ⟨frames, hss, h⟩
  | operand hscope _ hmem _ ih => exact ih (h.of_operand hscope hmem) hss
  | name hmem _ ih =>
    obtain ⟨-, frame, hb, -, -⟩ := h.of_scope
    exact ih (hb.of_checkBindings _ _ hmem).1 hss
  | value hmem hv _ ih =>
    obtain ⟨-, frame, hb, -, -⟩ := h.of_scope
    exact ih ((hb.of_checkBindings _ _ hmem).2 hv) hss
  | lambda hmem hbody _ ih =>
    obtain ⟨-, frame, hb, hl, -⟩ := h.of_scope
    obtain ⟨params, hx⟩ := hl.of_mem_checkLambdas _ _ hmem _ hbody
    exact ih hx ((hss.scope hb.declaresAll).params params)
  | @body _ _ _ body _ _ hbody _ ih =>
    obtain ⟨-, frame, hb, -, hlast⟩ := h.of_scope
    obtain ⟨qs, rfl⟩ := getLast?_eq_some_iff.1 hbody
    exact ih (hlast.of_checkLast_of_suffix (suffix_append qs [body])) (hss.scope hb.declaresAll)

/-- An accepted call that surely is a host call is on the list. -/
private theorem mem_of_accepted {ρ : Report α} {u : Unit} {args : Nat}
    (h : Accepted ρ (checkCall (some A) frames a args (some name)) u)
    (hname : standing (fun frame => frame.lambdas.lookup name) frames = .undeclared) :
    name ∈ A := by
  rw [checkCall, hname] at h
  by_contra hA
  dsimp only at h
  rw [if_neg (by simpa using hA)] at h
  exact h.false_of_throw

/-- If the check with a list accepts an expression, then all of its host calls are on the list. -/
theorem allows_of_accepted {ρ : Report α} (h : Accepted ρ (check (some A) frames e) ())
    (hss : Agree frames ss) : Allows A ss e := by
  rintro name ⟨ss', a, n, args, hin, hname, hundeclared⟩
  obtain ⟨frames', hss', hcall⟩ := h.of_inside hin hss
  obtain ⟨_, _, known, heq, hn, hc, -⟩ := hcall.of_call
  cases heq
  rcases hn.of_nameOf with ⟨s, hs, rfl⟩ | ⟨hnone, -⟩
  · obtain rfl := Option.some.inj (hs.symm.trans hname)
    exact mem_of_accepted hc (hss'.undeclared_iff.2 hundeclared)
  · rw [hnone] at hname
    cases hname

end

/-! ### The two checks side by side -/

/-- Two checks that fail or succeed alike. -/
def filtering : CheckComparison α α where
  waives _ := False
  blames _ _ := True

/-- The check without a list beside the one with a list that has all host calls. -/
def filteringWalk (A : List String) : Walk (filtering (α := α)) where
  left := none
  right := some A
  labels := Eq
  site := Allows A
  frames ss fr := Agree fr ss
  reports _ := Report.Filtered A
  site_inside := Allows.inside
  frames_scope := Agree.scope
  frames_params ps h := h.params ps
  count _ h := h.countOp
  call := by
    rintro os ss a _ n args s fr fr' hsite hname hss hlike rfl
    have hnone : Option.all (fun A : List String => decide (s ∈ A)) none = true := rfl
    refine .bind (.record fun _ _ h => h.countOp) fun _ _ _ => ?_
    -- two cases: the name surely refers to no lambda, or a computed name may have declared one
    refine CheckComparison.related_checkCall hlike (fun _ _ _ _ h => h)
      (fun _ _ => .inr trivial) (fun hs => ?_) fun _ => ?_
    · have hA : s ∈ A := hsite s ⟨ss, a, n, args, .here, hname, hss.undeclared_iff.1 hs⟩
      have hsome : Option.all (fun A : List String => decide (s ∈ A)) (some A) = true :=
        decide_eq_true hA
      rw [if_pos hnone, if_pos hsome]
      exact .record fun _ _ h => h.addCall hA
    · rw [if_pos hnone]
      split
      · rename_i hA
        exact .record fun _ _ h => h.addCall (of_decide_eq_true hA)
      · rename_i hA
        exact .record fun _ _ h => h.addCall_of_notMem fun h => hA (decide_eq_true h)
  warn := by
    rintro _ _ r ρ w hw rfl h
    rw [w.map_node]
    exact h.warn hw
  error _ _ _ := .inr trivial

end Check

open Check in
/-- **An allow-list only filters.** A check with an allow-list succeeds just if the check without
one does and all host calls are on the list: the literal names of calls of which no enclosing scope
declares a lambda, where no enclosing scope has computed names. The report has the same number of
operators and of the calls those that are on the list, in the same order. Its warnings are the same
but for those of unresolved calls. -/
theorem Expr.check_some_iff (e : Expr α) (A : List String) :
    ((∃ r', e.check (some A) = .ok r') ↔
      (∃ r, e.check none = .ok r) ∧ ∀ name, CallsHost [] e name → name ∈ A) ∧
    ∀ r r', e.check none = .ok r → e.check (some A) = .ok r' →
      r'.opCount = r.opCount ∧ r'.calls = r.calls.filter (· ∈ A) ∧
        r'.warnings.filter (·.kind ≠ "UnresolvedCall") = r.warnings := by
  -- a check with the list that succeeds has found all host calls on it
  have hallows {r' : Report α} (h : Check.check (some A) [] e .empty = .ok ((), r')) :
      Allows A [] e := allows_of_accepted ⟨.empty, r', h, .refl r'⟩ .nil
  have hends (hA : Allows A [] e) :
      filtering.Agree (fun _ _ => True) (Report.Filtered A) (Check.check none [] e .empty)
        (Check.check (some A) [] e .empty) :=
    (Walk.paired_self (W := filteringWalk A) (fun _ => rfl) e).agree hA .nil ⟨rfl, rfl, rfl⟩
  simp only [check_eq_ok]
  generalize Check.check none [] e .empty = u, Check.check (some A) [] e .empty = v
    at hallows hends ⊢
  refine ⟨⟨?_, ?_⟩, ?_⟩
  · rintro ⟨r', rfl⟩
    have hA := hallows rfl
    cases hends hA with
    | ok => exact ⟨⟨_, rfl⟩, hA⟩
    | waived hfalse => exact hfalse.elim
  · rintro ⟨⟨r, rfl⟩, hA⟩
    cases hends hA with
    | ok => exact ⟨_, rfl⟩
  · rintro r r' rfl rfl
    cases hends (hallows rfl) with
    | ok _ hr => exact ⟨hr.opCount, hr.calls, hr.warnings⟩

open Check in
/-- Inside of a scope with a computed name a call off the list is a warning, outside of it an
error. -/
theorem Expr.check_some_iff_computed_name :
    let inner : Expr Nat :=
      .op 1 .scope [.op 2 .typeOf [.lit 3 .null], .lit 4 .null, .op 5 .call [.lit 6 (.str "f")]]
    let e : Expr Nat := .op 0 .add [inner, .op 7 .call [.lit 8 (.str "g")]]
    e.check none = .ok ⟨5, ["f", "g"], [.dynamicName 1 .scope]⟩ ∧
      e.check (some ["g"]) = .ok ⟨5, ["g"], [.dynamicName 1 .scope, .unresolvedCall 5 "f"]⟩ ∧
      (∀ name, CallsHost [] e name → name ∈ ["g"]) ∧
      ¬ (∃ r, e.check (some ["f"]) = .ok r) ∧ CallsHost [] e "g" := by
  intro inner e
  have hnone : e.check none = .ok ⟨5, ["f", "g"], [.dynamicName 1 .scope]⟩ := rfl
  have hsome : e.check (some ["g"])
      = .ok ⟨5, ["g"], [.dynamicName 1 .scope, .unresolvedCall 5 "f"]⟩ := rfl
  have hcall : CallsHost [] e "g" := by
    refine ⟨[], 7, .lit 8 (.str "g"), [], ?_, rfl, by simp [Undeclared]⟩
    exact .operand (by decide) (by decide) (mem_cons_of_mem _ mem_cons_self) .here
  have hcalls := ((check_some_iff e ["g"]).1.1 ⟨_, hsome⟩).2
  refine ⟨hnone, hsome, hcalls, fun h => ?_, hcall⟩
  have hg := ((check_some_iff e ["f"]).1.1 h).2 "g" hcall
  simp at hg

end OpTree
