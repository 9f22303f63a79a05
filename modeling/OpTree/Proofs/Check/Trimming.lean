import OpTree.Proofs.Check.Acceptance

/-!
# Checking what is left of an expression

An expression is trimmed by putting literals in the place of parts, by leaving out operands of a
condition, and by dropping scopes that declare nothing (`Trims`). The names that it uses and
declares stay as they are: spelled out or computed. So every name that is left refers to what it
referred to, and the check accepts what is left of an expression that it accepts, and reports no
more (`Spares`).

An operator that stays is a step of the walk along both checks. The lemmas of this module are about
the others: a part that the check of what is left does not go into is checked on the one side only.

Main statement: `Expr.check_of_trims`.
-/

namespace OpTree

open List

variable {α β : Type}

/-! ### Trimming -/

/-- What may be left of an expression. -/
inductive Trims : Expr α → Expr β → Prop
  | lit {a b s} : Trims (.lit a s) (.lit b s)
  /-- A part becomes a literal. -/
  | constant {a code es b s} : code ≠ .lambda → Trims (.op a code es) (.lit b s)
  /-- An operator stays, and a name is spelled out where it was. -/
  | operator {a code es b fs} : Forall₂ Trims es fs →
      (code.names fs).map Expr.literal? = (code.names es).map Expr.literal? →
      Trims (.op a code es) (.op b code fs)
  /-- A scope without bindings becomes its body. -/
  | scope {a e f} : Trims e f → e.isLambda = false → Trims (.op a .scope [e]) f
  /-- A condition loses operands. -/
  | condition {a es ls b fs} : ls <+ es → Forall₂ Trims ls fs → fs.length % 2 = 1 →
      Trims (.op a .condition es) (.op b .condition fs)
  /-- A condition becomes one of its operands. -/
  | choice {a es e f} : e ∈ es → Trims e f → e.isLambda = false → Trims (.op a .condition es) f

/-- Nothing need be left out. -/
theorem Trims.refl (e : Expr α) : Trims e e := by
  induction e with
  | lit => exact .lit
  | op a code es ih => exact .operator (forall₂_same.2 ih) rfl

namespace Check

/-! ### Reports -/

/-- The report `ρ` has grown to `ρ'` by no more than `r` has grown to `r'`, but that calls may be
listed where there was a warning. -/
structure Spares (r r' : Report α) (ρ ρ' : Report β) : Prop where
  opCount : ρ'.opCount + r.opCount ≤ ρ.opCount + r'.opCount
  calls : ∀ name ∈ ρ'.calls, name ∈ ρ.calls ∨ name ∈ r'.calls ∨
    ∃ node, .unresolvedCall node name ∈ r'.warnings
  warnings : ρ'.warnings.length + r.warnings.length ≤ ρ.warnings.length + r'.warnings.length

namespace Spares

variable {r r' r'' : Report α} {ρ ρ' : Report β} {name : String}

/-- The left-hand check may go on alone. -/
theorem within (h : Spares r r' ρ ρ') (hw : r'.Within r'') : Spares r r'' ρ ρ' where
  opCount := Nat.le_trans h.opCount (Nat.add_le_add_left hw.opCount _)
  calls n hn := (h.calls n hn).imp id (.imp (hw.calls ·)
    (.imp fun _ hwarned => hw.warnings.subset hwarned))
  warnings := Nat.le_trans h.warnings (Nat.add_le_add_left hw.warnings.length_le _)

/-- An operator is counted by both checks. -/
theorem countOp (h : Spares r r' ρ ρ') : Spares r r'.countOp ρ ρ'.countOp where
  opCount := by
    have hcount := h.opCount
    simp only [Report.countOp]
    omega
  calls := h.calls
  warnings := h.warnings

/-- Both checks warn. -/
theorem warn (h : Spares r r' ρ ρ') (w : Warning α) (w' : Warning β) :
    Spares r (r'.warn w) ρ (ρ'.warn w') where
  opCount := h.opCount
  calls n hn := (h.calls n hn).imp id (.imp id (.imp fun _ => mem_append_left _))
  warnings := by
    have hwarnings := h.warnings
    simp only [Report.warn, length_append, length_singleton]
    omega

/-- The right-hand check lists a call that the left-hand one knows of. -/
private theorem addCall_right (h : Spares r r' ρ ρ')
    (hname : name ∈ r'.calls ∨ ∃ node, .unresolvedCall node name ∈ r'.warnings) :
    Spares r r' ρ (ρ'.addCall name) := by
  rw [Report.addCall]
  split
  · exact h
  · refine ⟨h.opCount, fun n hn => ?_, h.warnings⟩
    rcases mem_append.1 hn with hn | hn
    · exact h.calls n hn
    · obtain rfl := mem_singleton.1 hn
      exact .inr hname

/-- Both checks list a call. -/
theorem addCall (h : Spares r r' ρ ρ') (name : String) :
    Spares r (r'.addCall name) ρ (ρ'.addCall name) := by
  refine (h.within (.addCall r' name)).addCall_right (.inl ?_)
  rw [Report.addCall]
  split
  · assumption
  · exact mem_append_right _ mem_cons_self

/-- A call is listed where it could not be decided whether it is allowed. -/
theorem addCall_of_warn (h : Spares r r' ρ ρ') (node : α) (name : String) :
    Spares r (r'.warn (.unresolvedCall node name)) ρ (ρ'.addCall name) :=
  (h.within (.warn r' _)).addCall_right (.inr ⟨node, mem_append_right _ mem_cons_self⟩)

end Spares

/-! ### The check of an expression beside that of what is left -/

section

variable {A B : Option (List String)} (hAB : ∀ name, A.all (name ∈ ·) → B.all (name ∈ ·))

/-- The check of what is left reports no more. What is allowed to the left-hand check is allowed to
the right-hand one. -/
def trimmingWalk : Walk (.successful : CheckComparison α β) where
  left := A
  right := B
  labels _ _ := True
  site _ _ := True
  frames _ _ := True
  reports _ r ρ := Spares .empty r .empty ρ
  site_inside _ _ := trivial
  frames_scope _ _ := trivial
  frames_params _ _ := trivial
  count _ h := h.countOp
  call := by
    rintro os ss a b n args s fr fr' - - - hlike -
    refine .bind (Q := (Spares .empty · .empty ·)) (.record fun _ _ h => h.countOp) fun _ _ _ => ?_
    refine CheckComparison.related_checkCall hlike (fun _ _ _ _ h => h) (fun _ _ => .inl trivial)
      (fun _ => ?_) fun _ => ?_
    · split
      · rename_i hA
        rw [if_pos (hAB s hA)]
        exact .record fun _ _ h => h.addCall s
      · exact .throw_left trivial
    · split
      · rename_i hA
        rw [if_pos (hAB s hA)]
        exact .record fun _ _ h => h.addCall s
      · split
        · exact .record fun _ _ h => h.addCall_of_warn a s
        · exact .record fun _ _ h => h.warn _ _
  warn _ _ h := h.warn _ _
  error _ _ _ := CheckComparison.successful_accepts

variable {hAB} {a : α} {b : β} {e : Expr α} {f : Expr β} {es ls : List (Expr α)}
  {fs : List (Expr β)} {fr fr' : List StaticFrame}

/-- If the left-hand step succeeds then so does the right-hand one, with no more to report. -/
private def Eased (x : CheckM α Unit) (y : CheckM β Unit) : Prop :=
  CheckComparison.successful.Related (Spares .empty · .empty ·) (Spares .empty · .empty ·)
    (fun _ _ => True) x y

/-- Expressions that are no lambdas. -/
private theorem paired_of_eased (he : e.isLambda = false) (hf : f.isLambda = false)
    (h : ∀ {fr fr'}, Alike fr fr' → Eased (check A fr e) (check B fr' f)) :
    (trimmingWalk hAB).Paired e f :=
  .of_isLambda_eq_false he hf fun _ _ hlike _ => h hlike

private theorem eased_of_paired (h : (trimmingWalk hAB).Paired e f) (hlike : Alike fr fr') :
    Eased (check A fr e) (check B fr' f) := by
  have hsite : (trimmingWalk (β := β) hAB).site [] e := trivial
  exact h.node hsite trivial hlike []

/-- A step that only the left-hand check takes. -/
private theorem eased_left {x : CheckM α Unit} (hx : Grows x) : Eased x (pure () : CheckM β Unit) :=
  .of_left (fun _ => trivial) fun _ _ _ _ h hr => ⟨trivial, h.within (hx.within hr)⟩

private theorem grows_countOp : Grows (record (α := α) Report.countOp) := .record .countOp

/-- Of the operands some may be gone. -/
private theorem eased_checkAll (hls : ls <+ es) (h : Forall₂ (trimmingWalk hAB).Paired ls fs)
    (hlike : Alike fr fr') : Eased (checkAll A fr es) (checkAll B fr' fs) := by
  induction hls generalizing fs with
  | slnil =>
    cases h
    exact .pure trivial fun _ _ h => h
  | cons e _ ih => exact (eased_left (grows_check fr e)).bind_left fun _ => ih h
  | cons_cons e _ ih =>
    cases h with
    | cons he h => exact (eased_of_paired he hlike).bind fun _ _ _ => ih h

/-- The frame of a scope without bindings does not matter. -/
private theorem paired_scope (h : (trimmingWalk hAB).Paired e f) (he : e.isLambda = false) :
    (trimmingWalk hAB).Paired (.op a .scope [e]) f := by
  refine paired_of_eased rfl (h.isLambda.trans he) fun {fr fr'} hlike => ?_
  have hbody : Eased (record Report.countOp >>= fun _ => check A (.empty :: fr) e)
      (check B fr' f) :=
    (eased_left grows_countOp).bind_left fun _ => eased_of_paired h hlike.cons_empty
  exact hbody

/-- A condition with fewer operands, still an odd number of them. -/
private theorem paired_condition (hls : ls <+ es) (h : Forall₂ (trimmingWalk hAB).Paired ls fs)
    (hodd : fs.length % 2 = 1) :
    (trimmingWalk hAB).Paired (.op a .condition es) (.op b .condition fs) := by
  have harity : Operator.condition.arity.accepts fs.length := beq_iff_eq.2 hodd
  refine paired_of_eased rfl rfl fun hlike => ?_
  rw [check_of_isPlain rfl, check_of_isPlain rfl, if_pos harity]
  refine .bind (Q := (Spares .empty · .empty ·)) (.record fun _ _ h => h.countOp) fun _ _ _ => ?_
  split
  · exact eased_checkAll hls h hlike
  · exact .throw_left trivial

/-- One operand is left of a condition. -/
private theorem paired_choice (hmem : e ∈ es) (h : (trimmingWalk hAB).Paired e f)
    (he : e.isLambda = false) : (trimmingWalk hAB).Paired (.op a .condition es) f := by
  refine paired_of_eased rfl (h.isLambda.trans he) fun {fr fr'} hlike => ?_
  have hone : checkAll B fr' [f] = check B fr' f := bind_pure_unit
  rw [check_of_isPlain rfl, ← hone]
  refine (eased_left grows_countOp).bind_left fun _ => ?_
  split
  · exact eased_checkAll (singleton_sublist.2 hmem) (.cons h .nil) hlike
  · exact .throw_left trivial

/-- **What is left of an expression** is checked with no more to report, wherever it stands. -/
theorem paired_of_trims (hAB : ∀ name, A.all (name ∈ ·) → B.all (name ∈ ·)) (h : Trims e f) :
    (trimmingWalk hAB).Paired e f := by
  induction e generalizing f with
  | lit a s =>
    cases h
    exact .lit ..
  | op a code es ih =>
    have hoperands {ls : List (Expr α)} {fs : List (Expr β)} (hls : ls ⊆ es)
        (h : Forall₂ Trims ls fs) : Forall₂ (trimmingWalk hAB).Paired ls fs :=
      ((forall₂_and_left
        (p := fun e => ∀ f : Expr β, Trims e f → (trimmingWalk hAB).Paired e f) ..).2
          ⟨fun e he _ => ih e (hls he), h⟩).imp fun _ _ h => h.1 _ h.2
    cases h with
    | constant hcode =>
      exact paired_of_eased (Expr.isLambda_op_of_ne hcode a es) rfl fun _ =>
        eased_left (grows_check _ _)
    | operator h hnames => exact .op (hoperands (.refl es) h) hnames trivial
    | scope h he => exact paired_scope (ih _ mem_cons_self h) he
    | condition hls h hodd => exact paired_condition hls (hoperands hls.subset h) hodd
    | choice hmem h he => exact paired_choice hmem (ih _ hmem h) he

end

end Check

open Check in
/-- If an expression is accepted then so is what is left of it, with no more to report. What is
allowed may become more. -/
theorem Expr.check_of_trims {A B : Option (List String)} {e : Expr α} {f : Expr β}
    (hAB : ∀ name, A.all (name ∈ ·) → B.all (name ∈ ·)) (h : Trims e f) {r : Report α}
    (hr : e.check A = .ok r) : ∃ r', f.check B = .ok r' ∧ Spares .empty r .empty r' := by
  have hempty : Spares (.empty : Report α) .empty (.empty : Report β) .empty :=
    ⟨Nat.le_refl _, fun _ => .inl, Nat.le_refl _⟩
  have hends : CheckComparison.successful.Agree _ _ (Check.check A [] e .empty)
      (Check.check B [] f .empty) := (paired_of_trims hAB h).agree trivial trivial hempty
  rw [check_eq_ok.1 hr] at hends
  generalize hf : Check.check B [] f .empty = t at hends
  cases hends with
  | ok _ hspares => exact ⟨_, check_eq_ok.2 hf, hspares⟩

end OpTree
