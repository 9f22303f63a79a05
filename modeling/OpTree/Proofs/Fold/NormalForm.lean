import OpTree.Proofs.Fold.Kept
import OpTree.Proofs.Limits.Exactness

/-!
# Normal forms of folding

Folding attempts to evaluate every part, and gives up after a number of operations. What it returns
is left as it is when it is folded once more (`Normal`), unless one of the attempts was given up
that would have succeeded: the operands of that part have been replaced in the meantime, and the
next attempt may get to its end. `Affordable` says that there is no such part.

Main statements: `normal_of_folds`, what folding returns is normal, and `Normal.erase_eq`, what is
normal folds to itself.
-/

namespace OpTree

open Check Eval Fold List

variable {α β : Type}

/-! ### Evaluation before and after folding -/

section

variable {e : Expr α} {f : Expr β} {s : Scalar}

/-- What has a value of its own once it is folded has had it before, without limits. -/
theorem exists_evaluate_of_folds (he : Regular e) (h : Folds e f) (hf : constant? f = some s) :
    ∃ stats, e.evaluate ⟨.unlimited, .empty, .timed⟩ = .ok ⟨s, stats⟩ := by
  have hknown : Site.Everywhere (FoldedKnown fun _ => true) (.start e) :=
    Site.everywhere_start fun _ _ => rfl
  have hrun := (foldable .empty .timed (.start e) hknown (Site.sound_start e) f .empty he h
    .nil).visits .start .start ⟨rfl, rfl, .start⟩
  have hlimits : (Setting.mk .unlimited .empty .timed).limits = .unlimited := rfl
  obtain ⟨d, hd, -⟩ := unbounded_of_constant? hf (Site.sound_start f) hlimits (d := .start) rfl
  change Comparison.Agree _ _ _ (unbounded e ⟨.unlimited, .empty, .timed⟩ .start)
    (unbounded f ⟨.unlimited, .empty, .timed⟩ .start) at hrun
  rw [hd] at hrun
  rw [Expr.evaluate, Expr.run_eq_unbounded]
  generalize unbounded e ⟨.unlimited, .empty, .timed⟩ .start = r at hrun ⊢
  cases hrun with
  | ok hv =>
    obtain ⟨rfl, -⟩ := hv
    exact ⟨_, rfl⟩
  | waived hw => exact hw.elim

/-- **What folding finds.** A part is found to have a value of its own if evaluating it without
limits takes no more than 10000 operations. -/
theorem constant?_eq_some_iff : constant? e = some s ↔
    ∃ stats, e.evaluate ⟨.unlimited, .empty, .timed⟩ = .ok ⟨s, stats⟩ ∧ stats.opCount ≤ 10000 := by
  have huntimed : Fold.setting.limits.IsUntimed := ⟨rfl, rfl⟩
  constructor
  · intro h
    rw [constant?] at h
    cases hown : e.evaluate Fold.setting with
    | error => rw [hown] at h; cases h
    | ok r =>
      rw [hown] at h
      obtain rfl : r.result = s := Option.some.inj h
      obtain ⟨hrun, hadmits⟩ := Expr.run_unlimited_of_ok huntimed hown
      refine ⟨r.stats, ?_, hadmits .opCount 10000 rfl⟩
      rw [← hown]
      exact congrArg Run.outcome hrun
  · rintro ⟨stats, h, hops⟩
    have hadmits : Fold.setting.limits.Admits stats := by
      intro counter bound hb
      cases counter with
      | opCount =>
        cases hb
        exact hops
      | scopeCount | scopeDepth | varCount | strCount | strChars => cases hb
    have hrun : e.run Fold.setting = e.run ⟨.unlimited, .empty, .timed⟩ :=
      Expr.run_of_admits huntimed h hadmits
    rw [constant?, Expr.evaluate, hrun]
    exact congrArg (fun r => r.toOption.map Evaluation.result) h

end

namespace Fold

/-! ### Normal forms -/

/-- What has been pruned is left as it is. -/
theorem prune_prune (fs : List (Expr β)) : prune (prune fs) = prune fs := by
  fun_induction prune fs with
  | case1 => rfl
  | case2 _ _ _ _ _ _ ih => exact ih
  | case3 guard value rest hl ih =>
    rw [prune, hl]
    dsimp only
    rw [ih]
  | case4 fs hfs =>
    rw [prune]
    exact hfs

/-- No operator in it has a value of its own or can be simplified. -/
inductive Normal : Expr α → Prop
  | lit (a : α) (s : Scalar) : Normal (.lit a s)
  | op {a code es} : constant? (.op a code es) = none →
      simplified code (es.map Expr.erase) = (Expr.op a code es).erase → (∀ e ∈ es, Normal e) →
      Normal (.op a code es)

/-- **What is normal folds to itself**, but for its labels. -/
theorem Normal.erase_eq {e : Expr α} {f : Expr β} (he : Normal e) (h : Folds e f) :
    f.erase = e.erase := by
  induction he generalizing f with
  | lit => cases h; rfl
  | @op a code es hc hs _ ih =>
    obtain ⟨fs, hfs, hf⟩ := exists_of_folds hc h
    have hsame : fs.map Expr.erase = es.map Expr.erase :=
      map_eq_map_of_forall₂ hfs (forall₂_same.2 fun _ _ => rfl) fun e he f g hf hg => by
        subst hg
        exact ih e he hf
    rw [hf, hsame, hs]

/-- The parts that are left standing are cheap to evaluate, if they can be evaluated on their own:
the attempts of folding to do so get to their ends. -/
def Affordable (e : Expr α) : Prop :=
  ∀ x, Kept e x → ∀ v s, x.evaluate ⟨.unlimited, .empty, .timed⟩ = .ok ⟨v, s⟩ → s.opCount ≤ 10000

theorem Affordable.of_mem {a : α} {code : Operator} {e : Expr α} {es : List (Expr α)}
    (h : Affordable (.op a code es)) (hc : constant? (.op a code es) = none)
    (he : e ∈ survivors code es) : Affordable e :=
  fun x hx => h x (.operand hc he hx)

theorem affordable_lit (a : α) {s : Scalar} (hs : s.isValid) : Affordable (.lit a s) := by
  intro x hx v stats h
  cases hx
  rw [Expr.evaluate, Expr.run_eq_unbounded, unbounded_lit hs (Site.sound_start _) rfl rfl] at h
  cases h
  rw [Usage.opCount_countScalar]
  change 1 ≤ 10000
  decide

/-- An operator is affordable if it is cheap itself and the operands that it keeps are
affordable. -/
theorem affordable_op {a : α} {code : Operator} {es : List (Expr α)}
    (h : ∀ v s, (Expr.op a code es).evaluate ⟨.unlimited, .empty, .timed⟩ = .ok ⟨v, s⟩ →
      s.opCount ≤ 10000) (hes : ∀ e ∈ survivors code es, Affordable e) :
    Affordable (.op a code es) := by
  intro x hx
  cases hx with
  | refl => exact h
  | operand _ he hx => exact hes _ he x hx

/-- A part without a value of its own does not get one by being folded. -/
private theorem constant?_eq_none_of_folds {ρ : Report α} {e : Expr α} {f : Expr β}
    (hc : constant? e = none) (h : Folds e f) (he : Admitted none ρ e) (hfinite : e.IsFinite)
    (haffordable : Affordable e) : constant? f = none := by
  cases hl : e.isLambda with
  | true =>
    match e, hl, h with
    | .op _ .lambda _, _, h =>
      obtain ⟨b, fs, rfl, -⟩ := h.of_lambda
      exact constant?_lambda
  | false =>
    obtain ⟨ss, haccepted⟩ := he.accepted hl
    rw [Option.eq_none_iff_forall_ne_some]
    intro s hs
    obtain ⟨stats, hvalue⟩ := exists_evaluate_of_folds ⟨⟨ρ, ss, haccepted⟩, hfinite⟩ h hs
    have hops : stats.opCount ≤ 10000 := haffordable e (.refl e) s stats hvalue
    cases hc.symm.trans (constant?_eq_some_iff.2 ⟨stats, hvalue, hops⟩)

/-- **What folding returns is normal** if no attempt to evaluate a part was given up. -/
theorem normal_of_folds {ρ : Report α} {e : Expr α} {f : Expr β} (h : Folds e f)
    (he : Admitted none ρ e) (hfinite : e.IsFinite) (haffordable : Affordable e) : Normal f := by
  induction e generalizing f with
  | lit => cases h; exact .lit _ _
  | op a code es ih =>
    have hnormal (hc : constant? (.op a code es) = none) {e : Expr α} {f : Expr β}
        (hmem : e ∈ survivors code es) (h : Folds e f) : Normal f :=
      have hes := survivors_sublist.subset hmem
      ih e hes h (he.operands.1 e hes) (hfinite.of_mem e hes) (haffordable.of_mem hc hmem)
    have hnone (hc : constant? (.op a code es) = none) : constant? f = none :=
      constant?_eq_none_of_folds hc h he hfinite haffordable
    have hall (hc : constant? (.op a code es) = none) {fs : List (Expr β)}
        (h : Forall₂ Folds (survivors code es) fs) : ∀ f ∈ fs, Normal f := by
      intro f hf
      obtain ⟨e, he, h⟩ := exists_of_mem h hf
      exact hnormal hc he h
    cases h with
    | constant => exact .lit _ _
    | operator hc hne hscope hes =>
      have hops := hall hc (by rwa [survivors_of_ne hne])
      refine .op (hnone hc) ?_ hops
      rw [Expr.erase_op, simplified_eq_op hne fun hcode => by rw [length_map]; exact hscope hcode]
    | scope hc hbody => exact hnormal hc mem_cons_self hbody
    | @condition _ _ _ fs hc hes hlen =>
      refine .op (hnone hc) ?_ (hall hc (forall₂_live hes))
      have hpruned : prune ((prune fs).map Expr.erase) = (prune fs).map Expr.erase := by
        rw [← map_erase_prune, prune_prune]
      rw [Expr.erase_op, simplified_condition (by rwa [hpruned, length_map]), hpruned]
    | choice hc hes hp =>
      have hlive := forall₂_live hes
      rw [hp] at hlive
      exact hall hc hlive f (mem_singleton_self f)

end Fold

end OpTree
