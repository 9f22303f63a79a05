import OpTree.Proofs.Fold.Checked
import OpTree.Proofs.Fold.NormalForm

/-!
# Folding twice

What has been folded is folded to itself, unless an attempt to evaluate a part was given up for the
number of its operations (`Affordable`). Before it is folded once more it is checked once more, and
the check accepts it unless a computed name has been spelled out (`SpellsOut`): nothing is known of
a computed name, but one that is spelled out has to be declared.

Main statements: `Expr.equals_of_optimize_of_optimize` says both, and
`Expr.exists_optimize_of_optimize_ne` that neither condition can be left out.
-/

namespace OpTree

open Check Eval Fold List

variable {α β : Type}

namespace Fold

theorem isFinite_foldRoot {e : Expr α} (he : e.IsFinite) : (foldRoot e #[]).1.IsFinite := by
  have hfold : (fold e #[]).1.IsFinite := (folds_fold e #[]).isFinite he
  rcases foldRoot_cases e with ⟨b, s, b', hf, hroot⟩ | ⟨-, hroot⟩
  · rw [hroot]
    exact Expr.isFinite_op (forall_mem_singleton.2 (hf ▸ hfold))
  · rw [hroot]
    exact hfold

/-- A literal that has been wrapped is found again. -/
theorem constant?_wrapped {b b' : β} {s : Scalar} (hs : s.isValid) :
    constant? (.op b' .expression [.lit b s]) = some s := by
  refine constant?_eq_some_iff.2 ⟨(Usage.zero.countOp.countOp.countScalar s).stats, ?_, ?_⟩
  · rw [Expr.evaluate, Expr.run_eq_unbounded, unbounded_wrapped hs rfl]
    rfl
  · rw [Usage.opCount_countScalar]
    decide

/-- **Folding what has been folded** gives the same again, but for the labels. -/
theorem erase_foldRoot_foldRoot {ρ : Report α} {e : Expr α} (he : Admitted none ρ e)
    (hfinite : e.IsFinite) (haffordable : Affordable e) :
    (foldRoot (foldRoot e #[]).1 #[]).1.erase = (foldRoot e #[]).1.erase := by
  have hfolds : Folds e (fold e #[]).1 := folds_fold e #[]
  have hagain := folds_fold (foldRoot e #[]).1 #[]
  rcases foldRoot_cases e with ⟨b, s, b', hf, hroot⟩ | ⟨hl, hroot⟩ <;> rw [hroot] at hagain ⊢
  · -- the literal is taken out and wrapped again
    rw [hf] at hfolds
    have herase := hagain.erase_of_constant? (constant?_wrapped (hfolds.isValid hfinite))
    rcases foldRoot_cases (.op b' .expression [.lit b s]) with ⟨c, t, c', hf', hroot'⟩ | ⟨hl, -⟩
    · rw [hf'] at herase
      cases herase
      rw [hroot']
      rfl
    · rw [← Expr.literal?_erase, herase] at hl
      cases hl
  · have herase := (normal_of_folds hfolds he hfinite haffordable).erase_eq hagain
    rcases foldRoot_cases (fold e #[]).1 with ⟨c, t, c', hf', -⟩ | ⟨-, hroot'⟩
    · rw [← Expr.literal?_erase, ← herase, hf'] at hl
      cases hl
    · rw [hroot', herase]

end Fold

namespace Expr

/-- **Folding twice.** Let an expression with finite numbers be optimized. The result can be
optimized again, unless a computed name has been spelled out; and where it is, and the parts that
were left standing are affordable, an equal expression is returned. -/
theorem equals_of_optimize_of_optimize {e : Expr α} {g : Graph} (hfinite : e.IsFinite)
    (h : e.optimize = .ok g) :
    (¬ SpellsOut e → ∃ g', g.tree.optimize = .ok g') ∧
      (Affordable e → ∀ g', g.tree.optimize = .ok g' → g'.equals g) := by
  obtain ⟨r, hcheck, htree⟩ := check_of_optimize h
  refine ⟨fun hnames => ?_, fun haffordable g' h' => ?_⟩
  · obtain ⟨r', hr', -⟩ := exists_check_foldRoot hcheck hnames
    exact ⟨_, optimize_of_check (htree ▸ hr')⟩
  · obtain ⟨-, -, htree'⟩ := check_of_optimize h'
    have hadmitted : Admitted none r e := .inl ⟨[], accepted_of_check hcheck⟩
    have hfinite' : g'.tree.IsFinite := by
      rw [htree', htree]
      exact isFinite_foldRoot (isFinite_foldRoot hfinite)
    refine equals_of_erase_eq hfinite' ?_
    rw [htree', htree]
    exact erase_foldRoot_foldRoot hadmitted hfinite haffordable

/-- A condition that is decided gives way to a lookup, and the host call stays. -/
theorem equals_of_optimize_of_optimize_scope :
    let e : Expr Nat := .op 0 .scope [.lit 1 (.str "x"), .op 2 .call [.lit 3 (.str "f")],
      .op 4 .condition [.lit 5 (.bool true), .op 6 .lookup [.lit 7 (.str "x")], .lit 8 .null]]
    e.IsFinite ∧ ¬ SpellsOut e ∧ Affordable e ∧
      ∃ g g', e.optimize = .ok g ∧ g.tree.optimize = .ok g' ∧ g'.equals g := by
  intro e
  have hfinite : e.IsFinite := by
    simp [e, IsFinite, literals, literalsAll, Scalar.isValid]
  have hr : e.check none = .ok ⟨4, ["f"], []⟩ := rfl
  have hnames : ¬ SpellsOut e := not_spellsOut (.inl ⟨[], accepted_of_check hr⟩) (by simp)
  have haffordable : Affordable e := by
    -- on its own, neither the call nor the lookup finds its name
    have hcall : Affordable (.op 2 .call [.lit 3 (.str "f")]) :=
      affordable_op (fun _ _ h => by cases h) (forall_mem_singleton.2 (affordable_lit 3 rfl))
    have hlookup : Affordable (.op 6 .lookup [.lit 7 (.str "x")]) :=
      affordable_op (fun _ _ h => by cases h) (forall_mem_singleton.2 (affordable_lit 7 rfl))
    have hcondition : Affordable (.op 4 .condition
        [.lit 5 (.bool true), .op 6 .lookup [.lit 7 (.str "x")], .lit 8 .null]) :=
      affordable_op (fun _ _ h => by cases h) (forall_mem_singleton.2 hlookup)
    exact affordable_op (fun _ _ h => by cases h) (forall_mem_cons.2
      ⟨affordable_lit 1 rfl, forall_mem_cons.2 ⟨hcall, forall_mem_singleton.2 hcondition⟩⟩)
  obtain ⟨g, hg⟩ : ∃ g, e.optimize = .ok g := ⟨_, optimize_of_check hr⟩
  obtain ⟨hagain, hsame⟩ := equals_of_optimize_of_optimize hfinite hg
  obtain ⟨g', hg'⟩ := hagain hnames
  exact ⟨hfinite, hnames, haffordable, g, g', hg, hg', hsame haffordable g' hg'⟩

end Expr

/-! ### Both conditions are needed -/

/-- Null, asked for twice as often on each level. -/
def doubled : Nat → Expr Nat
  | 0 => .lit 0 .null
  | k + 1 => .op (k + 1) .coalesce [doubled k, doubled k]

private theorem isFinite_doubled (k : Nat) : (doubled k).IsFinite := by
  induction k with
  | zero => exact forall_mem_singleton.2 rfl
  | succ k ih => exact Expr.isFinite_op (by simpa using ih)

private theorem eval_doubled (k : Nat) (host : Host) (executor : Executor) (c : State Nat) :
    ∃ d, eval (k + 1) (doubled k) ⟨.unlimited, host, executor⟩ c = (.ok .null, d) ∧
      d.usage.stats.opCount + 1 = c.usage.stats.opCount + 2 ^ (k + 1) := by
  induction k generalizing c with
  | zero => exact ⟨c.visited 0, rfl, rfl⟩
  | succ k ih =>
    obtain ⟨d, hd, hops⟩ := ih (c.visited (k + 1))
    obtain ⟨d', hd', hops'⟩ := ih d
    refine ⟨d', ?_, ?_⟩
    · have hnode : eval (k + 2) (doubled (k + 1)) ⟨.unlimited, host, executor⟩ c =
          firstNonNull (eval (k + 1)) [doubled k, doubled k] ⟨.unlimited, host, executor⟩
            (c.visited (k + 1)) := rfl
      rw [hnode]
      exact EvalM.bind_eq_ok.2 ⟨.null, d, hd, EvalM.bind_eq_ok.2 ⟨.null, d', hd', rfl⟩⟩
    · change d.usage.stats.opCount + 1 = c.usage.stats.opCount + 1 + 2 ^ (k + 1) at hops
      omega

private theorem extent_doubled (k : Nat) : (doubled k).extent = ⟨k, 0⟩ := by
  induction k with
  | zero => rfl
  | succ k ih =>
    rw [doubled, Expr.extent_op, map_cons, map_singleton, ih]
    simp [Extent.ofOperands]

private theorem check_doubled (k : Nat) (ss : List StaticFrame) (ρ : Report Nat) :
    ∃ ρ', check none ss (doubled k) ρ = .ok ((), ρ') := by
  induction k generalizing ρ with
  | zero => exact ⟨ρ, rfl⟩
  | succ k ih =>
    obtain ⟨ρ₁, h₁⟩ := ih ρ.countOp
    obtain ⟨ρ₂, h₂⟩ := ih ρ₁
    refine ⟨ρ₂, ?_⟩
    change Except.bind (check none ss (doubled k) ρ.countOp) _ = _
    rw [h₁]
    change Except.bind (check none ss (doubled k) ρ₁) _ = _
    rw [h₂]
    rfl

/-- It is null, which is found unless that takes too many operations. -/
private theorem constant?_doubled (k : Nat) :
    constant? (doubled k) = if 2 ^ (k + 1) ≤ 10001 then some .null else none := by
  obtain ⟨d, hd, hops⟩ := eval_doubled k .empty .timed .start
  have hops : d.usage.stats.opCount + 1 = 2 ^ (k + 1) := hops.trans (Nat.zero_add _)
  have hdepth : (doubled k).extent.nesting ≤ k + 1 := by
    rw [extent_doubled, Extent.nesting, Nat.one_mul]
  have hvalue : (doubled k).evaluate ⟨.unlimited, .empty, .timed⟩ =
      .ok ⟨.null, d.usage.stats⟩ := by
    rw [Expr.evaluate_eq_eval hdepth, hd]
    rfl
  split
  · exact constant?_eq_some_iff.2 ⟨_, hvalue, by omega⟩
  · rw [Option.eq_none_iff_forall_ne_some]
    intro s hs
    obtain ⟨stats, hstats, hle⟩ := constant?_eq_some_iff.1 hs
    cases hvalue.symm.trans hstats
    omega

/-- Where the operands are found and the whole is not, it is left standing over the operands. -/
private theorem foldRoot_doubled {k : Nat} (hc : constant? (doubled (k + 1)) = none)
    (hoperand : constant? (doubled k) = some .null) :
    (foldRoot (doubled (k + 1)) #[]).1 =
      .op ⟨2⟩ .coalesce [.lit ⟨0⟩ .null, .lit ⟨1⟩ .null] := by
  have hfold : fold (doubled k) = Store.addLit .null := by
    cases k with
    | zero => rfl
    | succ k =>
      rw [doubled] at hoperand ⊢
      rw [fold, hoperand]
  have hroot : fold (doubled (k + 1)) =
      foldAll [doubled k, doubled k] >>= simplify .coalesce := by
    rw [doubled] at hc ⊢
    rw [fold, hc]
  rw [foldRoot, hroot, foldAll, foldAll, foldAll, hfold]
  rfl

namespace Expr

private theorem exists_optimize_doubled {k : Nat} (hc : constant? (doubled (k + 1)) = none)
    (hoperand : constant? (doubled k) = some .null) :
    ∃ g g', (doubled (k + 1)).optimize = .ok g ∧ g.tree.optimize = .ok g' ∧
      g'.equals g = false := by
  obtain ⟨ρ, hρ⟩ := check_doubled (k + 1) [] .empty
  obtain ⟨g, hg⟩ : ∃ g, (doubled (k + 1)).optimize = .ok g :=
    ⟨_, optimize_of_check (check_eq_ok.2 hρ)⟩
  obtain ⟨-, -, htree⟩ := check_of_optimize hg
  rw [foldRoot_doubled hc hoperand] at htree
  refine ⟨g, ?_⟩
  rw [htree]
  refine ⟨_, hg, rfl, ?_⟩
  rw [Graph.equals, htree]
  rfl

/-- A computed name that is spelled out need not be declared; and what is null because of thousands
of operations is folded in two steps. -/
theorem exists_optimize_of_optimize_ne :
    let spelled : Expr Nat :=
      .op 0 .isNull [.op 1 .lookup [.op 2 .coalesce [.lit 3 (.str "string")]]]
    (spelled.IsFinite ∧ ∃ g, spelled.optimize = .ok g ∧ ∀ g', g.tree.optimize ≠ .ok g') ∧
      (doubled 13).IsFinite ∧ ∃ g g', (doubled 13).optimize = .ok g ∧ g.tree.optimize = .ok g' ∧
        g'.equals g = false := by
  intro spelled
  have hspelled : spelled.IsFinite := forall_mem_singleton.2 rfl
  have hnone : constant? (doubled 13) = none := by
    rw [constant?_doubled, if_neg (by decide)]
  have hoperand : constant? (doubled 12) = some .null := by
    rw [constant?_doubled, if_pos (by decide)]
  refine ⟨⟨hspelled, _, rfl, fun g' h' => ?_⟩, isFinite_doubled 13,
    exists_optimize_doubled hnone hoperand⟩
  obtain ⟨r, hr, -⟩ := check_of_optimize h'
  cases hr

end Expr

end OpTree
