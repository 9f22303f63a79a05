import OpTree.Proofs.Fold.Simulation

/-!
# Whole expressions that are folded

The root of what folding returns is an operator. Where the whole expression comes down to a literal,
the literal is wrapped, and so two nodes are visited where it may have been one. `Fold.allowance` is
what the folded expression may use up because of that and of the names of types, given what the
expression uses up.

Main statements: `Expr.regular_of_optimize`, what is optimized is regular, and
`Fold.agree_foldRoot`, the evaluations of the whole expression and of what it is folded to end
alike.
-/

namespace OpTree

open Comparison Eval

variable {α β : Type}

namespace Fold

/-- Whether the whole expression is folded to a literal. -/
def isFoldedAway (e : Expr α) : Bool :=
  (fold e #[]).1.literal?.isSome

/-- What the folded expression may use up where the expression uses up `stats` and visits that many
`typeOf` nodes in parts that are replaced by a string: a string of seven characters for each of
them, and two nodes for a literal that is wrapped. -/
def allowance (e : Expr α) (stats : Stats) (visits : Nat) : Stats :=
  { stats with
    opCount := if isFoldedAway e then max stats.opCount 2 else stats.opCount
    strCount := stats.strCount + visits
    strChars := stats.strChars + 7 * visits }

/-- A literal is wrapped, and anything else is the root as it is. -/
theorem foldRoot_cases (e : Expr α) :
    (∃ b s b', (fold e #[]).1 = .lit b s ∧ (foldRoot e #[]).1 = .op b' .expression [.lit b s]) ∨
      (fold e #[]).1.literal? = none ∧ (foldRoot e #[]).1 = (fold e #[]).1 := by
  simp only [foldRoot, bind, StateT.bind]
  generalize fold e #[] = r
  obtain ⟨f, store⟩ := r
  cases f with
  | lit b s => exact .inl ⟨b, s, _, rfl, rfl⟩
  | op => exact .inr ⟨rfl, rfl⟩

variable {known : α → Bool} {e : Expr α}

/-- Nothing more is needed if no name of a type is folded and two nodes are visited anyhow. -/
theorem allowance_eq_self {stats : Stats} (h : isFoldedAway e → 2 ≤ stats.opCount) :
    allowance e stats 0 = stats := by
  rw [allowance]
  split
  · rename_i hliteral
    rw [max_eq_left (h hliteral)]
    rfl
  · rfl

theorem Saves.value_le_allowance {c : State α} {d : State β} (h : Saves known c d)
    (counter : Counter) : d.usage.stats.value counter ≤
      (allowance e c.usage.stats (visitsOf known c.trace)).value counter := by
  have hstats := h.stats counter
  cases counter with
  | opCount =>
    have hle : d.usage.stats.opCount ≤ c.usage.stats.opCount + 0 * visitsOf known c.trace := hstats
    change d.usage.stats.opCount ≤ if isFoldedAway e then _ else _
    split <;> omega
  | scopeCount | scopeDepth | varCount =>
    simp only [Counter.perType, Nat.zero_mul, Nat.add_zero] at hstats
    exact hstats
  | strCount =>
    simp only [Counter.perType, Nat.one_mul] at hstats
    exact hstats
  | strChars => exact hstats

/-- At the end the same host calls have been made, and on the right no more has been used up than is
allowed. -/
structure Affords (known : α → Bool) (e : Expr α) (c : State α) (d : State β) : Prop where
  history : c.history = d.history
  stats : ∀ counter, d.usage.stats.value counter ≤
    (allowance e c.usage.stats (visitsOf known c.trace)).value counter

/-- A literal that is wrapped takes two visits. -/
theorem unbounded_wrapped {b b' : β} {s : Scalar} (hs : s.isValid) {setting : Setting}
    (hlimits : setting.limits = .unlimited) :
    unbounded (.op b' .expression [.lit b s]) setting .start =
      (.ok s, { (State.start.visited b').visited b with
        usage := Usage.zero.countOp.countOp.countScalar s }) := by
  obtain ⟨_, host, executor⟩ := setting
  obtain rfl := hlimits
  have hwrap : unbounded (.op b' .expression [.lit b s]) ⟨.unlimited, host, executor⟩ .start =
      unbounded (.lit b s) ⟨.unlimited, host, executor⟩ (State.start.visited b') :=
    Expr.unbounded_start _ _
  rw [hwrap]
  exact unbounded_lit hs (Site.sound_start _) rfl rfl

/-- **Whole expressions** and what they are folded to end alike. -/
theorem agree_foldRoot (he : Regular e) (hknown : FoldedKnown known e) (host : Host)
    (executor : Executor) :
    (folding α NodeId host executor).Agree (folding α NodeId host executor).Same
      (Affords known e) (unbounded e ⟨.unlimited, host, executor⟩ .start)
      (unbounded (foldRoot e #[]).1 ⟨.unlimited, host, executor⟩ .start) := by
  have hfoldable := foldable host executor (.start e) (Site.everywhere_start hknown)
    (Site.sound_start e) (fold e #[]).1 .empty he (folds_fold e #[]) .nil
  have hrun := hfoldable.visits .start .start ⟨rfl, rfl, .start⟩
  have hvalid {b : NodeId} {s : Scalar} (hf : (fold e #[]).1 = .lit b s) : s.isValid :=
    (hf ▸ folds_fold e #[]).isValid he.finite
  have haway {b : NodeId} {s : Scalar} (hf : (fold e #[]).1 = .lit b s) : isFoldedAway e := by
    rw [isFoldedAway, hf]
    rfl
  simp only [foldRoot, bind, StateT.bind]
  generalize fold e #[] = r at hrun hvalid haway ⊢
  obtain ⟨f, store⟩ := r
  cases f with
  | op => exact hrun.mono (fun _ _ h => h) fun c d h => ⟨h.2.2.history, h.2.2.value_le_allowance⟩
  | lit b s =>
    have hs : s.isValid := hvalid rfl
    have hlit : unbounded (.lit b s) ⟨.unlimited, host, executor⟩ .start = _ :=
      unbounded_lit hs (Site.sound_start _) rfl rfl
    change Comparison.Agree _ _ _ (unbounded e ⟨.unlimited, host, executor⟩ .start)
      (unbounded (.lit b s) ⟨.unlimited, host, executor⟩ .start) at hrun
    change Comparison.Agree _ _ _ (unbounded e ⟨.unlimited, host, executor⟩ .start)
      (unbounded (.op _ .expression [.lit b s]) ⟨.unlimited, host, executor⟩ .start)
    rw [hlit] at hrun
    rw [unbounded_wrapped hs rfl]
    generalize unbounded e ⟨.unlimited, host, executor⟩ .start = r at hrun ⊢
    cases hrun with
    | @ok _ _ c _ hv hq =>
      refine .ok hv ⟨hq.2.2.history, fun counter => ?_⟩
      have hstats := hq.2.2.value_le_allowance (e := e) counter
      cases counter with
      | opCount =>
        have hops : (Usage.zero.countOp.countOp.countScalar s).stats.opCount = 2 :=
          Usage.opCount_countScalar _ s
        change (Usage.zero.countOp.countOp.countScalar s).stats.opCount ≤
          if isFoldedAway e then max c.usage.stats.opCount 2 else _
        rw [hops, if_pos (haway rfl)]
        exact Nat.le_max_right _ _
      | scopeCount | scopeDepth | varCount | strCount | strChars => cases s <;> exact hstats
    | waived hw => exact hw.elim

end Fold

/-- What is checked without a list of allowed calls is optimized. -/
theorem Expr.optimize_of_check {e : Expr α} {r : Report α} (h : e.check none = .ok r) :
    e.optimize = .ok (.ofBuilt (Fold.foldRoot e #[]) (Fold.unfolds_foldRoot e #[])) := by
  rw [optimize, h]
  rfl

/-- What is optimized has been checked, and the tree of the result is what it is folded to. -/
theorem Expr.check_of_optimize {e : Expr α} {g : Graph} (h : e.optimize = .ok g) :
    ∃ r, e.check none = .ok r ∧ g.tree = (Fold.foldRoot e #[]).1 := by
  rw [optimize] at h
  cases hcheck : e.check none with
  | error err =>
    rw [hcheck] at h
    cases h
  | ok r =>
    rw [hcheck] at h
    obtain rfl := Except.ok.inj h
    exact ⟨r, rfl, rfl⟩

/-- What is optimized is regular, and the tree of the result is what it is folded to. -/
theorem Expr.regular_of_optimize {e : Expr α} {g : Graph} (hfinite : e.IsFinite)
    (h : e.optimize = .ok g) : Regular e ∧ g.tree = (Fold.foldRoot e #[]).1 := by
  obtain ⟨r, hcheck, htree⟩ := check_of_optimize h
  exact ⟨⟨⟨r, [], Check.accepted_of_check hcheck⟩, hfinite⟩, htree⟩

end OpTree
