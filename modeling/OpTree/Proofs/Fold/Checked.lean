import OpTree.Proofs.Fold.Kept

/-!
# What folding returns passes the check

An expression that is checked without a warning has no computed names, and so folding spells out
none. What is left of it is trimmed only, and is checked with no more to report.

Main statement: `Expr.exists_check_of_optimize`.
-/

namespace OpTree

open Check Fold

variable {α : Type}

namespace Fold

/-- Where a literal is wrapped there is one operator more to count. -/
theorem check_foldRoot {A : Option (List String)} {e : Expr α} {r : Report NodeId}
    (h : (fold e #[]).1.check A = .ok r) :
    ∃ r', (foldRoot e #[]).1.check A = .ok r' ∧ r'.warnings = r.warnings ∧ r'.calls = r.calls ∧
      r'.opCount ≤ max r.opCount 1 := by
  rcases foldRoot_cases e with ⟨b, s, b', hf, hroot⟩ | ⟨-, hroot⟩
  · rw [hf] at h
    cases h
    rw [hroot]
    exact ⟨⟨1, [], []⟩, rfl, rfl, rfl, Nat.le_refl _⟩
  · rw [hroot]
    exact ⟨r, h, rfl, rfl, Nat.le_max_left _ _⟩

/-- Unless folding spells out a name, what it returns is accepted too. -/
theorem exists_check_foldRoot {A : Option (List String)} {e : Expr α} {r : Report α}
    (h : e.check A = .ok r) (hnames : ¬ SpellsOut e) :
    ∃ r', (foldRoot e #[]).1.check A = .ok r' ∧ r'.warnings.length ≤ r.warnings.length ∧
      (∀ name ∈ r'.calls, name ∈ r.calls ∨ ∃ node, .unresolvedCall node name ∈ r.warnings) ∧
      r'.opCount ≤ max r.opCount 1 := by
  have htrims : Trims e (fold e #[]).1 :=
    trims_of_folds (folds_fold e #[]) (.inl ⟨[], accepted_of_check h⟩) hnames
  obtain ⟨r', hr', hspares⟩ := Expr.check_of_trims (fun _ h => h) htrims h
  obtain ⟨r'', hr'', hwarnings, hcalls, hops⟩ := check_foldRoot hr'
  have hle := hspares.opCount
  have hwarned := hspares.warnings
  simp only [Report.empty, List.length_nil] at hle hwarned
  refine ⟨r'', hr'', by rw [hwarnings]; omega, fun name hn => ?_, by omega⟩
  exact (hspares.calls name (hcalls ▸ hn)).resolve_left List.not_mem_nil

end Fold

namespace Expr

variable {e : Expr α} {allowed : Option (List String)} {r : Report α}

/-- **Folding keeps a check clean.** An expression that is checked without a warning, against
whatever list of allowed calls, is optimized, and the result is checked against the same list
without a warning. The host calls that it may make are among those that the expression may make, and
it has no more operators, unless it is a literal that has been wrapped. -/
theorem exists_check_of_optimize (h : e.check allowed = .ok r) (hw : r.warnings = []) :
    ∃ g, e.optimize = .ok g ∧ ∃ r', g.tree.check allowed = .ok r' ∧ r'.warnings = [] ∧
      r'.calls ⊆ r.calls ∧ r'.opCount ≤ max r.opCount 1 := by
  -- without a list nothing is less allowed
  obtain ⟨r₀, hr₀, -⟩ := check_of_trims (B := none) (fun _ _ => rfl) (Trims.refl e) h
  have hnames : ¬ SpellsOut e :=
    not_spellsOut (.inl ⟨[], accepted_of_check h⟩) (by simp [hw])
  obtain ⟨r', hr', hwarnings, hcalls, hops⟩ := exists_check_foldRoot h hnames
  rw [hw] at hwarnings hcalls
  refine ⟨_, optimize_of_check hr₀, r', hr', List.length_eq_zero_iff.1 (Nat.le_zero.1 hwarnings),
    fun name hn => ?_, hops⟩
  exact (hcalls name hn).resolve_right fun ⟨node, hnode⟩ => List.not_mem_nil hnode

/-- A condition that is decided gives way to a lookup, which still finds what the scope declares. -/
theorem exists_check_of_optimize_scope :
    let e : Expr Nat := .op 0 .scope [.lit 1 (.str "x"), .op 2 .call [.lit 3 (.str "f")],
      .op 4 .condition [.lit 5 (.bool true), .op 6 .lookup [.lit 7 (.str "x")], .lit 8 .null]]
    e.check (some ["f"]) = .ok ⟨4, ["f"], []⟩ ∧
      ∃ g, e.optimize = .ok g ∧
        g.tree.erase = .op () .scope [.lit () (.str "x"), .op () .call [.lit () (.str "f")],
          .op () .lookup [.lit () (.str "x")]] ∧
        ∃ r', g.tree.check (some ["f"]) = .ok r' ∧ r'.warnings = [] ∧ r'.calls ⊆ ["f"] ∧
          r'.opCount ≤ max 4 1 := by
  intro e
  have h : e.check (some ["f"]) = .ok ⟨4, ["f"], []⟩ := rfl
  obtain ⟨g, hg, hchecked⟩ := exists_check_of_optimize h rfl
  refine ⟨h, g, hg, ?_, hchecked⟩
  cases hg
  rfl

end Expr

end OpTree
