import OpTree.Proofs.Check.Trimming
import OpTree.Proofs.Fold.Root

/-!
# What folding leaves standing

An expression folds to one expression only, whatever the labels (`Folds.erase_eq`). So it can be
told from the expression which of its parts are left standing: those whose values are not found, and
of the operands of a condition those that can still matter (`Kept`). Folding trims the expression,
but for the computed names among those parts that turn out to be spelled by a literal
(`SpellsOut`).

Main statement: `trims_of_folds`.
-/

namespace OpTree

open Check Fold List

variable {α β γ : Type}

namespace Fold

/-! ### Folding is a function -/

/-- What simplification does, whatever the labels. -/
def simplified (code : Operator) (operands : List (Expr Unit)) : Expr Unit :=
  match code, operands with
  | .scope, [body] => body
  | .condition, operands =>
    match prune operands with
    | [value] => value
    | live => .op () .condition live
  | code, operands => .op () code operands

theorem simplified_eq_op {code : Operator} {es : List (Expr Unit)} (hne : code ≠ .condition)
    (hscope : code = .scope → es.length ≠ 1) : simplified code es = .op () code es := by
  rw [simplified.eq_def]
  split
  · exact absurd rfl (hscope rfl)
  · exact absurd rfl hne
  · rfl

theorem simplified_condition {es : List (Expr Unit)} (hlen : (prune es).length ≠ 1) :
    simplified .condition es = .op () .condition (prune es) := by
  rw [simplified]
  split
  · rename_i hes
    exact absurd (by rw [hes]; rfl) hlen
  · rfl

theorem map_erase_prune (fs : List (Expr β)) :
    (prune fs).map Expr.erase = prune (fs.map Expr.erase) := by
  induction fs using twoStepInduction with
  | nil | singleton => rfl
  | cons_cons guard value rest ih =>
    rw [map_cons, map_cons, prune, prune, Expr.literal?_erase]
    cases guard.literal? with
    | none => rw [map_cons, map_cons, ih]
    | some s =>
      dsimp only
      split
      · rfl
      · exact ih

end Fold

section

variable {a : α} {code : Operator} {e : Expr α} {f : Expr β} {g : Expr γ} {es : List (Expr α)}

/-- A part with a value of its own is replaced by it. -/
theorem Folds.erase_of_constant? {s : Scalar} (hc : constant? (.op a code es) = some s)
    (h : Folds (.op a code es) f) : f.erase = .lit () s := by
  cases h with
  | constant hc' =>
    cases hc.symm.trans hc'
    rfl
  | operator hc' | scope hc' | condition hc' | choice hc' => cases hc.symm.trans hc'

/-- An operator that has no value of its own is simplified over what its operands fold to. -/
theorem exists_of_folds (hc : constant? (.op a code es) = none) (h : Folds (.op a code es) f) :
    ∃ fs : List (Expr β), Forall₂ Folds es fs ∧ f.erase = simplified code (fs.map Expr.erase) := by
  cases h with
  | constant hc' => cases hc.symm.trans hc'
  | @operator _ _ _ _ fs hc' hne hscope h =>
    refine ⟨fs, h, ?_⟩
    rw [Expr.erase_op, simplified_eq_op hne fun hcode => by rw [length_map]; exact hscope hcode]
  | @scope _ e _ _ h => exact ⟨[f], .cons h .nil, rfl⟩
  | @condition _ _ _ fs _ h hlen =>
    refine ⟨fs, h, ?_⟩
    rw [Expr.erase_op, simplified_condition (by rwa [← map_erase_prune, length_map]),
      map_erase_prune]
  | @choice _ _ _ fs _ h hp =>
    refine ⟨fs, h, ?_⟩
    rw [simplified, ← map_erase_prune, hp]
    rfl

/-- Two lists that go with the same list are the same if their items are. -/
theorem map_eq_map_of_forall₂ {δ : Type} {R : Expr α → Expr β → Prop}
    {S : Expr α → Expr γ → Prop} {u : Expr β → δ} {v : Expr γ → δ} {fs : List (Expr β)}
    {gs : List (Expr γ)} (hfs : Forall₂ R es fs) (hgs : Forall₂ S es gs)
    (h : ∀ e ∈ es, ∀ f g, R e f → S e g → u f = v g) : fs.map u = gs.map v := by
  induction hfs generalizing gs with
  | nil =>
    cases hgs
    rfl
  | cons hf _ ih =>
    cases hgs with
    | cons hg hgs =>
      rw [map_cons, map_cons, h _ mem_cons_self _ _ hf hg,
        ih hgs fun e he => h e (mem_cons_of_mem _ he)]

/-- **An expression folds to one expression only**, but for its labels. -/
theorem Folds.erase_eq (h : Folds e f) (h' : Folds e g) : f.erase = g.erase := by
  induction e generalizing f g with
  | lit => cases h; cases h'; rfl
  | op a code es ih =>
    cases hc : constant? (.op a code es) with
    | some s =>
      rw [h.erase_of_constant? hc, h'.erase_of_constant? hc]
    | none =>
      obtain ⟨fs, hfs, hf⟩ := exists_of_folds hc h
      obtain ⟨gs, hgs, hg⟩ := exists_of_folds hc h'
      rw [hf, hg, map_eq_map_of_forall₂ hfs hgs fun e he _ _ => ih e he]

/-- Whether a part folds to a literal, and to which one, can be told from any folding. -/
theorem Folds.literal?_eq (h : Folds e f) : f.literal? = (fold e #[]).1.literal? := by
  rw [← Expr.literal?_erase f, h.erase_eq (folds_fold e #[]), Expr.literal?_erase]

end

/-! ### What is left standing -/

namespace Fold

/-- The operands of a condition that can still matter once the guards are folded. -/
def live : List (Expr α) → List (Expr α)
  | guard :: value :: rest =>
    match (fold guard #[]).1.literal? with
    | some s => if s.isTrue then [value] else live rest
    | none => guard :: value :: live rest
  | rest => rest

/-- The operands that folding keeps of an operator without a value of its own. -/
def survivors (code : Operator) (operands : List (Expr α)) : List (Expr α) :=
  match code with
  | .condition => live operands
  | _ => operands

/-- The part is left standing when the expression is folded: neither it nor what is around it is
replaced by a value or left out. -/
inductive Kept : Expr α → Expr α → Prop
  | refl (e : Expr α) : Kept e e
  | operand {a code es e x} : constant? (.op a code es) = none → e ∈ survivors code es →
      Kept e x → Kept (.op a code es) x

/-- Folding spells out a name: a computed name that is left standing is folded to a literal. -/
def SpellsOut (e : Expr α) : Prop :=
  ∃ a code es, Kept e (.op a code es) ∧ constant? (.op a code es) = none ∧
    ∃ n ∈ code.names es, n.literal? = none ∧ isFoldedAway n

section

variable {a : α} {code : Operator} {e : Expr α} {f : Expr β} {es : List (Expr α)}
  {fs : List (Expr β)}

theorem live_sublist (es : List (Expr α)) : live es <+ es := by
  fun_induction live es with
  | case1 => exact .cons _ (.cons_cons _ (nil_sublist _))
  | case2 guard value rest s hl hs ih => exact .cons _ (.cons _ ih)
  | case3 guard value rest hl ih => exact .cons_cons _ (.cons_cons _ ih)
  | case4 => exact .refl _

/-- What pruning keeps of the folded operands are the operands that can still matter, folded. -/
theorem forall₂_live (h : Forall₂ Folds es fs) : Forall₂ Folds (live es) (prune fs) := by
  fun_induction prune fs generalizing es with
  | case1 guard' value' rest' s hl hs =>
    rcases h with _ | ⟨hg, _ | ⟨hv, -⟩⟩
    rw [hg.literal?_eq] at hl
    rw [live, hl]
    dsimp only
    rw [if_pos hs]
    exact .cons hv .nil
  | case2 guard' value' rest' s hl hs ih =>
    rcases h with _ | ⟨hg, _ | ⟨-, hr⟩⟩
    rw [hg.literal?_eq] at hl
    rw [live, hl]
    dsimp only
    rw [if_neg hs]
    exact ih hr
  | case3 guard' value' rest' hl ih =>
    rcases h with _ | ⟨hg, _ | ⟨hv, hr⟩⟩
    rw [hg.literal?_eq] at hl
    rw [live, hl]
    exact .cons hg (.cons hv (ih hr))
  | case4 fs hfs =>
    rcases h with _ | ⟨hg, _ | ⟨hv, hr⟩⟩
    · exact .nil
    · exact .cons hg .nil
    · exact absurd rfl (hfs _ _ _)

theorem survivors_of_ne (hc : code ≠ .condition) : survivors code es = es := by
  cases code <;> first | rfl | exact absurd rfl hc

theorem survivors_sublist : survivors code es <+ es := by
  cases code <;> first | exact live_sublist es | exact .refl es

/-- What is spelled out by an operand that is left standing is spelled out by the whole. -/
theorem SpellsOut.of_mem (hc : constant? (.op a code es) = none) (he : e ∈ survivors code es)
    (h : SpellsOut e) : SpellsOut (.op a code es) := by
  obtain ⟨a', code', es', hkept, hspells⟩ := h
  exact ⟨a', code', es', .operand hc he hkept, hspells⟩

private theorem map_literal?_of_folds (h : Forall₂ Folds es fs) :
    fs.map Expr.literal? = es.map fun e => (fold e #[]).1.literal? := by
  induction h with
  | nil => rfl
  | cons h _ ih => rw [map_cons, map_cons, ih, h.literal?_eq]

/-- Unless folding spells out a name, the names of an operator stay as they are. -/
private theorem map_names_of_folds (hc : constant? (.op a code es) = none)
    (h : Forall₂ Folds es fs) (hnames : ¬ SpellsOut (.op a code es)) :
    (code.names fs).map Expr.literal? = (code.names es).map Expr.literal? := by
  have hfs := map_literal?_of_folds h
  have hname : ∀ n ∈ code.names es, (fold n #[]).1.literal? = n.literal? := by
    intro n hn
    cases n with
    | lit b s => rfl
    | op b c ps =>
      by_contra hne
      refine hnames ⟨a, code, es, .refl _, hc, _, hn, rfl, ?_⟩
      exact Option.isSome_iff_ne_none.2 hne
  rw [Operator.map_names, hfs, ← Operator.map_names, map_congr_left hname]

/-- What is left standing has been admitted with the whole. -/
theorem Kept.admitted {A : Option (List String)} {ρ : Report α} {x : Expr α} (h : Kept e x)
    (he : Admitted A ρ e) : Admitted A ρ x := by
  induction h with
  | refl => exact he
  | operand _ hmem _ ih => exact ih (he.operands.1 _ (survivors_sublist.subset hmem))

/-- Without a warning of a computed name there is none that could be spelled out. -/
theorem not_spellsOut {A : Option (List String)} {ρ : Report α} (he : Admitted A ρ e)
    (hw : ∀ node code, .dynamicName node code ∉ ρ.warnings) : ¬ SpellsOut e := by
  rintro ⟨a, code, es, hkept, -, n, hn, hcomputed, -⟩
  rcases (hkept.admitted he).operands.2 n hn with hn | ⟨node, code, hwarned⟩
  · exact hn hcomputed
  · exact hw node code hwarned

end

end Fold

/-- **Folding trims** what a check has accepted, unless it spells out a name. -/
theorem trims_of_folds {A : Option (List String)} {ρ : Report α} {e : Expr α} {f : Expr β}
    (h : Folds e f) (he : Admitted A ρ e) (hnames : ¬ SpellsOut e) : Trims e f := by
  induction e generalizing f with
  | lit => cases h; exact .lit
  | op a code es ih =>
    obtain ⟨hoperands, -⟩ := he.operands
    have htrims (hc : constant? (.op a code es) = none) {e : Expr α} {f : Expr β}
        (hmem : e ∈ survivors code es) (h : Folds e f) : Trims e f :=
      ih e (survivors_sublist.subset hmem) h (hoperands e (survivors_sublist.subset hmem))
        fun hspells => hnames (hspells.of_mem hc hmem)
    have hall (hc : constant? (.op a code es) = none) {fs : List (Expr β)}
        (h : Forall₂ Folds (survivors code es) fs) : Forall₂ Trims (survivors code es) fs :=
      ((forall₂_and_left (p := (· ∈ survivors code es)) ..).2 ⟨fun _ he => he, h⟩).imp
        fun _ _ h => htrims hc h.1 h.2
    cases h with
    | constant hc =>
      refine .constant ?_
      rintro rfl
      cases constant?_lambda.symm.trans hc
    | operator hc hne _ h =>
      rw [survivors_of_ne hne] at hall
      exact .operator (hall hc h) (map_names_of_folds hc h hnames)
    | scope hc h =>
      obtain ⟨ss, hacc⟩ := he.accepted rfl
      obtain ⟨-, frame, -, -, hlast⟩ := hacc.of_scope
      have hbody := hlast.of_checkLast_of_suffix (suffix_refl _)
      exact .scope (htrims hc mem_cons_self h) hbody.isLambda_eq_false
    | @condition _ _ _ fs hc h _ =>
      obtain ⟨ss, hacc⟩ := he.accepted rfl
      have hodd : fs.length % 2 = 1 := h.length_eq ▸ beq_iff_eq.1 hacc.of_arity
      exact .condition (live_sublist es) (hall hc (forall₂_live h)) (length_prune fs hodd)
    | choice hc h hp =>
      obtain ⟨ss, hacc⟩ := he.accepted rfl
      have hlive := forall₂_live h
      rw [hp] at hlive
      obtain ⟨e, _, he, -, hes⟩ := forall₂_cons_right_iff.1 hlive
      have hmem : e ∈ live es := hes ▸ mem_cons_self
      have haccepted := (hacc.of_plain rfl).2 e ((live_sublist es).subset hmem)
      exact .choice ((live_sublist es).subset hmem) (htrims hc hmem he)
        haccepted.isLambda_eq_false

end OpTree
