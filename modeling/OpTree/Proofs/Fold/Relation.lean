import OpTree.Proofs.Check.Operands
import OpTree.Proofs.Fold.Context
import OpTree.Proofs.Literals

/-!
# Expressions and what they fold to

`Folds e f` says that `f` is what folding makes of `e`, whatever the labels that it gives out: the
store plays no part in it (`folds_fold`). Not every expression folds to one that means the same:
collapsing a scope can put a lambda where it is declared, and folding a parameter can make a name of
it. Neither happens to an expression that a check accepts. `Regular` says that an expression has
been accepted and that its numbers are finite, and that is handed down to all parts that are
evaluated.
-/

namespace OpTree

open Check Eval List

variable {α : Type}

/-! ### Regular expressions -/

/-- A check accepts the expression inside of some scopes, and its numbers are finite. -/
structure Regular (e : Expr α) : Prop where
  accepted : ∃ ρ ss, Accepted ρ (check none ss e) ()
  finite : e.IsFinite

namespace Regular

variable {a : α} {code : Operator} {e v : Expr α} {es : List (Expr α)}

theorem isLambda_eq_false (h : Regular e) : e.isLambda = false := by
  obtain ⟨ρ, ss, hacc⟩ := h.accepted
  exact hacc.isLambda_eq_false

theorem arity (h : Regular (.op a code es)) : code.arity.accepts es.length := by
  obtain ⟨ρ, ss, hacc⟩ := h.accepted
  exact hacc.of_arity

/-- The operands of an operator are regular, but for those of a scope. -/
theorem of_mem (h : Regular (.op a code es)) (hc : code ≠ .scope) : ∀ e ∈ es, Regular e := by
  obtain ⟨ρ, ss, hacc⟩ := h.accepted
  have hf := h.finite.of_mem
  rcases code.isPlain_or with hp | rfl | rfl | rfl | rfl
  · exact fun e he => ⟨⟨ρ, ss, (hacc.of_plain hp).2 e he⟩, hf e he⟩
  · obtain ⟨n, args, name, rfl, hn, -, hargs⟩ := hacc.of_call
    rw [List.forall_mem_cons] at hf
    exact List.forall_mem_cons.2
      ⟨⟨⟨ρ, (accepted_of_nameOf hn).1⟩, hf.1⟩, fun e he => ⟨⟨ρ, ss, hargs e he⟩, hf.2 e he⟩⟩
  · obtain ⟨e, name, rfl, hn, -⟩ := hacc.of_lookup
    exact List.forall_mem_singleton.2 ⟨⟨ρ, (accepted_of_nameOf hn).1⟩, hf e List.mem_cons_self⟩
  · exact absurd rfl hc
  · exact hacc.false_of_lambda.elim

/-- The value of a binding is regular, or it declares a lambda whose body is. -/
def Value (v : Expr α) : Prop :=
  (v.isLambda = false → Regular v) ∧
    ∀ label ps, v = .op label .lambda ps → ∃ l, Lambda.declare label ps = .ok l ∧ Regular l.body

/-- The operands of a scope from some binding on are regular. -/
def Bindings : List (Expr α) → Prop
  | [] => False
  | [body] => Regular body
  | name :: value :: rest => Regular name ∧ Value value ∧ Bindings rest

theorem value_of_admitted {ρ : Report α} (h : Admitted none ρ v) (hf : v.IsFinite) : Value v := by
  refine ⟨fun hv => ⟨⟨ρ, h.accepted hv⟩, hf⟩, ?_⟩
  rintro label ps rfl
  rcases h with ⟨ss, h⟩ | ⟨_, _, l, ss, heq, hl, hbody⟩
  · exact h.false_of_lambda.elim
  · cases heq
    obtain ⟨-, -, -, qs, hps, -⟩ := Lambda.declare_eq_ok hl
    exact ⟨l, hl, ⟨ρ, ss, hbody⟩, hf.of_mem l.body (by simp [hps])⟩

private theorem bindings {ρ : Report α} : ∀ {es : List (Expr α)}, Check.Bindings none ρ es →
    (∀ e ∈ es, e.IsFinite) → Bindings es
  | [b], h, hf => ⟨⟨ρ, h⟩, hf b List.mem_cons_self⟩
  | _ :: _ :: _, ⟨⟨hn, _⟩, hv, hrest⟩, hf => by
    rw [List.forall_mem_cons, List.forall_mem_cons] at hf
    exact ⟨⟨⟨ρ, hn⟩, hf.1⟩, value_of_admitted hv hf.2.1, bindings hrest hf.2.2⟩

theorem of_scope (h : Regular (.op a .scope es)) : Bindings es := by
  obtain ⟨ρ, ss, hacc⟩ := h.accepted
  exact bindings (bindings_of_scope hacc) h.finite.of_mem

end Regular

/-! ### What folding does -/

open Fold

variable {β : Type}

/-- What an expression folds to. -/
inductive Folds : Expr α → Expr β → Prop
  | lit {a b s} : Folds (.lit a s) (.lit b s)
  | constant {a code es b s} : constant? (.op a code es) = some s →
      Folds (.op a code es) (.lit b s)
  | operator {a code es b fs} : constant? (.op a code es) = none → code ≠ .condition →
      (code = .scope → fs.length ≠ 1) → Forall₂ Folds es fs → Folds (.op a code es) (.op b code fs)
  /-- A scope without bindings is its body. -/
  | scope {a e f} : constant? (.op a .scope [e]) = none → Folds e f → Folds (.op a .scope [e]) f
  /-- A condition loses what cannot matter. -/
  | condition {a es b fs} : constant? (.op a .condition es) = none → Forall₂ Folds es fs →
      (prune fs).length ≠ 1 → Folds (.op a .condition es) (.op b .condition (prune fs))
  /-- A condition of which one operand is left is that operand. -/
  | choice {a es f fs} : constant? (.op a .condition es) = none → Forall₂ Folds es fs →
      prune fs = [f] → Folds (.op a .condition es) f

section

variable {a : α} {b : β} {code : Operator} {e : Expr α} {f : Expr β} {es ps : List (Expr α)}
  {fs : List (Expr β)}

private theorem folds_simplify (code : Operator) {fs : List (Expr NodeId)}
    (hc : constant? (.op a code es) = none) (h : Forall₂ Folds es fs) (store : Store) :
    Folds (.op a code es) (simplify code fs store).1 := by
  unfold simplify
  split
  · obtain ⟨e, _, he, hrest, rfl⟩ := List.forall₂_cons_right_iff.1 h
    obtain rfl := List.forall₂_nil_right_iff.1 hrest
    exact .scope hc he
  · have hcond := Folds.condition (b := (⟨store.size⟩ : NodeId)) hc h
    rcases hp : prune fs with _ | ⟨f, _ | ⟨g, rest⟩⟩
    · rw [hp] at hcond
      exact hcond nofun
    · exact .choice hc h hp
    · rw [hp] at hcond
      exact hcond (by simp)
  · rename_i hne hscope
    refine .operator hc hne (fun hcode hlen => ?_) h
    obtain ⟨body, rfl⟩ := length_eq_one_iff.1 hlen
    exact hscope body hcode rfl

mutual

/-- Folding gives what an expression folds to. -/
theorem folds_fold : (e : Expr α) → (store : Store) → Folds e (fold e store).1
  | .lit a s, store => .lit
  | .op a code es, store => by
    rw [fold]
    cases hc : constant? (.op a code es) with
    | some s => exact .constant hc
    | none => exact folds_simplify code hc (folds_foldAll es store) _

theorem folds_foldAll :
    (es : List (Expr α)) → (store : Store) → Forall₂ Folds es (foldAll es store).1
  | [], _ => .nil
  | e :: es, store => .cons (folds_fold e store) (folds_foldAll es (fold e store).2)

end

/-- A name that is spelled out stays the same. -/
theorem Folds.name?_eq (h : Folds e f) {name : String} (hn : e.name? = some name) :
    f.name? = some name := by
  cases h with
  | lit => exact hn
  | constant | operator | scope | condition | choice => cases hn

theorem exists_of_mem (h : Forall₂ Folds es fs) (hf : f ∈ fs) : ∃ e ∈ es, Folds e f := by
  induction h with
  | nil => cases hf
  | cons h _ ih =>
    rcases List.mem_cons.1 hf with rfl | hf
    · exact ⟨_, List.mem_cons_self, h⟩
    · obtain ⟨e, he, h⟩ := ih hf
      exact ⟨e, List.mem_cons_of_mem _ he, h⟩

/-- What is left of a condition is what one of its operands folds to. -/
private theorem exists_of_prune (h : Forall₂ Folds es fs) (hp : prune fs = [f]) :
    ∃ e ∈ es, Folds e f :=
  exists_of_mem h (mem_of_mem_prune (by rw [hp]; exact List.mem_cons_self))

/-! ### Values -/

/-- A valid literal has a value of its own. -/
theorem constant?_lit {s : Scalar} (hs : s.isValid) : constant? (.lit a s) = some s := by
  rw [constant?_eq_some, Expr.unbounded_start]
  cases s with
  | null | bool | str => rfl
  | num x =>
    have hnode : evalNode unbounded (.lit a (.num x)) Fold.setting .start =
        (if (Scalar.num x).isValid then Pure.pure (Scalar.num x) else EvalM.fail (.overflow a) :
          EvalM α Scalar) Fold.setting _ := rfl
    rw [hnode, if_pos hs]
    rfl

/-- A lambda node has no value of its own. -/
theorem constant?_lambda : constant? (.op a .lambda es) = none := by
  rw [Option.eq_none_iff_forall_ne_some]
  intro s hs
  rw [constant?_eq_some, Expr.unbounded_start] at hs
  -- whether the arity is right or not, the node itself fails
  cases es <;> cases hs

/-- A part with a value of its own has a valid one. -/
theorem isValid_of_constant? {s : Scalar} (h : constant? e = some s) : s.isValid := by
  have hlimits : (Setting.mk .unlimited .empty .timed).limits = .unlimited := rfl
  obtain ⟨_, -, hs, -⟩ :=
    unbounded_of_constant? h (Site.sound_start e) hlimits (d := .start) rfl
  exact hs

/-- Folding keeps all numbers finite. -/
theorem Folds.isFinite (h : Folds e f) (he : e.IsFinite) : f.IsFinite := by
  induction e generalizing f with
  | lit => cases h; exact he
  | op a code es ih =>
    have hall {fs : List (Expr β)} (h : Forall₂ Folds es fs) : ∀ f ∈ fs, f.IsFinite := by
      intro f hf
      obtain ⟨e, hmem, h⟩ := exists_of_mem h hf
      exact ih e hmem h (he.of_mem e hmem)
    cases h with
    | constant hc => exact List.forall_mem_singleton.2 (isValid_of_constant? hc)
    | operator _ _ _ h => exact Expr.isFinite_op (hall h)
    | scope _ h => exact ih _ List.mem_cons_self h (he.of_mem _ List.mem_cons_self)
    | condition _ h => exact Expr.isFinite_op fun f hf => hall h f (mem_of_mem_prune hf)
    | choice _ h hp => exact hall h f (mem_of_mem_prune (hp ▸ List.mem_singleton_self f))

/-- The literal that a part folds to is valid. -/
theorem Folds.isValid {s : Scalar} (h : Folds e (.lit b s)) (he : e.IsFinite) : s.isValid :=
  h.isFinite he s (List.mem_singleton_self s)

/-- An expression that is not a lambda does not become one. -/
theorem Folds.isLambda_eq_false (h : Folds e f) (he : Regular e) : f.isLambda = false := by
  induction e with
  | lit => cases h; rfl
  | op a code es ih =>
    cases h with
    | constant => rfl
    | operator => cases code <;> exact he.isLambda_eq_false
    | condition => rfl
    | scope _ h => exact ih _ List.mem_cons_self h he.of_scope
    | choice _ h hp =>
      obtain ⟨e, hmem, h⟩ := exists_of_prune h hp
      exact ih e hmem h (he.of_mem (by decide) e hmem)

/-- A lambda stays a lambda. -/
theorem Folds.of_lambda (h : Folds (.op a .lambda es) f) :
    ∃ b fs, f = .op b .lambda fs ∧ Forall₂ Folds es fs := by
  cases h with
  | constant hc => cases constant?_lambda.symm.trans hc
  | operator _ _ _ h => exact ⟨_, _, rfl, h⟩

end

end OpTree
