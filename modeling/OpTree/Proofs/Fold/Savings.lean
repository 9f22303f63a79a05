import OpTree.Proofs.Fold.Relation

/-!
# What folding saves

A folded expression does less than the expression, and so it counts less. The names of types are the
exception: they are not counted, but a literal that one of them is folded to is. Every visit of a
`typeOf` node in a part that is folded to a string may cost one string more, and `Counter.perType`
says how much that is for each counter.

`Saves known c d` compares the states of both evaluations: the same host calls have been made, and
the counters on the right are not above those on the left, given what the visits of `known` nodes
may cost. The side that has gone on alone is dealt with by `Saves.mono_left` and
`Saves.mono_right`.
-/

namespace OpTree

open Eval

variable {α β : Type}

/-- What the name of a type can add to a counter, which has at most seven characters. -/
def Counter.perType : Counter → Nat
  | strCount => 1
  | strChars => 7
  | _ => 0

/-- Counts a scalar that appears, if it is a string. -/
def Usage.countScalar (usage : Usage) : Scalar → Usage
  | .str s => usage.countString s.length
  | _ => usage

theorem Usage.opCount_countScalar (usage : Usage) (s : Scalar) :
    (usage.countScalar s).stats.opCount = usage.stats.opCount := by
  cases s <;> rfl

namespace Fold

/-! ### Names of types that are folded -/

mutual

/-- The labels of the `typeOf` nodes in the parts that folding replaces by a string. -/
def foldedTypes : Expr α → List α
  | .lit .. => []
  | .op a code es =>
    match constant? (.op a code es) with
    | some (.str _) => (Expr.op a code es).types
    | some _ => []
    | none => foldedTypesAll es

/-- The labels of the `typeOf` nodes in the parts of several expressions that folding replaces by a
string. -/
def foldedTypesAll : List (Expr α) → List α
  | [] => []
  | e :: es => foldedTypes e ++ foldedTypesAll es

end

theorem foldedTypes_subset_foldedTypesAll {e : Expr α} {es : List (Expr α)} (he : e ∈ es) :
    foldedTypes e ⊆ foldedTypesAll es := by
  induction es with
  | nil => exact absurd he List.not_mem_nil
  | cons e' es ih =>
    rcases List.mem_cons.1 he with rfl | he
    · exact List.subset_append_left _ _
    · exact List.subset_append_of_subset_right _ (ih he)

/-- All `typeOf` nodes in parts that folding replaces by a string are known. -/
def FoldedKnown (known : α → Bool) (e : Expr α) : Prop :=
  ∀ a ∈ foldedTypes e, known a

variable {known : α → Bool}

/-- The operands of what is not replaced are known. -/
theorem FoldedKnown.of_mem {a : α} {code : Operator} {es : List (Expr α)}
    (h : FoldedKnown known (.op a code es)) (hc : constant? (.op a code es) = none) :
    ∀ e ∈ es, FoldedKnown known e := by
  intro e he b hb
  refine h b ?_
  rw [foldedTypes, hc]
  exact foldedTypes_subset_foldedTypesAll he hb

theorem FoldedKnown.of_constant? {e : Expr α} {t : String} (h : FoldedKnown known e)
    (hc : constant? e = some (.str t)) : e.TypesKnown known := by
  cases e with
  | lit => exact nofun
  | op a code es =>
    intro b hb
    refine h b ?_
    rwa [foldedTypes, hc]

/-! ### Literals -/

/-- Without limits a valid literal is visited and counted. -/
theorem unbounded_lit {b : β} {s : Scalar} (hs : s.isValid) {τ : ScopeStack β}
    (hτ : Site.Sound ⟨τ, .lit b s, []⟩) {setting : Setting}
    (hlimits : setting.limits = .unlimited) {d : State β} (hd : d.scopes = τ) :
    unbounded (.lit b s) setting d =
      (.ok s, { d.visited b with usage := d.usage.countOp.countScalar s }) := by
  obtain ⟨_, host, executor⟩ := setting
  obtain rfl := hlimits
  have hnode : unbounded (.lit b s) ⟨.unlimited, host, executor⟩ d =
      answer unbounded (.lit b s) ⟨.unlimited, host, executor⟩ (d.visited b) :=
    Site.unbounded_eq hτ _ hd
  rw [hnode, answer, if_pos hs]
  cases s <;> rfl

/-! ### The relation -/

/-- The same host calls have been made, in the same time, and the right-hand side has not counted
more than the left-hand side and what the visits of known nodes may cost. -/
structure Saves (known : α → Bool) (c : State α) (d : State β) : Prop where
  history : c.history = d.history
  clock : c.clock = d.clock
  depth : d.usage.scopeDepth ≤ c.usage.scopeDepth
  stats : ∀ counter, d.usage.stats.value counter ≤
    c.usage.stats.value counter + counter.perType * visitsOf known c.trace

namespace Saves

variable {c c' : State α} {d d' : State β}

theorem start : Saves known (.start : State α) (.start : State β) :=
  ⟨rfl, rfl, Nat.le_refl _, fun counter => by cases counter <;> exact Nat.zero_le _⟩

/-- Scopes do not matter. -/
theorem bare_iff : Saves known c.bare d.bare ↔ Saves known c d :=
  ⟨fun h => ⟨h.history, h.clock, h.depth, h.stats⟩,
    fun h => ⟨h.history, h.clock, h.depth, h.stats⟩⟩

/-- The left-hand side may count more. -/
theorem mono_left (h : Saves known c d) (hhistory : c'.history = c.history)
    (hclock : c'.clock = c.clock) (hdepth : c.usage.scopeDepth ≤ c'.usage.scopeDepth)
    (hstats : ∀ counter, c.usage.stats.value counter ≤ c'.usage.stats.value counter)
    (htrace : c.trace <:+ c'.trace) : Saves known c' d := by
  refine ⟨hhistory.trans h.history, hclock.trans h.clock, h.depth.trans hdepth, fun counter => ?_⟩
  have hvisits : visitsOf known c.trace ≤ visitsOf known c'.trace := visitsOf_le_of_suffix htrace
  calc d.usage.stats.value counter
      ≤ c.usage.stats.value counter + counter.perType * visitsOf known c.trace := h.stats counter
    _ ≤ _ := Nat.add_le_add (hstats counter) (Nat.mul_le_mul_left _ hvisits)

/-- The right-hand side may count less. -/
theorem mono_right (h : Saves known c d') (hd : d.Precedes d') (hhistory : d'.history = d.history)
    (hclock : d'.clock = d.clock) : Saves known c d :=
  ⟨h.history.trans hhistory, h.clock.trans hclock, hd.depth ▸ h.depth,
    fun counter => (hd.stats counter).trans (h.stats counter)⟩

/-- Both sides may count the same. -/
theorem counts (h : Saves known c d) {f : Usage → Usage} (hf : Usage.Counts f) :
    Saves known { c with usage := f c.usage } { d with usage := f d.usage } := by
  have hdepth := h.depth
  refine ⟨h.history, h.clock, ?_, fun counter => ?_⟩
  · cases hf <;> simp only [Usage.countOp, Usage.countVar, Usage.countString, Usage.openScope,
      Usage.closeScope] <;> omega
  · have hstats := h.stats counter
    generalize counter.perType * visitsOf known c.trace = extra at hstats ⊢
    cases hf <;> cases counter <;> simp only [Usage.countOp, Usage.countVar, Usage.countString,
      Usage.openScope, Usage.closeScope, Stats.value] at hstats ⊢ <;> omega

/-- Events may be added. -/
theorem note (h : Saves known c d) (event : Event α) (event' : Event β) :
    Saves known (c.note event) (d.note event') := by
  have hleft : Saves known (c.note event) d :=
    h.mono_left rfl rfl (Nat.le_refl _) (fun _ => Nat.le_refl _) (List.suffix_cons _ _)
  exact ⟨hleft.history, hleft.clock, hleft.depth, hleft.stats⟩

/-- A node is visited on both sides. -/
theorem visited (h : Saves known c d) (a : α) (b : β) :
    Saves known (c.visited a) (d.visited b) :=
  (h.note (.visit a) (.visit b)).counts .op

/-- **A part that is replaced.** On the left a part has been evaluated to a value, which is
accounted for if it is a string, and on the right the value has been spelled out. -/
theorem constant (h : Saves known c d) {a : α} {b : β} {s : Scalar}
    (hc : (c.visited a).Precedes c') (hhistory : c'.history = c.history)
    (hclock : c'.clock = c.clock) (hs : ∀ t, s = .str t → c.Accounts known c' t) :
    Saves known c' { d.visited b with usage := d.usage.countOp.countScalar s } := by
  have hvisited := h.visited a b
  have hplain : Saves known c' (d.visited b) :=
    hvisited.mono_left hhistory hclock hc.depth.ge hc.stats hc.trace
  cases s with
  | null | num | bool => exact hplain
  | str t =>
    refine ⟨hplain.history, hplain.clock, hplain.depth, fun counter => ?_⟩
    have hbefore := h.stats counter
    have hafter := hplain.stats counter
    have hmore : c.usage.stats.value counter ≤ c'.usage.stats.value counter :=
      (Usage.Counts.op.value_le c.usage counter).trans (hc.stats counter)
    have hvisits : visitsOf known c.trace ≤ visitsOf known c'.trace :=
      visitsOf_le_of_suffix ((List.suffix_cons _ _).trans hc.trace)
    cases counter with
    | opCount | scopeCount | scopeDepth | varCount => exact hafter
    | strCount =>
      change d.usage.stats.strCount + 1 ≤ c'.usage.stats.strCount + 1 * visitsOf known c'.trace
      simp only [Stats.value, Counter.perType] at hbefore hmore
      rcases hs t rfl with ⟨hcount, -⟩ | ⟨-, hvisit⟩ <;> omega
    | strChars =>
      change d.usage.stats.strChars + t.length ≤
        c'.usage.stats.strChars + 7 * visitsOf known c'.trace
      simp only [Stats.value, Counter.perType] at hbefore hmore
      rcases hs t rfl with ⟨-, hchars⟩ | ⟨hlen, hvisit⟩ <;> omega

end Saves

end Fold

end OpTree
