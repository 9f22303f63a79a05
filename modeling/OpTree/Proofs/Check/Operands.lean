import OpTree.Proofs.Check.Acceptance

/-!
# The operands of what a check accepts

A check that accepts an expression has gone through all of its parts. Most of them it has accepted
as expressions of their own, inside of some scopes; a lambda it has not, but it has accepted its
body (`Admitted`). Some operands stand for names (`Operator.names`), and if such an operand is not a
literal there is a warning.

Main statement: `Admitted.operands`, both facts for the operands of any operator.
-/

namespace OpTree

namespace Check

variable {α : Type} {ρ : Report α} {A : Option (List String)} {frames below : List StaticFrame}
  {a : α} {code : Operator} {e n : Expr α} {es : List (Expr α)} {last : StaticFrame}
  {name : Option String}

/-- A check has accepted the expression inside of some scopes, or the body of the lambda that it
declares. -/
def Admitted (A : Option (List String)) (ρ : Report α) (e : Expr α) : Prop :=
  (∃ ss, Accepted ρ (check A ss e) ()) ∨
    ∃ label ps l ss, e = .op label .lambda ps ∧ Lambda.declare label ps = .ok l ∧
      Accepted ρ (check A ss l.body) ()

/-- The operand is a literal, or there is a warning of a computed name. -/
def Named (ρ : Report α) (n : Expr α) : Prop :=
  n.literal? ≠ none ∨ ∃ node code, .dynamicName node code ∈ ρ.warnings

/-- Only of a lambda the body has been accepted in its place. -/
theorem Admitted.accepted (h : Admitted A ρ e) (he : e.isLambda = false) :
    ∃ ss, Accepted ρ (check A ss e) () := by
  rcases h with h | ⟨label, ps, l, ss, rfl, -⟩
  · exact h
  · cases he

/-- Literals are accepted everywhere. -/
theorem admitted_of_literal? {s : Scalar} (h : e.literal? = some s) : Admitted A ρ e := by
  cases e with
  | lit => exact .inl ⟨[], ρ, ρ, rfl, .refl ρ⟩
  | op => cases h

private theorem literal?_of_name? {s : String} (h : e.name? = some s) :
    e.literal? = some (.str s) := by
  obtain ⟨t, ht, hs⟩ := Option.bind_eq_some_iff.1 h
  cases t with
  | str => cases hs; exact ht
  | null | num | bool => cases hs

/-- An operand that is checked as a name is accepted, and it spells the name or is warned of. -/
theorem accepted_of_nameOf (h : Accepted ρ (nameOf a code n (check A frames n)) name) :
    (∃ ss, Accepted ρ (check A ss n) ()) ∧ Named ρ n := by
  refine ⟨⟨frames, h.of_nameOf_check⟩, ?_⟩
  rcases h.of_nameOf with ⟨s, hs, -⟩ | ⟨-, -, -, hw⟩
  · obtain ⟨t, ht⟩ := Expr.exists_literal? hs
    exact .inl (by simp [ht])
  · exact .inr ⟨a, code, hw⟩

/-- What a check has accepted of a scope, from some binding on. -/
def Bindings (A : Option (List String)) (ρ : Report α) : List (Expr α) → Prop
  | [] => False
  | [body] => ∃ ss, Accepted ρ (check A ss body) ()
  | name :: value :: rest =>
    ((∃ ss, Accepted ρ (check A ss name) ()) ∧ Named ρ name) ∧ Admitted A ρ value ∧
      Bindings A ρ rest

private theorem bindings_of_checkBindings :
    ∀ (es : List (Expr α)) (frame : StaticFrame), es.length % 2 = 1 →
      Accepted ρ (checkBindings A frames a frame es) last →
      Accepted ρ (checkLambdas A below es) () → Accepted ρ (checkLast A below es) () →
      Bindings A ρ es
  | [], _, hodd, _, _, _ => by cases hodd
  | [b], _, _, _, _, hlast => ⟨below, hlast.of_checkLast_of_suffix (List.suffix_refl _)⟩
  | n :: v :: rest, frame, hodd, hbind, hlam, hlast => by
    obtain ⟨name, next, hn, hdecl, hrest⟩ := hbind.of_binding
    have hodd' : rest.length % 2 = 1 := by
      simp only [List.length_cons] at hodd
      omega
    -- the last operand is the same one after two have been dropped
    have hlast' : Accepted ρ (checkLast A below rest) () := by
      cases rest with
      | nil => cases hodd'
      | cons r rest => exact hlast
    have hv : Admitted A ρ v := by
      cases hl : v.isLambda with
      | false => exact .inl ⟨frames, hdecl.of_declare_constant hl⟩
      | true =>
        match v, hl, hdecl, hlam with
        | .op label .lambda ps, _, hdecl, hlam =>
          obtain ⟨l, hl⟩ := hdecl.of_declare.2 label ps rfl
          exact .inr ⟨label, ps, l, _, rfl, hl, hlam.of_checkLambdas hl⟩
    exact ⟨accepted_of_nameOf hn, hv,
      bindings_of_checkBindings rest next hodd' hrest hlam.of_checkLambdas_tail hlast'⟩

/-- A check that accepts a scope has accepted its names, its values and its body. -/
theorem bindings_of_scope {ss : List StaticFrame}
    (h : Accepted ρ (check A ss (.op a .scope es)) ()) : Bindings A ρ es := by
  obtain ⟨hodd, frame, hbind, hlam, hlast⟩ := h.of_scope
  exact bindings_of_checkBindings es .empty hodd hbind hlam hlast

private theorem Bindings.operands : ∀ {es : List (Expr α)}, Bindings A ρ es →
    (∀ e ∈ es, Admitted A ρ e) ∧ ∀ n ∈ bindingNames es, Named ρ n
  | [_], h => ⟨List.forall_mem_singleton.2 (.inl h), nofun⟩
  | _ :: _ :: _, ⟨⟨hn, hnamed⟩, hv, hrest⟩ => by
    obtain ⟨hall, hnames⟩ := hrest.operands
    exact ⟨List.forall_mem_cons.2 ⟨.inl hn, List.forall_mem_cons.2 ⟨hv, hall⟩⟩,
      List.forall_mem_cons.2 ⟨hnamed, hnames⟩⟩

/-- **Operands.** All operands of what has been admitted have been admitted, and the names among
them are literals unless there is a warning. -/
theorem Admitted.operands (h : Admitted A ρ (.op a code es)) :
    (∀ e ∈ es, Admitted A ρ e) ∧ ∀ n ∈ code.names es, Named ρ n := by
  rcases h with ⟨ss, h⟩ | ⟨label, ps, l, ss, heq, hl, hbody⟩
  · rcases code.isPlain_or with hp | rfl | rfl | rfl | rfl
    · have hnames : code.names es = [] := by
        cases code <;> first | rfl | cases hp
      exact ⟨fun e he => .inl ⟨ss, (h.of_plain hp).2 e he⟩, by simp [hnames]⟩
    · obtain ⟨n, args, name, rfl, hn, -, hargs⟩ := h.of_call
      obtain ⟨hn, hnamed⟩ := accepted_of_nameOf hn
      exact ⟨List.forall_mem_cons.2 ⟨.inl hn, fun e he => .inl ⟨ss, hargs e he⟩⟩,
        List.forall_mem_singleton.2 hnamed⟩
    · obtain ⟨n, name, rfl, hn, -⟩ := h.of_lookup
      obtain ⟨hn, hnamed⟩ := accepted_of_nameOf hn
      exact ⟨List.forall_mem_singleton.2 (.inl hn), List.forall_mem_singleton.2 hnamed⟩
    · exact (bindings_of_scope h).operands
    · exact h.false_of_lambda.elim
  · cases heq
    obtain ⟨-, -, -, qs, rfl, hqs⟩ := Lambda.declare_eq_ok hl
    -- the parameters spell names
    have hlit : ∀ q ∈ qs, ∃ s, q.literal? = some s := fun q hq => by
      have hname : q.name? ∈ l.params.map some := hqs ▸ List.mem_map_of_mem hq
      obtain ⟨s, -, hs⟩ := List.mem_map.1 hname
      exact ⟨_, literal?_of_name? hs.symm⟩
    refine ⟨fun e he => ?_, fun n hn => ?_⟩
    · rcases List.mem_append.1 he with he | he
      · exact admitted_of_literal? (hlit e he).choose_spec
      · obtain rfl := List.mem_singleton.1 he
        exact .inl ⟨ss, hbody⟩
    · have hn : n ∈ qs := by simpa [Operator.names] using hn
      obtain ⟨s, hs⟩ := hlit n hn
      exact .inl (by simp [hs])

end Check

end OpTree
