import OpTree.Proofs.Check.Matching
import OpTree.Proofs.Evaluation.Contracts

/-!
# The check is sound for the evaluation

An expression that a check accepts keeps a contract: at every visit the visible frames match the
static frames that the expression was checked in. What can then go wrong with names and operands has
been foreseen by a warning, and so has every host call that the report does not list. The contract
does not depend on the limits, on the host calls or on how deep the evaluation is nested.

Main statements: `Expr.foresees_of_check` for errors and `Expr.permits_of_check` for host calls.
-/

namespace OpTree

variable {α : Type}

/-- The errors that a check looks for. -/
def EvalError.isStatic : EvalError α → Bool
  | invalidArity .. | misplacedLambda _ | invalidName .. | duplicateName ..
  | uninitializedVariable .. | lambdaArity .. => true
  | _ => false

namespace Report

variable (r : Report α)

/-- A name is computed at the node. -/
def WarnsOfName (node : α) : Prop :=
  ∃ code, .dynamicName node code ∈ r.warnings

/-- What a report says about the errors to expect. -/
def Foresees : EvalError α → Prop
  | .invalidArity .. | .misplacedLambda _ => False
  | .invalidName node _ | .duplicateName node .. => r.WarnsOfName node
  | .uninitializedVariable node name =>
    r.WarnsOfName node ∨ .unresolvedLookup node name ∈ r.warnings
  | .lambdaArity node .. => r.WarnsOfName node ∨ ∃ scope, .dynamicName scope .scope ∈ r.warnings
  | _ => True

/-- The host call is listed, and it is allowed. -/
def Lists (allowed : Option (List String)) (name : String) : Prop :=
  name ∈ r.calls ∧ ∀ names, allowed = some names → name ∈ names

/-- What a report says about a host call to expect at a node. -/
def Permits (allowed : Option (List String)) (node : α) (name : String) : Prop :=
  r.Lists allowed name ∨ r.WarnsOfName node ∨ .unresolvedCall node name ∈ r.warnings

variable {r}

/-- A report without warnings rules all errors out that a check looks for. -/
theorem Foresees.isStatic_eq_false {err : EvalError α} (h : r.Foresees err)
    (hw : r.warnings = []) : err.isStatic = false := by
  cases err <;> simp_all [Foresees, WarnsOfName, EvalError.isStatic]

/-- A report without warnings lists every host call that it permits. -/
theorem Permits.lists {allowed : Option (List String)} {node : α} {name : String}
    (h : r.Permits allowed node name) (hw : r.warnings = []) : r.Lists allowed name := by
  simpa [Permits, WarnsOfName, hw] using h

end Report

namespace Check

variable {allowed : Option (List String)} {ρ : Report α} {ss : List StaticFrame} {node : α}
  {name : String} {depth : Nat} {l : Lambda α} {σ : ScopeStack α} {e n v : Expr α}
  {es rest : List (Expr α)} {f : Frame α} {u : Unit}

/-! ### References -/

/-- A lookup that finds nothing has been warned of. -/
theorem warned_of_checkLookup (hm : Matches allowed ρ ss σ.visible)
    (h : Accepted ρ (checkLookup ss node (some name)) u) (hn : σ.constant? name = none) :
    .unresolvedLookup node name ∈ ρ.warnings := by
  rw [checkLookup] at h
  split at h
  · rename_i hd
    exact absurd hn (hm.constant?_ne_none hd)
  · exact h.mem_warnings
  · exact h.false_of_throw.elim

/-- A call that finds no lambda is listed, or it has been warned of. -/
theorem listed_of_checkCall {args : Nat} (hm : Matches allowed ρ ss σ.visible)
    (h : Accepted ρ (checkCall allowed ss node args (some name)) u)
    (hn : σ.lambda? name = none) :
    ρ.Lists allowed name ∨ .unresolvedCall node name ∈ ρ.warnings := by
  have hlists (hp : (allowed.all fun names => decide (name ∈ names)) = true)
      (hr : Accepted ρ (record (·.addCall name)) u) : ρ.Lists allowed name := by
    refine ⟨hr.mem_calls, ?_⟩
    rintro names rfl
    simpa using hp
  rw [checkCall] at h
  split at h
  · rename_i hd
    exact absurd hn (hm.lambda?_ne_none hd)
  · split at h
    · rename_i hp
      exact .inl (hlists hp h)
    · exact h.false_of_throw.elim
  · split at h
    · rename_i hp
      exact .inl (hlists hp h)
    · exact .inr h.mem_warnings

/-- If no name of a scope is computed, a lambda that is called takes as many arguments. -/
theorem length_of_checkCall {args : Nat} (hm : Matches allowed ρ ss σ.visible)
    (h : Accepted ρ (checkCall allowed ss node args (some name)) u)
    (hw : ∀ scope, .dynamicName scope .scope ∉ ρ.warnings)
    (hl : σ.lambda? name = some (depth, l)) : l.params.length = args := by
  rw [checkCall, hm.standing_of_lambda? hw hl] at h
  dsimp only at h
  split at h
  · assumption
  · exact h.false_of_throw.elim

/-- The name that an evaluation finds is the one that was checked, or there is a warning. -/
theorem name_of_accepted {code : Operator} {visit : CheckM α Unit} {known : Option String}
    (h : Accepted ρ (nameOf node code e visit) known) (hn : e.MayName name) :
    known = some name ∨ known = none ∧ ρ.WarnsOfName node := by
  rcases h.of_nameOf with ⟨s, hs, rfl⟩ | ⟨-, hk, -, hw⟩
  · exact .inl (congrArg some (hn s hs))
  · exact .inr ⟨hk, code, hw⟩

/-- A computed name has been checked as an expression, and warned of. -/
theorem computed_of_accepted {code : Operator} {visit : CheckM α Unit} {known : Option String}
    (h : Accepted ρ (nameOf node code e visit) known) (hn : e.name? = none) :
    Accepted ρ visit () ∧ ρ.WarnsOfName node := by
  rcases h.of_nameOf with ⟨s, hs, -⟩ | ⟨-, -, hv, hw⟩
  · rw [hn] at hs
    cases hs
  · exact ⟨hv, code, hw⟩

/-- The computed name of a lookup or a call has been checked as an expression, and warned of. -/
theorem computed_of_check {code : Operator} (hcode : code = .lookup ∨ code = .call)
    (h : Accepted ρ (check allowed ss (.op node code (e :: es))) u) (hn : e.name? = none) :
    Accepted ρ (check allowed ss e) () ∧ ρ.WarnsOfName node := by
  rcases hcode with rfl | rfl
  · obtain ⟨_, known, he, hname, -⟩ := h.of_lookup
    cases he
    exact computed_of_accepted hname hn
  · obtain ⟨_, args, known, he, hname, -⟩ := h.of_call
    cases he
    exact computed_of_accepted hname hn

/-! ### The contract -/

/-- The expression has been checked inside of static frames that match the visible ones. -/
def Checked (allowed : Option (List String)) (ρ : Report α) (κ : Site α) : Prop :=
  ∃ ss, Matches allowed ρ ss κ.scopes.visible ∧ Accepted ρ (check allowed ss κ.expr) ()

/-- What is promised of an expression that has been checked. -/
def contract (allowed : Option (List String)) (ρ : Report α) : Contract α where
  holds := Checked allowed ρ
  error := ρ.Foresees
  trace happened := ∀ node name, .external node name ∈ happened → ρ.Permits allowed node name
  invokes name := ρ.warnings = [] → ρ.Lists allowed name

section Scopes

variable {a : α} {calls : List α}

/-- What is known of the next binding of a scope that has been checked. -/
private theorem binding (h : Checked allowed ρ ⟨σ, .op a .scope es, calls⟩)
    (hb : Binds es f (n :: v :: rest)) : ∃ ss s known s', Matches allowed ρ ss σ.visible ∧
      Accepted ρ (nameOf a .scope n (check allowed ss n)) known ∧
      Accepted ρ (declare a s known v (check allowed ss v)) s' ∧
      (s.dynamic → ρ.WarnsOfName a) ∧
      (s.dynamic = false → ∀ x, (f.constants.find? x).isSome → x ∈ s.constants) ∧
      (s.dynamic = false → ∀ x, (f.lambdas.find? x).isSome → s.lambdas.lookup x ≠ none) := by
  obtain ⟨ss, hm, hacc⟩ := h
  obtain ⟨-, last, hbind, hlam, -⟩ := hacc.of_scope
  obtain ⟨s, hrest, -, hdesc, hw⟩ := described_of_binds hb hbind hlam
  obtain ⟨known, s', hname, hdecl, -⟩ := hrest.of_binding
  refine ⟨ss, s, known, s', hm, hname, hdecl, fun hd => ⟨_, hw hd⟩, hdesc.constants_of, ?_⟩
  intro hd x hx hnone
  obtain ⟨l, hl⟩ := Option.isSome_iff_exists.1 hx
  rw [hdesc.lambdas_of hd x l hl] at hnone
  cases hnone

/-- A name is declared twice only if names are computed. -/
private theorem warned_of_duplicate_constant (h : Checked allowed ρ ⟨σ, .op a .scope es, calls⟩)
    (hb : Binds es f (n :: v :: rest)) (hn : n.MayName name) (hv : v.isLambda = false)
    (hdup : (f.constants.find? name).isSome) : ρ.WarnsOfName a := by
  obtain ⟨ss, s, known, s', -, hname, hdecl, hw, hconst, -⟩ := binding h hb
  rcases name_of_accepted hname hn with rfl | ⟨-, hwarn⟩
  · cases hdecl.of_declare.1 with
    | lambda => cases hv
    | constant _ hnew =>
      -- the check has found the name new, so it can only be there if it was computed
      by_cases hd : s.dynamic = true
      · exact hw hd
      · exact absurd (hconst (by simpa using hd) name hdup) hnew
  · exact hwarn

private theorem warned_of_duplicate_lambda {label : α} {ps : List (Expr α)}
    (h : Checked allowed ρ ⟨σ, .op a .scope es, calls⟩)
    (hb : Binds es f (n :: .op label .lambda ps :: rest)) (hn : n.MayName name)
    (hdup : (f.lambdas.find? name).isSome) : ρ.WarnsOfName a := by
  obtain ⟨ss, s, known, s', -, hname, hdecl, hw, -, hlam⟩ := binding h hb
  rcases name_of_accepted hname hn with rfl | ⟨-, hwarn⟩
  · cases hdecl.of_declare.1 with
    | constant hv => cases hv
    | lambda _ hnew =>
      by_cases hd : s.dynamic = true
      · exact hw hd
      · exact absurd hnew (hlam (by simpa using hd) name hdup)
  · exact hwarn

end Scopes

private theorem checked_of_leads {κ κ' : Site α} (h : Checked allowed ρ κ) (hl : κ.Leads κ') :
    Checked allowed ρ κ' := by
  have h₀ := h
  obtain ⟨ss, hm, hacc⟩ := h
  cases hl with
  | operand hp he => exact ⟨ss, hm, (hacc.of_plain hp).2 _ he⟩
  | name hcode hn => exact ⟨ss, hm, (computed_of_check hcode hacc hn).1⟩
  | bindingName hb hn =>
    obtain ⟨ss, s, known, s', hm, hname, -⟩ := binding h₀ hb
    exact ⟨ss, hm, (computed_of_accepted hname hn).1⟩
  | bindingValue hb hv =>
    obtain ⟨ss, s, known, s', hm, -, hdecl, -⟩ := binding h₀ hb
    exact ⟨ss, hm, hdecl.of_declare_constant hv⟩
  | scopeBody hb =>
    obtain ⟨-, last, hbind, hlam, hlast⟩ := hacc.of_scope
    obtain ⟨s, hrest, -, hdesc, hw⟩ := described_of_binds hb hbind hlam
    obtain rfl : s = last := hrest.eq_of_pure
    exact ⟨s :: ss, .cons hdesc (fun hd => ⟨_, hw hd⟩) hm, hlast.of_checkLast_of_suffix hb.suffix⟩
  | argument _ _ _ _ he =>
    obtain ⟨n, args, known, hes, -, -, hargs⟩ := hacc.of_call
    cases hes
    exact ⟨ss, hm.mark _ _ _, hargs _ he⟩
  | lambdaBody _ hl _ _ hp =>
    obtain ⟨ss', hm', hbody⟩ := hm.body hl
    exact ⟨_ :: ss', .cons (.ofParams hp) nofun hm', hbody⟩
  | hostArgument _ _ he =>
    obtain ⟨n, args, known, hes, -, -, hargs⟩ := hacc.of_call
    cases hes
    exact ⟨ss, hm, hargs _ he⟩

private theorem foresees_of_fault {setting : Setting} {κ : Site α} {err : EvalError α}
    (h : Checked allowed ρ κ) (hf : κ.Fault setting err) : ρ.Foresees err := by
  have h₀ := h
  obtain ⟨ss, hm, hacc⟩ := h
  cases hf with
  | literal | recursion | limitExceeded | timeout => trivial
  | arity ha => exact absurd hacc.of_arity (by simp [ha])
  | plain _ hp => cases hp <;> trivial
  | host _ _ hh => cases hh <;> trivial
  | lambda => exact hacc.false_of_lambda
  | name hcode hn => exact (computed_of_check hcode hacc hn).2
  | bindingName hb hn =>
    obtain ⟨ss, s, known, s', -, hname, -⟩ := binding h₀ hb
    exact (computed_of_accepted hname hn).2
  | duplicateConstant hb hn hv hdup => exact warned_of_duplicate_constant h₀ hb hn hv hdup
  | duplicateLambda hb hn hdup => exact warned_of_duplicate_lambda h₀ hb hn hdup
  | declare hb herr =>
    obtain ⟨ss, s, known, s', -, -, hdecl, -⟩ := binding h₀ hb
    obtain ⟨l, hok⟩ := hdecl.of_declare.2 _ _ rfl
    rw [hok] at herr
    cases herr
  | lookup hn hnone =>
    obtain ⟨e, known, he, hname, hlook⟩ := hacc.of_lookup
    cases he
    rcases name_of_accepted hname hn with rfl | ⟨-, hwarn⟩
    · exact .inr (warned_of_checkLookup hm hlook hnone)
    · exact .inl hwarn
  | lambdaArity hn hl hlen =>
    obtain ⟨n, args, known, he, hname, hcall, -⟩ := hacc.of_call
    cases he
    rcases name_of_accepted hname hn with rfl | ⟨-, hwarn⟩
    · refine .inr ?_
      by_contra hw
      exact hlen (length_of_checkCall hm hcall (not_exists.1 hw) hl)
    · exact .inl hwarn

/-- A call that finds no lambda is one that the report permits. -/
private theorem permits_of_checked {a : α} {calls : List α}
    (h : Checked allowed ρ ⟨σ, .op a .call (n :: es), calls⟩) (hn : n.MayName name)
    (hnone : σ.lambda? name = none) : ρ.Permits allowed a name := by
  obtain ⟨ss, hm, hacc⟩ := h
  obtain ⟨n, args, known, he, hname, hcall, -⟩ := hacc.of_call
  cases he
  rcases name_of_accepted hname hn with rfl | ⟨-, hwarn⟩
  · exact (listed_of_checkCall hm hcall hnone).imp id .inr
  · exact .inr (.inl hwarn)

/-- What has been checked is kept. -/
theorem kept_contract (setting : Setting) : (contract allowed ρ).Kept setting where
  leads hκ _ h := checked_of_leads hκ h
  fault hκ _ h := foresees_of_fault hκ h
  notes := by
    intro κ event before hκ _ hn _ ht node name hmem
    rcases List.mem_cons.1 hmem with rfl | hmem
    · cases hn with
      | external hname hnone => exact permits_of_checked hκ hname hnone
    · exact ht node name hmem
  leave := by
    intro before ht node name hmem
    rcases List.mem_cons.1 hmem with h | hmem
    · cases h
    · exact ht node name hmem
  invokes := by
    intro κ name hκ _ hi hw
    cases hi with
    | call hname hnone => exact (permits_of_checked hκ hname hnone).lists hw

/-- What a check that succeeds promises of a run. -/
theorem met_of_check {e : Expr α} {r : Report α} (h : e.check allowed = .ok r)
    (setting : Setting) : (contract allowed r).Met (e.run setting) :=
  (kept_contract setting).met trivial ⟨[], .nil, accepted_of_check h⟩ nofun _

end Check

namespace Expr

variable {e : Expr α} {allowed : Option (List String)} {r : Report α}

/-- **The check is sound for the evaluation.** If a check succeeds, with whatever list of allowed
host calls, then an evaluation, with whatever limits and host calls, ends with no error about
names and operands that the report has not foreseen; and with none at all if the report has no
warnings. -/
theorem foresees_of_check (h : e.check allowed = .ok r) (setting : Setting) {err : EvalError α}
    (herr : (e.run setting).outcome = .error err) :
    r.Foresees err ∧ (r.warnings = [] → err.isStatic = false) := by
  have hf : r.Foresees err := (Check.met_of_check h setting).error err herr
  exact ⟨hf, hf.isStatic_eq_false⟩

/-- A lookup of a name that is computed, and is no string. -/
theorem foresees_of_check_computed_name :
    let e : Expr Nat := .op 0 .lookup [.op 1 .isNull [.lit 2 .null]]
    let r : Report Nat := ⟨2, [], [.dynamicName 0 .lookup]⟩
    e.check none = .ok r ∧ (e.run ⟨.unlimited, .empty, .timed⟩).outcome =
        .error (.invalidName 0 .lookup) ∧
      r.Foresees (.invalidName 0 .lookup) ∧
        (r.warnings = [] → (EvalError.invalidName 0 Operator.lookup).isStatic = false) := by
  intro e r
  have hcheck : e.check none = .ok r := rfl
  have hrun : (e.run ⟨.unlimited, .empty, .timed⟩).outcome = .error (.invalidName 0 .lookup) := rfl
  exact ⟨hcheck, hrun, foresees_of_check hcheck _ hrun⟩

/-- **The report knows the host calls.** If a check succeeds, then every call that comes to name a
host call, there or not, is listed and allowed, or the report warns of it; and if the report has no
warnings, only host calls that are listed and allowed are invoked. -/
theorem permits_of_check (h : e.check allowed = .ok r) (setting : Setting) :
    (∀ node name, .external node name ∈ (e.run setting).trace → r.Permits allowed node name) ∧
      (r.warnings = [] → ∀ i ∈ (e.run setting).calls, r.Lists allowed i.name) := by
  have hmet := Check.met_of_check h setting
  refine ⟨fun node name hmem => ?_, fun hw i hi => hmet.invokes i hi hw⟩
  exact hmet.trace node name (List.mem_reverse.2 hmem)

/-- One host call, which is allowed. -/
theorem permits_of_check_call :
    let f : CallTable := ⟨⟨[("f", .constant .null)]⟩⟩
    let setting : Setting := ⟨.unlimited, ⟨f, none, .empty⟩, .timed⟩
    let e : Expr Nat := .op 0 .call [.lit 1 (.str "f")]
    let r : Report Nat := ⟨1, ["f"], []⟩
    e.check (some ["f", "g"]) = .ok r ∧ (e.run setting).calls = [⟨"f", []⟩] ∧
      (∀ node name, .external node name ∈ (e.run setting).trace →
        r.Permits (some ["f", "g"]) node name) ∧
        (r.warnings = [] → ∀ i ∈ (e.run setting).calls, r.Lists (some ["f", "g"]) i.name) := by
  intro f setting e r
  have hcheck : e.check (some ["f", "g"]) = .ok r := rfl
  exact ⟨hcheck, rfl, permits_of_check hcheck setting⟩

end Expr

end OpTree
