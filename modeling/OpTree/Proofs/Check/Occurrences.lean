import OpTree.Check.Basic
import OpTree.Proofs.Evaluation.Calls

/-!
# Parts of an expression and the scopes they stand in

The check goes through an expression scope by scope. The names and the values of a scope stand
outside of it, its lambdas and its body inside. `Inside` says so of the parts of an expression, and
`Expr.occurrences` lists its operators, each with the scopes that it stands in, which decide whether
a call of that place is to a lambda.

There are two orders. The operators are written before their operands, from left to right. The check
does not meet them so: since the lambdas of a scope may use all that the scope declares, their
bodies come after its last binding. The two orders have the same operators
(`Expr.occurrences_perm`), and the same host calls in the same order if in no scope a part that
calls the host inside of the scope is followed by one that does outside
(`Expr.hostCalls_occurrences`).
-/

namespace OpTree

open List

variable {α γ δ : Type}

/-! ### The parts of a scope -/

/-- The bindings of a scope, each a name and a value. The last operand is none. -/
def bindings : List γ → List (γ × γ)
  | name :: value :: rest => (name, value) :: bindings rest
  | _ => []

/-- Something holds of all bindings if it does of the first and of the others. -/
theorem forall_bindings_cons {n v : γ} {es : List γ} {p : γ → γ → Prop} :
    (∀ n' v', (n', v') ∈ bindings (n :: v :: es) → p n' v') ↔
      p n v ∧ ∀ n' v', (n', v') ∈ bindings es → p n' v' := by
  have hall := forall_mem_cons (p := fun b : γ × γ => p b.1 b.2) (a := (n, v)) (l := bindings es)
  rwa [Prod.forall, Prod.forall] at hall

/-- Names and values are operands. -/
theorem mem_of_mem_bindings {n v : γ} : ∀ {es : List γ}, (n, v) ∈ bindings es → n ∈ es ∧ v ∈ es
  | _ :: _ :: _, .head _ => ⟨mem_cons_self, mem_cons_of_mem _ mem_cons_self⟩
  | _ :: _ :: _, .tail _ h =>
    (mem_of_mem_bindings h).imp (fun h => mem_cons_of_mem _ (mem_cons_of_mem _ h))
      fun h => mem_cons_of_mem _ (mem_cons_of_mem _ h)

/-- The body of a lambda. -/
def Expr.lambdaBody? : Expr α → Option (Expr α)
  | .op _ .lambda operands => operands.getLast?
  | _ => none

/-! ### Names among the operands -/

/-- The names of the bindings of a scope. -/
def bindingNames : List γ → List γ
  | name :: _ :: rest => name :: bindingNames rest
  | _ => []

/-- The operands of an operator that stand for names. -/
def Operator.names : Operator → List γ → List γ
  | .lookup, operands | .call, operands => operands.take 1
  | .scope, operands => bindingNames operands
  | .lambda, operands => operands.dropLast
  | _, _ => []

/-- The names of the bindings are names. -/
theorem mem_bindingNames {n v : γ} : ∀ {es : List γ}, (n, v) ∈ bindings es → n ∈ bindingNames es
  | _ :: _ :: _, .head _ => mem_cons_self
  | _ :: _ :: _, .tail _ h => mem_cons_of_mem _ (mem_bindingNames h)

/-- Where the names of bindings are does not depend on the operands. -/
theorem map_bindingNames (f : γ → δ) :
    ∀ es : List γ, (bindingNames es).map f = bindingNames (es.map f)
  | [] => rfl
  | [_] => rfl
  | _ :: _ :: rest => congrArg (_ :: ·) (map_bindingNames f rest)

/-- Where the names are does not depend on the operands. -/
theorem Operator.map_names (f : γ → δ) (code : Operator) (es : List γ) :
    (code.names es).map f = code.names (es.map f) := by
  cases code with
  | lookup | call => exact List.map_take
  | scope => exact map_bindingNames f es
  | lambda => exact List.map_dropLast
  | _ => rfl

namespace Expr

/-- A name that is spelled out is a literal. -/
theorem exists_literal? {e : Expr α} {name : String} (h : e.name? = some name) :
    ∃ s, e.literal? = some s := by
  cases e with
  | lit a s => exact ⟨s, rfl⟩
  | op => cases h

/-- The names that expressions spell out depend on their literals only. -/
theorem map_name? (es : List (Expr α)) :
    es.map name? = (es.map literal?).map (·.bind Scalar.str?) := by
  rw [List.map_map]
  rfl

/-- So do the names of those that spell one out. -/
theorem filterMap_name? (es : List (Expr α)) :
    es.filterMap name? = (es.map literal?).filterMap (·.bind Scalar.str?) := by
  rw [List.filterMap_map]
  rfl

end Expr

/-! ### Where a part stands -/

/-- `Inside ss e ss' x`: standing inside of the scopes with the operands `ss`, the innermost first,
the expression `e` has the part `x`, which stands inside of the scopes `ss'`. The names and the
values of a scope stand outside of it, its lambdas and its body inside. -/
inductive Inside :
    List (List (Expr α)) → Expr α → List (List (Expr α)) → Expr α → Prop
  | here {ss e} : Inside ss e ss e
  | operand {ss a code es e ss' x} : code ≠ .scope → code ≠ .lambda → e ∈ es →
      Inside ss e ss' x → Inside ss (.op a code es) ss' x
  | name {ss a es n v ss' x} : (n, v) ∈ bindings es →
      Inside ss n ss' x → Inside ss (.op a .scope es) ss' x
  | value {ss a es n v ss' x} : (n, v) ∈ bindings es → v.isLambda = false →
      Inside ss v ss' x → Inside ss (.op a .scope es) ss' x
  | lambda {ss a es n v body ss' x} : (n, v) ∈ bindings es → v.lambdaBody? = some body →
      Inside (es :: ss) body ss' x → Inside ss (.op a .scope es) ss' x
  | body {ss a es body ss' x} : es.getLast? = some body →
      Inside (es :: ss) body ss' x → Inside ss (.op a .scope es) ss' x

/-- What is inside of a part is inside of the whole. -/
theorem Inside.trans {ss ss' ss'' : List (List (Expr α))} {e x y : Expr α}
    (h : Inside ss e ss' x) (h' : Inside ss' x ss'' y) : Inside ss e ss'' y := by
  induction h with
  | here => exact h'
  | operand hscope hlambda hmem _ ih => exact .operand hscope hlambda hmem (ih h')
  | name hmem _ ih => exact .name hmem (ih h')
  | value hmem hv _ ih => exact .value hmem hv (ih h')
  | lambda hmem hbody _ ih => exact .lambda hmem hbody (ih h')
  | body hbody _ ih => exact .body hbody (ih h')

/-! ### Operators in order -/

namespace Expr

mutual

/-- The operators of an expression as they are written: each before its operands, and these from
left to right. -/
def operators : Expr α → List (Expr α)
  | .lit .. => []
  | .op a code es => .op a code es :: operatorsAll es

/-- The operators of a list of expressions. -/
def operatorsAll : List (Expr α) → List (Expr α)
  | [] => []
  | e :: es => operators e ++ operatorsAll es

end

end Expr

/-- The orders in which one may go through the operators of an expression. -/
inductive Traversal where
  /-- The order in which they are written. -/
  | written
  /-- The order in which the check meets them: in a scope, the bodies of lambdas come after all
  bindings. -/
  | met

/-- Puts the parts of a scope in order. Each part has something outside of the scope and something
inside of it. -/
def Traversal.arrange : Traversal → List (List γ × List γ) → List γ
  | .written, parts => parts.flatMap fun part => part.1 ++ part.2
  | .met, parts => parts.flatMap Prod.fst ++ parts.flatMap Prod.snd

/-- An operator of an expression with the operands of the scopes that it stands in, the innermost
first. -/
structure Occurrence (α : Type) where
  scopes : List (List (Expr α))
  node : Expr α

namespace Expr

mutual

/-- The operators of an expression that stands in some scopes. -/
def occurrences (order : Traversal) (ss : List (List (Expr α))) : Expr α → List (Occurrence α)
  | .lit .. => []
  | .op a .scope es =>
    ⟨ss, .op a .scope es⟩ :: order.arrange (scopeParts order ss (es :: ss) es)
  | .op a code es => ⟨ss, .op a code es⟩ :: occurrencesAll order ss es

/-- The operators of a list of expressions. -/
def occurrencesAll (order : Traversal) (ss : List (List (Expr α))) :
    List (Expr α) → List (Occurrence α)
  | [] => []
  | e :: es => occurrences order ss e ++ occurrencesAll order ss es

/-- The parts of a scope: its bindings and its body. A lambda stands outside of the scope itself,
but what it is made of inside. -/
def scopeParts (order : Traversal) (outer inner : List (List (Expr α))) :
    List (Expr α) → List (List (Occurrence α) × List (Occurrence α))
  | [] => []
  | [body] => [([], occurrences order inner body)]
  | n :: v :: rest =>
    (occurrences order outer n ++
        if v.isLambda then [⟨outer, v⟩] else occurrences order outer v,
      lambdaOccurrences order inner v) :: scopeParts order outer inner rest

/-- The operators that a lambda is made of; any other expression has none. -/
def lambdaOccurrences (order : Traversal) (ss : List (List (Expr α))) : Expr α → List (Occurrence α)
  | .op _ .lambda es => occurrencesAll order ss es
  | _ => []

end

end Expr

/-! ### Host calls -/

/-- The bindings declare a lambda of that name. -/
def declaresLambda (name : String) (bs : List (Expr α × Expr α)) : Bool :=
  bs.any fun b => b.2.isLambda && b.1.name? == some name

/-- There is a binding whose name is computed. -/
def computesName (bs : List (Expr α × Expr α)) : Bool :=
  bs.any fun b => b.1.name?.isNone

/-- The name surely refers to a lambda: the innermost scope that declares one of that name has no
scope with a computed name inside of it. -/
def namesLambda (name : String) : List (List (Expr α)) → Bool
  | [] => false
  | es :: ss =>
    declaresLambda name (bindings es) || !computesName (bindings es) && namesLambda name ss

/-- The literal name of a call that does not refer to a lambda. -/
def Occurrence.hostCall? (o : Occurrence α) : Option String :=
  match o.node with
  | .op _ .call (n :: _) => n.name?.filter fun name => !namesLambda name o.scopes
  | _ => none

/-- The names of the host calls among operators. -/
def hostCalls (os : List (Occurrence α)) : List String :=
  os.filterMap Occurrence.hostCall?

/-- The operands of a scope. -/
def Expr.scopeOperands? : Expr α → Option (List (Expr α))
  | .op _ .scope es => some es
  | _ => none

/-- If the operator is a scope, then none of its parts that calls the host inside of it is followed
by one that calls the host outside of it. -/
def Occurrence.CallsInOrder (o : Occurrence α) : Prop :=
  ∀ es ∈ o.node.scopeOperands?,
    (Expr.scopeParts .written o.scopes (es :: o.scopes) es).Pairwise fun p q =>
      hostCalls p.2 = [] ∨ hostCalls q.1 = []

instance : DecidablePred (Occurrence.CallsInOrder (α := α)) := fun o =>
  inferInstanceAs <| Decidable <| ∀ es ∈ o.node.scopeOperands?,
    (Expr.scopeParts .written o.scopes (es :: o.scopes) es).Pairwise fun p q =>
      hostCalls p.2 = [] ∨ hostCalls q.1 = []

/-! ### The two orders compared -/

namespace Traversal

/-- As it is written, a part comes before the others with all that it has. -/
theorem arrange_written_cons (part : List γ × List γ) (parts : List (List γ × List γ)) :
    Traversal.written.arrange (part :: parts) =
      (part.1 ++ part.2) ++ Traversal.written.arrange parts := rfl

/-- The check meets the same, in another order. -/
theorem arrange_met_cons_perm (part : List γ × List γ) (parts : List (List γ × List γ)) :
    Traversal.met.arrange (part :: parts) ~ (part.1 ++ part.2) ++ Traversal.met.arrange parts := by
  simp only [arrange, flatMap_cons, append_assoc]
  exact (perm_append_comm_assoc _ _ _).append_left _

/-- If no part with something inside is followed by one with something outside, the orders agree. -/
theorem arrange_met {parts : List (List γ × List γ)}
    (h : parts.Pairwise fun p q => p.2 = [] ∨ q.1 = []) :
    Traversal.met.arrange parts = Traversal.written.arrange parts := by
  induction h with
  | nil => rfl
  | @cons p parts hp _ ih =>
    rw [arrange_written_cons, ← ih]
    simp only [arrange, flatMap_cons, append_assoc]
    by_cases hinside : p.2 = []
    · rw [hinside, nil_append, nil_append]
    · have houtside : parts.flatMap Prod.fst = [] :=
        flatMap_eq_nil_iff.2 fun q hq => (hp q hq).resolve_left hinside
      rw [houtside, nil_append, nil_append]

end Traversal

/-- The host calls of one list after those of the other. -/
theorem hostCalls_append (os os' : List (Occurrence α)) :
    hostCalls (os ++ os') = hostCalls os ++ hostCalls os' := filterMap_append

/-- One operator names one host call at most. -/
theorem hostCalls_cons (o : Occurrence α) (os : List (Occurrence α)) :
    hostCalls (o :: os) = o.hostCall?.toList ++ hostCalls os := by
  cases ho : o.hostCall? <;> simp [hostCalls, ho]

/-- The host calls of parts are arranged as the parts are. -/
theorem hostCalls_arrange (order : Traversal)
    (parts : List (List (Occurrence α) × List (Occurrence α))) :
    hostCalls (order.arrange parts) = order.arrange (parts.map (Prod.map hostCalls hostCalls)) := by
  cases order <;>
    simp [Traversal.arrange, hostCalls, filterMap_flatMap, flatMap_map, filterMap_append]

namespace Expr

section

variable {a : α} {code : Operator} {ss outer inner : List (List (Expr α))} {order : Traversal}

/-- Of other operators than scopes the operands stand in the same scopes. -/
theorem occurrences_of_ne_scope (h : code ≠ .scope) (es : List (Expr α)) :
    (op a code es).occurrences order ss =
      ⟨ss, op a code es⟩ :: occurrencesAll order ss es := by
  cases code <;> first | rfl | exact absurd rfl h

/-- Other values than lambdas have nothing inside of the scope that declares them. -/
theorem lambdaOccurrences_of_isLambda_eq_false {e : Expr α} (h : e.isLambda = false) :
    e.lambdaOccurrences order ss = [] := by
  cases e with
  | lit => rfl
  | op a code es => cases code <;> first | rfl | cases h

mutual

/-- As they are written, the occurrences are those of the operators in their order. -/
theorem map_node_occurrences (ss : List (List (Expr α))) :
    (e : Expr α) → (e.occurrences .written ss).map Occurrence.node = e.operators
  | .lit .. => rfl
  | .op a code es => by
    by_cases hcode : code = .scope
    · subst hcode
      rw [occurrences, operators, map_cons, map_node_scopeParts ss (es :: ss) es]
    · rw [occurrences_of_ne_scope hcode, operators, map_cons, map_node_occurrencesAll ss es]

theorem map_node_occurrencesAll (ss : List (List (Expr α))) :
    (es : List (Expr α)) → (occurrencesAll .written ss es).map Occurrence.node = operatorsAll es
  | [] => rfl
  | e :: es => by
    rw [occurrencesAll, operatorsAll, map_append, map_node_occurrences ss e,
      map_node_occurrencesAll ss es]

theorem map_node_scopeParts (outer inner : List (List (Expr α))) : (es : List (Expr α)) →
    (Traversal.written.arrange (scopeParts .written outer inner es)).map Occurrence.node =
      operatorsAll es
  | [] => rfl
  | [body] => by
    simp [scopeParts, Traversal.arrange, operatorsAll, map_node_occurrences inner body]
  | n :: v :: rest => by
    have hv : ((if v.isLambda then [⟨outer, v⟩] else v.occurrences .written outer) ++
        v.lambdaOccurrences .written inner).map Occurrence.node = v.operators := by
      cases hlambda : v.isLambda with
      | true => exact map_node_lambdaOccurrences outer inner v hlambda
      | false =>
        rw [if_neg Bool.false_ne_true, lambdaOccurrences_of_isLambda_eq_false hlambda, append_nil,
          map_node_occurrences outer v]
    rw [scopeParts, Traversal.arrange_written_cons, map_append,
      map_node_scopeParts outer inner rest, append_assoc, map_append, hv,
      map_node_occurrences outer n, operatorsAll, operatorsAll, append_assoc]

theorem map_node_lambdaOccurrences (outer inner : List (List (Expr α))) :
    (e : Expr α) → e.isLambda →
      (⟨outer, e⟩ :: e.lambdaOccurrences .written inner).map Occurrence.node = e.operators
  | .lit .., h => by cases h
  | .op a code es, h => by
    cases code
    case lambda => rw [lambdaOccurrences, operators, map_cons, map_node_occurrencesAll inner es]
    all_goals cases h

end

mutual

/-- The check meets the operators that are written. -/
theorem occurrences_perm (ss : List (List (Expr α))) :
    (e : Expr α) → e.occurrences .met ss ~ e.occurrences .written ss
  | .lit .. => .refl []
  | .op a code es => by
    by_cases hcode : code = .scope
    · subst hcode
      exact (scopeParts_perm ss (es :: ss) es).cons _
    · rw [occurrences_of_ne_scope hcode, occurrences_of_ne_scope hcode]
      exact (occurrencesAll_perm ss es).cons _

theorem occurrencesAll_perm (ss : List (List (Expr α))) :
    (es : List (Expr α)) → occurrencesAll .met ss es ~ occurrencesAll .written ss es
  | [] => .refl []
  | e :: es => (occurrences_perm ss e).append (occurrencesAll_perm ss es)

theorem scopeParts_perm (outer inner : List (List (Expr α))) : (es : List (Expr α)) →
    Traversal.met.arrange (scopeParts .met outer inner es) ~
      Traversal.written.arrange (scopeParts .written outer inner es)
  | [] => .refl []
  | [body] => by
    simpa [scopeParts, Traversal.arrange] using occurrences_perm inner body
  | n :: v :: rest => by
    have hv : (if v.isLambda then [⟨outer, v⟩] else v.occurrences .met outer) ~
        if v.isLambda then [⟨outer, v⟩] else v.occurrences .written outer := by
      split
      · exact .refl _
      · exact occurrences_perm outer v
    rw [scopeParts, scopeParts, Traversal.arrange_written_cons]
    exact (Traversal.arrange_met_cons_perm _ _).trans
      ((((occurrences_perm outer n).append hv).append (lambdaOccurrences_perm inner v)).append
        (scopeParts_perm outer inner rest))

theorem lambdaOccurrences_perm (ss : List (List (Expr α))) :
    (e : Expr α) → e.lambdaOccurrences .met ss ~ e.lambdaOccurrences .written ss
  | .lit .. => .refl []
  | .op a code es => by
    cases code
    case lambda => exact occurrencesAll_perm ss es
    all_goals exact .refl []

end

/-- The check meets as many operators as there are. -/
theorem length_occurrences (e : Expr α) : (e.occurrences .met []).length = e.operators.length := by
  rw [(occurrences_perm [] e).length_eq, ← map_node_occurrences [] e, length_map]

mutual

/-- Where the calls of every scope are in order, the check meets them as they are written. -/
theorem hostCalls_occurrences (ss : List (List (Expr α))) : (e : Expr α) →
    (∀ o ∈ e.occurrences .written ss, o.CallsInOrder) →
      hostCalls (e.occurrences .met ss) = hostCalls (e.occurrences .written ss)
  | .lit .., _ => rfl
  | .op a code es, h => by
    by_cases hcode : code = .scope
    · subst hcode
      rw [occurrences, forall_mem_cons] at h
      obtain ⟨hscope, hparts⟩ := h
      have hpairs := (hscope es rfl).map (Prod.map hostCalls hostCalls)
        (S := fun p q => p.2 = [] ∨ q.1 = []) fun p q h => h
      have hcalls := hostCalls_scopeParts ss (es :: ss) es hparts
      rw [occurrences, occurrences, hostCalls_cons, hostCalls_cons _ (Traversal.arrange _ _),
        hostCalls_arrange, hostCalls_arrange, hcalls, Traversal.arrange_met hpairs]
    · rw [occurrences_of_ne_scope hcode] at h ⊢
      rw [occurrences_of_ne_scope hcode, hostCalls_cons, hostCalls_cons _ (occurrencesAll _ _ _),
        hostCalls_occurrencesAll ss es (forall_mem_cons.1 h).2]

theorem hostCalls_occurrencesAll (ss : List (List (Expr α))) : (es : List (Expr α)) →
    (∀ o ∈ occurrencesAll .written ss es, o.CallsInOrder) →
      hostCalls (occurrencesAll .met ss es) = hostCalls (occurrencesAll .written ss es)
  | [], _ => rfl
  | e :: es, h => by
    rw [occurrencesAll, forall_mem_append] at h
    rw [occurrencesAll, occurrencesAll, hostCalls_append, hostCalls_append,
      hostCalls_occurrences ss e h.1, hostCalls_occurrencesAll ss es h.2]

theorem hostCalls_scopeParts (outer inner : List (List (Expr α))) : (es : List (Expr α)) →
    (∀ o ∈ Traversal.written.arrange (scopeParts .written outer inner es), o.CallsInOrder) →
      (scopeParts .met outer inner es).map (Prod.map hostCalls hostCalls) =
        (scopeParts .written outer inner es).map (Prod.map hostCalls hostCalls)
  | [], _ => rfl
  | [body], h => by
    have hbody := hostCalls_occurrences inner body (by
      simpa [scopeParts, Traversal.arrange] using h)
    simp [scopeParts, hbody]
  | n :: v :: rest, h => by
    rw [scopeParts, Traversal.arrange_written_cons, forall_mem_append, forall_mem_append,
      forall_mem_append] at h
    obtain ⟨⟨⟨hn, hv⟩, hbody⟩, hrest⟩ := h
    have hvalue : hostCalls (if v.isLambda then [⟨outer, v⟩] else v.occurrences .met outer) =
        hostCalls (if v.isLambda then [⟨outer, v⟩] else v.occurrences .written outer) := by
      cases hlambda : v.isLambda with
      | true => rfl
      | false =>
        rw [hlambda] at hv
        exact hostCalls_occurrences outer v hv
    simp only [scopeParts, map_cons, Prod.map, hostCalls_append, hvalue,
      hostCalls_occurrences outer n hn, hostCalls_lambdaOccurrences inner v hbody,
      hostCalls_scopeParts outer inner rest hrest]

theorem hostCalls_lambdaOccurrences (ss : List (List (Expr α))) : (e : Expr α) →
    (∀ o ∈ e.lambdaOccurrences .written ss, o.CallsInOrder) →
      hostCalls (e.lambdaOccurrences .met ss) = hostCalls (e.lambdaOccurrences .written ss)
  | .lit .., _ => rfl
  | .op a code es, h => by
    cases code
    case lambda => exact hostCalls_occurrencesAll ss es h
    all_goals rfl

end

end

end Expr

/-! ### What the check meets step by step -/

/-- If the expression is a lambda, its parameters are literals. -/
def LiteralParams (e : Expr α) : Prop :=
  ∀ a es, e = .op a .lambda es → ∀ p ∈ es.dropLast, p.name? ≠ none

namespace Expr

/-- The name of a call, if it is spelled out. -/
def calledName? : Expr α → Option String
  | .op _ .call (n :: _) => n.name?
  | _ => none

/-- The operators of the last expression of a list. -/
def lastOccurrences (ss : List (List (Expr α))) (es : List (Expr α)) : List (Occurrence α) :=
  es.getLast?.toList.flatMap (occurrences .met ss)

/-- The operators of the body of a lambda; any other expression has none. -/
def bodyOccurrences (ss : List (List (Expr α))) (e : Expr α) : List (Occurrence α) :=
  e.lambdaBody?.toList.flatMap (occurrences .met ss)

/-- The operators that a binding has outside of its scope. Of a lambda that is the node alone. -/
def outside (ss : List (List (Expr α))) (b : Expr α × Expr α) : List (Occurrence α) :=
  b.1.occurrences .met ss ++ if b.2.isLambda then [⟨ss, b.2⟩] else b.2.occurrences .met ss

variable {a : α} {order : Traversal} {ss outer inner : List (List (Expr α))} {e : Expr α}
  {es : List (Expr α)}

/-- Literals have no operators. -/
theorem occurrences_of_literal? {s : Scalar} (h : e.literal? = some s) :
    e.occurrences order ss = [] := by
  cases e with
  | lit => rfl
  | op => cases h

/-- The parameters of a lambda are no operators. -/
private theorem occurrencesAll_of_params (h : ∀ p ∈ es.dropLast, p.name? ≠ none) :
    occurrencesAll .met ss es = lastOccurrences ss es := by
  induction es with
  | nil => rfl
  | cons e es ih =>
    cases es with
    | nil => rw [occurrencesAll, occurrencesAll, lastOccurrences]; simp
    | cons e' es =>
      rw [dropLast_cons_cons, forall_mem_cons] at h
      obtain ⟨name, hname⟩ := Option.ne_none_iff_exists'.1 h.1
      obtain ⟨s, hs⟩ := exists_literal? hname
      rw [occurrencesAll, occurrences_of_literal? hs, nil_append, ih h.2, lastOccurrences,
        lastOccurrences, getLast?_cons_cons]

/-- If the parameters are literals, the operators of a lambda are those of its body. -/
theorem lambdaOccurrences_of_literalParams (h : LiteralParams e) :
    e.lambdaOccurrences .met ss = e.bodyOccurrences ss := by
  cases e with
  | lit => rfl
  | op a code es =>
    cases code
    case lambda => exact occurrencesAll_of_params (h a es rfl)
    all_goals rfl

/-- Only lambdas have a body. -/
theorem bodyOccurrences_of_isLambda_eq_false (h : e.isLambda = false) :
    e.bodyOccurrences ss = [] := by
  cases e with
  | lit => rfl
  | op a code es => cases code <;> first | rfl | cases h

private theorem flatMap_fst_scopeParts : ∀ es : List (Expr α),
    (scopeParts .met outer inner es).flatMap Prod.fst = (bindings es).flatMap (outside outer)
  | [] | [_] => rfl
  | n :: v :: es => by
    rw [scopeParts, bindings, flatMap_cons, flatMap_cons, flatMap_fst_scopeParts es]
    rfl

private theorem flatMap_snd_scopeParts : ∀ es : List (Expr α), es.length % 2 = 1 →
    (∀ n v, (n, v) ∈ bindings es → LiteralParams v) →
    (scopeParts .met outer inner es).flatMap Prod.snd =
      (bindings es).flatMap (fun b => b.2.bodyOccurrences inner) ++ lastOccurrences inner es
  | [], hodd, _ => by cases hodd
  | [body], _, _ => by simp [scopeParts, bindings, lastOccurrences]
  | [_, _], hodd, _ => absurd hodd (by simp)
  | n :: v :: e :: es, hodd, hparams => by
    rw [forall_bindings_cons] at hparams
    have hodd' : (e :: es).length % 2 = 1 := by
      rw [length_cons, length_cons, Nat.add_assoc, Nat.add_mod_right] at hodd
      exact hodd
    rw [scopeParts, bindings, flatMap_cons, flatMap_cons,
      flatMap_snd_scopeParts (e :: es) hodd' hparams.2, append_assoc,
      lambdaOccurrences_of_literalParams hparams.1, lastOccurrences, lastOccurrences,
      getLast?_cons_cons, getLast?_cons_cons]

/-- The check meets a scope, the bindings outside of it, the bodies of its lambdas and its body. -/
theorem occurrences_scope (hodd : es.length % 2 = 1)
    (hparams : ∀ n v, (n, v) ∈ bindings es → LiteralParams v) :
    (op a .scope es).occurrences .met ss = ⟨ss, op a .scope es⟩ ::
      ((bindings es).flatMap (outside ss) ++
        ((bindings es).flatMap (fun b => b.2.bodyOccurrences (es :: ss)) ++
          lastOccurrences (es :: ss) es)) := by
  rw [occurrences, Traversal.arrange, flatMap_fst_scopeParts,
    flatMap_snd_scopeParts es hodd hparams]

end Expr

end OpTree
