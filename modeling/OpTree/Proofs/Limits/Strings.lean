import OpTree.Proofs.Evaluation.Forward
import OpTree.Proofs.Evaluation.Unbounded

/-!
# Where strings come from

A string that an evaluation ends with has been spelled out, looked up, answered by a host call or
given by a `typeOf` node. In the first three cases it has been counted where it appeared; the name
of a type is not counted, but it is short and the node has been visited. `State.Accounts` says that
one of both has happened on the way from one state to another.

For this the nodes that are visited have to be known. `Eval.guarded` evaluates an expression but
visits nothing in which there are other `typeOf` nodes than the known ones. It does what the
evaluation does where all bodies of visible lambdas are known (`Eval.agrees_guarded`), and it can be
followed without looking at the scopes.

Main statement: `Expr.accounts_of_str`.
-/

namespace OpTree

open Eval

variable {α β γ : Type}

/-! ### Nodes that give the name of a type -/

namespace Expr

mutual

/-- The labels of the `typeOf` nodes. -/
def types : Expr α → List α
  | lit .. => []
  | op a code es => if code = .typeOf then a :: typesAll es else typesAll es

/-- The labels of the `typeOf` nodes in a list of expressions. -/
def typesAll : List (Expr α) → List α
  | [] => []
  | e :: es => types e ++ typesAll es

end

/-- The `typeOf` nodes of an operand are among those of all operands. -/
theorem types_subset_typesAll {e : Expr α} {es : List (Expr α)} (he : e ∈ es) :
    e.types ⊆ typesAll es := by
  induction es with
  | nil => exact absurd he List.not_mem_nil
  | cons e' es ih =>
    rcases List.mem_cons.1 he with rfl | he
    · exact List.subset_append_left _ _
    · exact List.subset_append_of_subset_right _ (ih he)

/-- The `typeOf` nodes of the operands are among those of the operator. -/
theorem typesAll_subset_op (a : α) (code : Operator) (es : List (Expr α)) :
    typesAll es ⊆ (op a code es).types := by
  rw [types]
  split
  · exact List.subset_cons_self _ _
  · exact List.Subset.refl _

/-- All `typeOf` nodes are known. -/
def TypesKnown (known : α → Bool) (e : Expr α) : Prop :=
  ∀ a ∈ e.types, known a

/-- If all `typeOf` nodes are known, those of an operand are. -/
theorem TypesKnown.of_mem {known : α → Bool} {a : α} {code : Operator} {es : List (Expr α)}
    (h : (op a code es).TypesKnown known) : ∀ e ∈ es, e.TypesKnown known :=
  fun _ he a ha => h a (typesAll_subset_op _ _ _ (types_subset_typesAll he ha))

end Expr

/-- The number of visits of known nodes. -/
def visitsOf (known : α → Bool) (trace : List (Event α)) : Nat :=
  trace.countP fun
    | .visit a => known a
    | _ => false

/-- A longer trace has no fewer visits of known nodes. -/
theorem visitsOf_le_of_suffix {known : α → Bool} {before after : List (Event α)}
    (h : before <:+ after) : visitsOf known before ≤ visitsOf known after :=
  h.sublist.countP_le

/-- The order of the events does not matter. -/
theorem visitsOf_reverse (known : α → Bool) (trace : List (Event α)) :
    visitsOf known trace.reverse = visitsOf known trace :=
  List.countP_reverse

/-- A visit of a known node is one more. -/
theorem visitsOf_cons_of_known {known : α → Bool} {a : α} (h : known a) (before : List (Event α)) :
    visitsOf known (.visit a :: before) = visitsOf known before + 1 :=
  List.countP_cons_of_pos h

/-- The names of types are short. -/
theorem ScalarType.length_name_le (t : ScalarType) : t.name.length ≤ 7 := by
  cases t <;> decide

/-! ### Strings that are accounted for -/

/-- On the way from one state to the other a string has been counted, or it is short and a known
node has been visited. -/
def State.Accounts (known : α → Bool) (c d : State α) (s : String) : Prop :=
  c.usage.stats.strCount < d.usage.stats.strCount ∧
      c.usage.stats.strChars + s.length ≤ d.usage.stats.strChars ∨
    s.length ≤ 7 ∧ visitsOf known c.trace < visitsOf known d.trace

/-- A string is accounted for on a longer way too. -/
theorem State.Accounts.mono {known : α → Bool} {c c' d d' : State α} {s : String}
    (h : c.Accounts known d s) (hc : c'.Precedes c) (hd : d.Precedes d') :
    c'.Accounts known d' s := by
  rcases h with ⟨hcount, hchars⟩ | ⟨hlen, hvisits⟩
  · have hcount : c.usage.stats.value .strCount < d.usage.stats.value .strCount := hcount
    have hchars : c.usage.stats.value .strChars + s.length ≤ d.usage.stats.value .strChars := hchars
    refine .inl ⟨?_, ?_⟩
    · exact (hc.stats .strCount).trans_lt (hcount.trans_le (hd.stats .strCount))
    · have hbefore := hc.stats .strChars
      have hafter := hd.stats .strChars
      change c'.usage.stats.value .strChars + s.length ≤ d'.usage.stats.value .strChars
      omega
  · exact .inr ⟨hlen, (visitsOf_le_of_suffix hc.trace).trans_lt
      (hvisits.trans_le (visitsOf_le_of_suffix hd.trace))⟩

namespace Eval

open EvalM

/-- A string that the step ends with is accounted for. -/
def Accounted (known : α → Bool) (x : EvalM α Scalar) : Prop :=
  ∀ setting c s d, x setting c = (.ok (.str s), d) → c.Accounts known d s

namespace Accounted

variable {known : α → Bool} {visit : Expr α → EvalM α Scalar} {node : α} {code : Operator}
  {e : Expr α} {es : List (Expr α)}

theorem pure {v : Scalar} (hv : ∀ s, v ≠ .str s) : Accounted known (pure v) := by
  intro setting c s d h
  exact absurd (Except.ok.inj (Prod.mk.inj h).1) (hv s)

theorem fail (err : EvalError α) : Accounted known (fail err) :=
  fun _ _ _ _ h => nomatch (Prod.mk.inj h).1

theorem bool (b : Bool) : Accounted known (Pure.pure (.bool b) : EvalM α Scalar) :=
  pure (by simp)

/-- What comes last gives the string. -/
theorem bind {x : EvalM α β} {f : β → EvalM α Scalar} (hx : Forward x)
    (hf : ∀ b, Accounted known (f b)) : Accounted known (x >>= f) := by
  intro setting c s d h
  obtain ⟨b, c', hb, hd⟩ := bind_eq_ok.1 h
  have hc : c.Precedes c' := hx.of_eq hb
  exact (hf b setting c' s d hd).mono hc (.refl d)

/-- A change that counts nothing keeps the account. -/
theorem andFinally {x : EvalM α Scalar} {change : State α → State α} (hx : Accounted known x)
    (hq : Quiet change) : Accounted known (x.andFinally change) := by
  intro setting c s d h
  obtain ⟨hv, rfl⟩ := Prod.mk.inj h
  have hd := hx setting c s _ (Prod.ext hv rfl)
  exact hd.mono (.refl c) (.of_quiet hq _)

/-- The account of the body is that of the scope. -/
theorem inScope {x : EvalM α Scalar} (frame : Frame α) (hx : Accounted known x) :
    Accounted known (inScope frame x) := by
  intro setting c s d h
  obtain ⟨hv, rfl⟩ := Prod.mk.inj h
  -- entering and leaving do not count strings
  exact hx setting (c.enterScope frame) s (x setting (c.enterScope frame)).2 (Prod.ext hv rfl)

/-- A value that is counted is accounted for if it is a string. -/
theorem countString (v : Scalar) :
    Accounted known (countString v >>= fun _ => Pure.pure v : EvalM α Scalar) := by
  cases v with
  | null | num | bool => exact pure (by simp)
  | str s =>
    intro setting c t d h
    have hcounted : c.Accounts known { c with usage := c.usage.countString s.length } s :=
      .inl ⟨Nat.lt_succ_self _, Nat.le_refl _⟩
    obtain ⟨_, d', hcheck, hd⟩ := bind_eq_ok.1 h
    cases hd
    exact hcounted.mono (.refl c) (Forward.checkLimits.of_eq hcheck)

section

variable (hclosed : Closed visit Forward) (hv : ∀ e, Accounted known (visit e))

include hclosed

/-- Sums and products are numbers. -/
theorem accumulate (combine : Float → Float → Float) (es : List (Expr α)) :
    ∀ total, Accounted known (accumulate visit node code combine total es) := by
  induction es with
  | nil =>
    intro total
    refine pure fun s => ?_
    cases total <;> simp
  | cons e es ih =>
    intro total
    refine bind (hclosed.numberOf e) fun x => ?_
    split
    · exact pure (by simp)
    · dsimp only
      split
      · exact ih _
      · exact fail _

/-- What is made of two numbers is accounted for if the result always is. -/
theorem withNumbers {f : Float → Float → EvalM α Scalar} (hf : ∀ x y, Accounted known (f x y))
    (e₁ e₂ : Expr α) : Accounted known (withNumbers visit node code e₁ e₂ f) := by
  refine bind (hclosed.numberOf e₁) fun x => ?_
  split
  · exact pure (by simp)
  · refine bind (hclosed.numberOf e₂) fun y => ?_
    split
    · exact pure (by simp)
    · exact hf _ _

omit hclosed in
/-- Quotients are numbers. -/
theorem divide (quotient : Float → Float → Float) (x y : Float) :
    Accounted known (divide node quotient x y) := by
  rw [Eval.divide]
  split
  · exact fail _
  · rw [Eval.finite]
    split
    · exact pure (by simp)
    · exact fail _

/-- Connectives give truth values. -/
theorem connect (combine : Bool → Bool → Bool) (es : List (Expr α)) :
    ∀ result, Accounted known (connect visit combine result es) := by
  induction es with
  | nil => exact fun result => bool result
  | cons e es ih =>
    intro result
    refine bind (hclosed.visits e) fun v => ?_
    split
    · exact pure (by simp)
    · exact ih _

/-- So do comparisons. -/
theorem compareEqual (e₁ e₂ : Expr α) (expected : Bool) :
    Accounted known (compareEqual visit e₁ e₂ expected) := by
  refine bind (hclosed.visits e₁) fun v => ?_
  split
  · exact pure (by simp)
  · refine bind (hclosed.visits e₂) fun w => ?_
    split
    · exact pure (by simp)
    · exact bool _

/-- A lookup counts the string that it finds. -/
theorem lookUp (e : Expr α) : Accounted known (lookUp visit node e) := by
  refine bind (hclosed.nameOf e) fun name => bind hclosed.state fun c => ?_
  split
  · exact countString _
  · exact fail _

include hv

/-- A condition gives the value of one of its operands. -/
theorem choose (es : List (Expr α)) : Accounted known (choose visit es) := by
  fun_induction Eval.choose visit es with
  | case1 => exact pure (by simp)
  | case2 e => exact hv e
  | case3 guard e es ih =>
    refine bind (hclosed.visits guard) fun v => ?_
    split
    · exact hv e
    · exact ih

/-- So does a coalescing operator. -/
theorem firstNonNull (es : List (Expr α)) : Accounted known (firstNonNull visit es) := by
  induction es with
  | nil => exact pure (by simp)
  | cons e es ih =>
    intro setting c s d h
    obtain ⟨v, c', he, hd⟩ := bind_eq_ok.1 h
    split at hd
    · exact (ih setting c' s d hd).mono ((hclosed.visits e).of_eq he) (.refl d)
    · -- the value itself is given
      cases hd
      exact hv e setting c s d he

/-- A scope gives the value of its last operand. -/
theorem evalScope : ∀ (es : List (Expr α)) (frame : Frame α),
    Accounted known (evalScope visit node frame es)
  | [], _ => pure (by simp)
  | [e], frame => inScope frame (hv e)
  | n :: e :: es, frame => by
    refine bind (hclosed.nameOf n) fun name => bind hclosed.countVar fun _ => ?_
    exact bind (hclosed.declare frame name e) fun new => evalScope es new

/-- The call of a lambda gives the value of its body. -/
theorem callLambda (name : String) (depth : Nat) (lambda : Lambda α) (es : List (Expr α)) :
    Accounted known (callLambda visit node name depth lambda es) := by
  rw [Eval.callLambda]
  split
  · exact fail _
  · split
    · exact fail _
    · refine bind (hclosed.modify (.enter _ _)) fun _ => ?_
      refine bind (hclosed.modify (.scopes (·.mark depth name true))) fun _ => ?_
      refine andFinally ?_ ((Quiet.scopes (·.mark depth name false)).trans .leave)
      refine bind (hclosed.bindParams _ es _) fun frame => ?_
      refine bind (hclosed.modify (.scopes (·.narrow depth))) fun _ => ?_
      exact andFinally (inScope frame (hv _)) (.scopes (·.widen))

omit hclosed hv in
/-- The answer of a host call is counted. -/
theorem invoke (name : String) (call : HostCall) (values : List Scalar) :
    Accounted known (invoke node name call values) := by
  intro setting c s d h
  have hreceive (reply : Reply) : Accounted known (receive node name reply) := by
    refine bind (.await node name reply) fun v => ?_
    split
    · exact countString v
    · exact fail _
  rw [invoke_apply] at h
  exact hreceive _ setting { c with history := ⟨name, values⟩ :: c.history } s d h

/-- A call gives the value of a lambda body, or the string of a reply, which is counted. -/
theorem evalCall (e : Expr α) (es : List (Expr α)) :
    Accounted known (evalCall visit node e es) := by
  refine bind (hclosed.nameOf e) fun name => bind hclosed.state fun c => ?_
  split
  · exact callLambda hclosed hv _ _ _ es
  · refine bind (hclosed.external _ _) fun _ => bind Forward.setting fun s => ?_
    split
    · exact bind (hclosed.arguments es) fun values => invoke _ _ values
    · exact fail _

/-- **Every operator** accounts for its value, but for the name of a type. -/
theorem apply {code : Operator} (hcode : code ≠ .typeOf) (es : List (Expr α)) :
    Accounted known (apply visit node code es) := by
  rw [Eval.apply.eq_def]
  split
  · exact hv _
  · exact accumulate hclosed _ es none
  · exact accumulate hclosed _ es none
  · exact accumulate hclosed _ es none
  · exact withNumbers hclosed (divide _) _ _
  · exact withNumbers hclosed (divide _) _ _
  · refine bind (hclosed.visits _) fun v => pure fun s => ?_
    cases v.truth? <;> simp
  · exact connect hclosed _ es _
  · exact connect hclosed _ es _
  · exact compareEqual hclosed _ _ _
  · exact compareEqual hclosed _ _ _
  · exact withNumbers hclosed (fun _ _ => bool _) _ _
  · exact withNumbers hclosed (fun _ _ => bool _) _ _
  · exact withNumbers hclosed (fun _ _ => bool _) _ _
  · exact withNumbers hclosed (fun _ _ => bool _) _ _
  · exact choose hclosed hv es
  · exact evalCall hclosed hv _ _
  · exact lookUp hclosed _
  · exact evalScope hclosed hv es _
  · exact firstNonNull hclosed hv es
  · exact bind (hclosed.visits _) fun v => bool _
  · exact absurd rfl hcode
  · exact fail _
  · exact fail _

end

/-- A known `typeOf` node that has been visited accounts for its value. -/
theorem typeOf (hclosed : Closed visit Forward) (hknown : known node) (e : Expr α) :
    Accounted known (tick node >>= fun _ => Eval.apply visit node .typeOf [e]) := by
  intro setting c s d h
  have hd : (c.visited node).Precedes d := by
    have happly : Forward (Eval.apply visit node .typeOf [e]) := hclosed.apply .typeOf [e]
    have hrest := happly.visited_bind node setting c
    rwa [h] at hrest
  obtain ⟨-, c₁, -, happly⟩ := bind_eq_ok.1 h
  obtain ⟨v, c₂, -, hv⟩ := bind_eq_ok.1 happly
  cases hv
  have hvisits : visitsOf known (.visit node :: c.trace) ≤ visitsOf known d.trace :=
    visitsOf_le_of_suffix hd.trace
  rw [visitsOf_cons_of_known hknown] at hvisits
  exact .inr ⟨v.type.length_name_le, hvisits⟩

/-- **One step.** The evaluation of a node accounts for its value if those of its operands do. -/
theorem evalNode (hforward : ∀ e, Forward (visit e)) (hv : ∀ e, Accounted known (visit e))
    {e : Expr α} (hknown : e.TypesKnown known) : Accounted known (evalNode visit e) := by
  have hclosed := Forward.closed hforward
  rw [evalNode_eq]
  cases e with
  | lit a v =>
    refine bind (.tick a) fun _ => ?_
    rw [answer]
    split
    · exact countString v
    · exact fail _
  | op a code es =>
    by_cases hcode : code = .typeOf
    · subst hcode
      rcases es with _ | ⟨e, _ | ⟨_, _⟩⟩
      · exact bind (.tick a) fun _ => fail _
      · exact typeOf hclosed (hknown a (by simp [Expr.types])) e
      · exact bind (.tick a) fun _ => fail _
    · refine bind (.tick a) fun _ => ?_
      rw [answer]
      split
      · exact apply hclosed hv hcode es
      · exact fail _

end Accounted

/-- Evaluates an expression, but visits nothing in which a `typeOf` node is not known. -/
def guarded (known : α → Bool) : Nat → Expr α → EvalM α Scalar
  | 0, _ => fail .unfinished
  | depth + 1, e =>
    if e.types.all known then evalNode (guarded known depth) e else fail .unfinished

variable {known : α → Bool}

/-- A guarded evaluation takes nothing back either. -/
theorem forward_guarded (depth : Nat) (e : Expr α) : Forward (guarded known depth e) := by
  induction depth generalizing e with
  | zero => exact .fail _
  | succ depth ih =>
    rw [guarded]
    split
    · exact .evalNode ih e
    · exact .fail _

/-- A guarded evaluation accounts for its value, whatever is in scope. -/
theorem accounted_guarded (depth : Nat) (e : Expr α) : Accounted known (guarded known depth e) := by
  induction depth generalizing e with
  | zero => exact .fail _
  | succ depth ih =>
    rw [guarded]
    split
    · rename_i hknown
      exact .evalNode (forward_guarded depth) ih (List.all_eq_true.1 hknown)
    · exact .fail _

/-- Nothing is promised but that the nodes that are visited are known. -/
private def knowing (known : α → Bool) : Contract α :=
  .ofSites fun κ => κ.Everywhere (Expr.TypesKnown known)

private theorem kept_knowing (known : α → Bool) (setting : Setting) :
    (knowing known).Kept setting :=
  Contract.kept_ofSites setting fun hκ h => h.everywhere hκ fun _ _ _ hop => hop.of_mem

/-- Where all nodes are known, guards do not matter. -/
private theorem agrees_guarded (setting : Setting) (depth : Nat) :
    ∀ κ : Site α, κ.Everywhere (Expr.TypesKnown known) → κ.Sound →
      (knowing known).Agrees setting (eval depth) (guarded known depth) κ := by
  induction depth with
  | zero => exact fun κ _ _ => .fail (.inr ⟨rfl, trivial⟩)
  | succ depth ih =>
    intro κ hκ hs
    have hguard : guarded known (depth + 1) κ.expr = evalNode (guarded known depth) κ.expr :=
      if_pos (List.all_eq_true.2 hκ.expr)
    have hstep := (kept_knowing known setting).agrees_evalNode hκ hs fun κ' h =>
      ih κ' ((kept_knowing known setting).leads hκ hs h) (h.sound hs)
    rw [Contract.Agrees, Comparison.Visits, hguard]
    exact hstep

end Eval

/-- **Strings are accounted for.** If the value of an expression is a string, it has been counted or
a `typeOf` node of the expression has been visited. -/
theorem Expr.accounts_of_str {known : α → Bool} {e : Expr α} (hknown : e.TypesKnown known)
    {setting : Setting} {s : String} {d : State α}
    (h : unbounded e setting .start = (.ok (.str s), d)) : State.start.Accounts known d s := by
  have hagree := agrees_guarded setting ((Site.start e).rank (Site.start e).bound + 1) (.start e)
    (Site.everywhere_start hknown) (Site.sound_start e)
  have heq := hagree.eq (c := .start) ⟨rfl, rfl, trivial, fun _ _ => trivial⟩ rfl
  exact accounted_guarded _ e setting .start s d (heq.symm.trans h)

end OpTree
