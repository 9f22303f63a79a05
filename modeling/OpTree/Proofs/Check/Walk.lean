import Mathlib.Data.List.Induction
import OpTree.Proofs.Check.Occurrences
import OpTree.Proofs.Check.Related

/-!
# Two checks side by side

A `Walk` is what a comparison of two checks needs to know about single nodes: how the reports of the
two checks are related when the left-hand one has met some operators, what it supposes of the static
frames at a place and of the expression there, and that errors, warnings and calls keep to it. From
that follows what is true of whole expressions: `Paired e f` says that, wherever `e` and `f` stand,
their checks are related by the comparison.

The check of an operator is related if those of its operands are and the names among them are the
same (`Walk.related_operator`). There is one lemma for each function of the check. The most frequent
case is that of an expression beside the same one with other labels (`Walk.paired_map`), or beside
itself (`Walk.paired_self`).
-/

namespace OpTree

open List

variable {α β : Type}

/-- A warning is told of its own node. -/
theorem Warning.map_node (w : Warning α) : w.map (fun _ => w.node) = w := by
  cases w <;> rfl

namespace Check

/-! ### The nodes to blame -/

/-- `Fault x a err`: the check of the node `x` itself, its operands apart, fails with `err`, which
blames the label `a`. -/
inductive Fault : Expr α → α → EvalError α → Prop
  | arity {a code es} : code.arity.accepts es.length = false →
      Fault (.op a code es) a (.invalidArity a code code.arity es.length)
  | lambda {a es} : Fault (.op a .lambda es) a (.misplacedLambda a)
  | name {a code es n} : n ∈ code.names es → Fault (.op a code es) a (.invalidName a code)
  | lookup {a es s} : Fault (.op a .lookup es) a (.uninitializedVariable a s)
  | call {a es s} : Fault (.op a .call es) a (.callNotAllowed a s)
  | lambdaArity {a n args s k} : k ≠ args.length →
      Fault (.op a .call (n :: args)) a (.lambdaArity a s k args.length)
  | duplicate {a es s space} : Fault (.op a .scope es) a (.duplicateName a s space)
  | declare {a es n label ps err} : (n, .op label .lambda ps) ∈ bindings es →
      Lambda.declare label ps = .error err → Fault (.op a .scope es) label err

/-- The operands of a plain operator are checked one after the other. -/
theorem check_of_isPlain {code : Operator} (hp : code.isPlain) (allowed : Option (List String))
    (frames : List StaticFrame) (node : α) (es : List (Expr α)) :
    check allowed frames (.op node code es) = record Report.countOp >>= fun _ =>
      if code.arity.accepts es.length then checkAll allowed frames es
      else throw (.invalidArity node code code.arity es.length) := by
  cases code <;> first | rfl | cases hp

/-- A call whose name is spelled out is counted and looked up before its arguments are checked. -/
theorem check_call_of_name? {allowed : Option (List String)} {frames : List StaticFrame}
    {node : α} {n : Expr α} {s : String} (h : n.name? = some s) (args : List (Expr α)) :
    check allowed frames (.op node .call (n :: args)) =
      (record Report.countOp >>= fun _ => checkCall allowed frames node args.length (some s)) >>=
        fun _ => checkAll allowed frames args := by
  have ha : Operator.call.arity.accepts (n :: args).length = true :=
    decide_eq_true (Nat.le_add_left 1 args.length)
  match n, h with
  | .lit b (.str _), rfl =>
    rw [check, if_pos ha, bind_assoc]
    rfl

/-- Only lambdas have a body to be checked. -/
theorem checkBody_of_isLambda_eq_false {allowed : Option (List String)}
    {frames : List StaticFrame} {e : Expr α} (h : e.isLambda = false) :
    checkBody allowed frames e = pure () := by
  cases e with
  | lit => rfl
  | op _ code => cases code <;> first | rfl | cases h

/-- What a binding declares has literals for parameters. -/
theorem Declarable.literalParams {v : Expr α} (h : Declarable v) : LiteralParams v := by
  rintro label ps rfl p hp
  obtain ⟨l, hl⟩ := h label ps rfl
  obtain ⟨-, -, -, qs, rfl, hqs⟩ := Lambda.declare_eq_ok hl
  rw [dropLast_concat] at hp
  have hname : p.name? ∈ l.params.map some := hqs ▸ mem_map_of_mem hp
  obtain ⟨s, -, hs⟩ := mem_map.1 hname
  simp [← hs]

end Check

open Check

/-- What a comparison of two checks knows about nodes. -/
structure Walk (cmp : CheckComparison α β) where
  /-- The allow-list of the left-hand check. -/
  left : Option (List String)
  /-- The allow-list of the right-hand check. -/
  right : Option (List String)
  /-- How the labels of a node are related. -/
  labels : α → β → Prop
  /-- What is known of an expression that stands inside of some scopes. -/
  site : List (List (Expr α)) → Expr α → Prop
  /-- What is known of the static frames inside of some scopes. -/
  frames : List (List (Expr α)) → List StaticFrame → Prop
  /-- How the reports are related when these operators have been met. -/
  reports : List (Occurrence α) → Report α → Report β → Prop
  /-- What is known of an expression is known of its parts. -/
  site_inside : ∀ {ss e ss' x}, Inside ss e ss' x → site ss e → site ss' x
  /-- The bindings of a scope make a frame. -/
  frames_scope : ∀ {ss fr es frame}, frames ss fr →
    StaticFrame.empty.DeclaresAll (bindings es) frame → frames (es :: ss) (frame :: fr)
  /-- The parameters of a lambda make a frame. -/
  frames_params : ∀ {ss fr} (ps : List String), frames ss fr → frames ss (.ofParams ps :: fr)
  /-- An operator is counted. If it is a call, its name is computed. -/
  count : ∀ {os ss x r ρ}, x.calledName? = none → reports os r ρ →
    reports (os ++ [⟨ss, x⟩]) r.countOp ρ.countOp
  /-- A call whose name is spelled out is counted and looked up. -/
  call : ∀ {os ss a b n args s fr fr'}, site ss (.op a .call (n :: args)) → n.name? = some s →
    frames ss fr → Alike fr fr' → labels a b →
    cmp.Related (reports os) (reports (os ++ [⟨ss, .op a .call (n :: args)⟩])) (fun _ _ => True)
      (record Report.countOp >>= fun _ => checkCall left fr a args.length (some s))
      (record Report.countOp >>= fun _ => checkCall right fr' b args.length (some s))
  /-- There is a warning that has nothing to do with calls. -/
  warn : ∀ {os b r ρ} {w : Warning α}, w.kind ≠ "UnresolvedCall" → labels w.node b →
    reports os r ρ → reports os (r.warn w) (ρ.warn (w.map fun _ => b))
  /-- The check of a node fails. -/
  error : ∀ {ss x a b err}, site ss x → Fault x a err → labels a b →
    cmp.Accepts err (err.map fun _ => b)

namespace Walk

variable {cmp : CheckComparison α β} (W : Walk cmp)

/-- Wherever the two expressions stand, their checks are related, and so are those of the bodies of
lambdas. -/
structure Paired (e : Expr α) (f : Expr β) : Prop where
  isLambda : f.isLambda = e.isLambda
  lambda : ∀ label ps, e = .op label .lambda ps → ∃ label' qs, f = .op label' .lambda qs ∧
    W.labels label label' ∧ (Lambda.declare label' qs).map Lambda.params =
      ((Lambda.declare label ps).map Lambda.params).mapError (EvalError.map fun _ => label')
  node : ∀ {ss fr fr'}, W.site ss e → W.frames ss fr → Alike fr fr' → ∀ os,
    cmp.Related (W.reports os) (W.reports (os ++ e.occurrences .met ss)) (fun _ _ => True)
      (check W.left fr e) (check W.right fr' f)
  body : ∀ {ss fr fr'}, (∀ x, e.lambdaBody? = some x → W.site ss x) → W.frames ss fr →
    Alike fr fr' → ∀ os, cmp.Related (W.reports os) (W.reports (os ++ e.bodyOccurrences ss))
      (fun _ _ => True) (checkBody W.left fr e) (checkBody W.right fr' f)

variable {W} {a : α} {b : β} {code : Operator} {e n v : Expr α} {f m w : Expr β}
  {es scope : List (Expr α)} {fs : List (Expr β)} {ss : List (List (Expr α))}
  {fr fr' : List StaticFrame} {frame : StaticFrame}

/-! ### Lists of operands -/

/-- Operands are checked from left to right. -/
theorem related_checkAll (h : Forall₂ W.Paired es fs) (hsite : ∀ e ∈ es, W.site ss e)
    (hframes : W.frames ss fr) (hlike : Alike fr fr') (os : List (Occurrence α)) :
    cmp.Related (W.reports os) (W.reports (os ++ Expr.occurrencesAll .met ss es))
      (fun _ _ => True) (checkAll W.left fr es) (checkAll W.right fr' fs) := by
  induction h generalizing os with
  | nil =>
    rw [Expr.occurrencesAll, append_nil]
    exact .pure trivial fun _ _ h => h
  | cons he _ ih =>
    rw [forall_mem_cons] at hsite
    rw [Expr.occurrencesAll, ← append_assoc]
    exact (he.node hsite.1 hframes hlike os).bind fun _ _ _ => ih hsite.2 _

/-- The operands after a name. -/
theorem related_checkTail (h : Forall₂ W.Paired es fs) (hsite : ∀ e ∈ es, W.site ss e)
    (hframes : W.frames ss fr) (hlike : Alike fr fr') (os : List (Occurrence α)) :
    cmp.Related (W.reports os) (W.reports (os ++ Expr.occurrencesAll .met ss es.tail))
      (fun _ _ => True) (checkTail W.left fr es) (checkTail W.right fr' fs) := by
  cases h with
  | nil => exact related_checkAll .nil hsite hframes hlike os
  | cons _ hes => exact related_checkAll hes (forall_mem_cons.1 hsite).2 hframes hlike os

/-- The last operand. -/
theorem related_checkLast (h : Forall₂ W.Paired es fs)
    (hsite : ∀ x, es.getLast? = some x → W.site ss x) (hframes : W.frames ss fr)
    (hlike : Alike fr fr') (os : List (Occurrence α)) :
    cmp.Related (W.reports os) (W.reports (os ++ Expr.lastOccurrences ss es))
      (fun _ _ => True) (checkLast W.left fr es) (checkLast W.right fr' fs) := by
  induction h with
  | nil =>
    rw [Expr.lastOccurrences, getLast?_nil, Option.toList_none, flatMap_nil, append_nil]
    exact .pure trivial fun _ _ h => h
  | @cons e _ es _ he hes ih =>
    cases hes with
    | nil =>
      rw [Expr.lastOccurrences, getLast?_singleton, Option.toList_some, flatMap_singleton]
      exact he.node (hsite e rfl) hframes hlike os
    | cons =>
      rw [Expr.lastOccurrences, getLast?_cons_cons] at *
      exact ih hsite

/-! ### Names -/

/-- An operand that stands for a name. -/
theorem related_nameOf (h : W.Paired n m) (hname : m.literal? = n.literal?)
    (hlabels : W.labels a b) (hsite : W.site ss n) (hframes : W.frames ss fr)
    (hlike : Alike fr fr')
    (hbad : cmp.Accepts (.invalidName a code) (.invalidName b code)) (os : List (Occurrence α)) :
    cmp.Related (W.reports os) (W.reports (os ++ n.occurrences .met ss))
      (fun s t => s = n.name? ∧ t = n.name?) (nameOf a code n (check W.left fr n))
      (nameOf b code m (check W.right fr' m)) := by
  refine CheckComparison.related_nameOf hname (h.node hsite hframes hlike os) (fun hn => ?_)
    (fun _ _ hr => W.warn (w := .dynamicName a code) (by simp [Warning.kind]) hlabels hr)
    fun _ => hbad
  obtain ⟨s, hs⟩ := Option.ne_none_iff_exists'.1 hn
  rw [Expr.occurrences_of_literal? hs, append_nil]
  exact fun _ _ h => h

/-- The first operand of a lookup or of a call. -/
theorem related_checkHeadName (h : Forall₂ W.Paired es fs)
    (hnames : (fs.take 1).map Expr.literal? = (es.take 1).map Expr.literal?)
    (hlabels : W.labels a b) (hsite : ∀ e ∈ es, W.site ss e) (hframes : W.frames ss fr)
    (hlike : Alike fr fr')
    (hbad : ∀ n ∈ es.take 1, cmp.Accepts (.invalidName a code) (.invalidName b code))
    (os : List (Occurrence α)) :
    cmp.Related (W.reports os) (W.reports (os ++ Expr.occurrencesAll .met ss (es.take 1)))
      (fun s t => s = es.head?.bind Expr.name? ∧ t = es.head?.bind Expr.name?)
      (checkHeadName W.left fr a code es) (checkHeadName W.right fr' b code fs) := by
  cases h with
  | nil =>
    rw [take_nil, Expr.occurrencesAll, append_nil]
    exact .pure ⟨rfl, rfl⟩ fun _ _ h => h
  | cons he =>
    rw [take_succ_cons, take_zero, Expr.occurrencesAll, Expr.occurrencesAll, append_nil]
    exact related_nameOf he (List.cons.inj hnames).1 hlabels (hsite _ mem_cons_self) hframes hlike
      (hbad _ mem_cons_self) os

/-! ### Scopes -/

/-- The value of a binding. -/
theorem related_declare (h : W.Paired v w) (name : Option String) (hlabels : W.labels a b)
    (hscope : W.site ss (.op a .scope scope)) (hmem : (n, v) ∈ bindings scope)
    (hframes : W.frames ss fr) (hlike : Alike fr fr') (os : List (Occurrence α)) :
    cmp.Related (W.reports os)
      (W.reports (os ++ if v.isLambda then [⟨ss, v⟩] else v.occurrences .met ss))
      (fun s t => s = t ∧ frame.Declares name v s ∧ Declarable v)
      (declare a frame name v (check W.left fr v))
      (declare b frame name w (check W.right fr' w)) := by
  have hdup (s : String) (space : Namespace) :
      cmp.Accepts (.duplicateName a s space) (.duplicateName b s space) :=
    W.error hscope .duplicate hlabels
  cases hv : v.isLambda with
  | false =>
    rw [if_neg Bool.false_ne_true]
    have hsite : W.site ss v := W.site_inside (.value hmem hv .here) hscope
    exact CheckComparison.related_declare_constant hv (h.isLambda.trans hv)
      (h.node hsite hframes hlike os) fun s => hdup s .constant
  | true =>
    rw [if_pos rfl]
    match v, hv with
    | .op label .lambda ps, _ =>
      obtain ⟨label', qs, rfl, hlambda, hparams⟩ := h.lambda label ps rfl
      exact CheckComparison.related_declare_lambda hparams (fun _ _ hr => W.count rfl hr)
        (fun e he => W.error hscope (.declare hmem he) hlambda) fun s => hdup s .lambda

/-- The bindings of a scope. The frames that they make are the same on both sides. -/
theorem related_checkBindings (hlabels : W.labels a b) (hscope : W.site ss (.op a .scope scope))
    (hframes : W.frames ss fr) (hlike : Alike fr fr') (h : Forall₂ W.Paired es fs)
    (hnames : (bindingNames fs).map Expr.literal? = (bindingNames es).map Expr.literal?)
    (hsub : bindings es ⊆ bindings scope) (os : List (Occurrence α)) :
    cmp.Related (W.reports os) (W.reports (os ++ (bindings es).flatMap (Expr.outside ss)))
      (fun s t => s = t ∧ frame.DeclaresAll (bindings es) s)
      (checkBindings W.left fr a frame es) (checkBindings W.right fr' b frame fs) := by
  induction es using twoStepInduction generalizing fs frame os with
  | nil =>
    cases h
    exact .pure ⟨rfl, .nil⟩ fun _ _ h => (append_nil os).symm ▸ h
  | singleton e =>
    cases h with
    | cons _ hnil =>
      cases hnil
      exact .pure ⟨rfl, .nil⟩ fun _ _ h => (append_nil os).symm ▸ h
  | cons_cons n v es ih =>
    obtain ⟨m, _, hn, htail, rfl⟩ := forall₂_cons_left_iff.1 h
    obtain ⟨w, fs, hv, hrest, rfl⟩ := forall₂_cons_left_iff.1 htail
    obtain ⟨hname, hnames⟩ := List.cons.inj hnames
    have hmem : (n, v) ∈ bindings scope := hsub mem_cons_self
    have hsite : W.site ss n := W.site_inside (.name hmem .here) hscope
    have hbad : cmp.Accepts (.invalidName a .scope) (.invalidName b .scope) :=
      W.error hscope (.name (n := n) (mem_bindingNames hmem)) hlabels
    rw [bindings, flatMap_cons, Expr.outside, ← append_assoc, ← append_assoc]
    refine (related_nameOf hn hname hlabels hsite hframes hlike hbad os).bind ?_
    rintro _ _ ⟨rfl, rfl⟩
    refine (related_declare hv n.name? hlabels hscope hmem hframes hlike _).bind ?_
    rintro next _ ⟨rfl, hdeclares, hdeclarable⟩
    refine (ih hrest hnames (fun _ h => hsub (mem_cons_of_mem _ h)) _).imp ?_
    rintro last _ ⟨rfl, hlast⟩
    exact ⟨rfl, .cons hdeclares hdeclarable hlast⟩

/-- The bodies of the lambdas that the bindings declare. -/
theorem related_checkLambdas (hframes : W.frames ss fr) (hlike : Alike fr fr')
    (h : Forall₂ W.Paired es fs)
    (hsite : ∀ n v, (n, v) ∈ bindings es → ∀ x, v.lambdaBody? = some x → W.site ss x)
    (os : List (Occurrence α)) :
    cmp.Related (W.reports os)
      (W.reports (os ++ (bindings es).flatMap fun b => b.2.bodyOccurrences ss))
      (fun _ _ => True) (checkLambdas W.left fr es) (checkLambdas W.right fr' fs) := by
  induction es using twoStepInduction generalizing fs os with
  | nil =>
    cases h
    exact .pure trivial fun _ _ h => (append_nil os).symm ▸ h
  | singleton e =>
    cases h with
    | cons _ hnil =>
      cases hnil
      exact .pure trivial fun _ _ h => (append_nil os).symm ▸ h
  | cons_cons n v es ih =>
    obtain ⟨m, _, -, htail, rfl⟩ := forall₂_cons_left_iff.1 h
    obtain ⟨w, fs, hv, hrest, rfl⟩ := forall₂_cons_left_iff.1 htail
    rw [forall_bindings_cons] at hsite
    rw [bindings, flatMap_cons, ← append_assoc]
    exact (hv.body hsite.1 hframes hlike os).bind fun _ _ _ => ih hrest hsite.2 _

/-! ### Operators -/

/-- The number of operands is checked first. -/
private theorem related_node {Q : Report α → Report β → Prop} {x : CheckM α Unit}
    {y : CheckM β Unit} (hlen : es.length = fs.length) (hlabels : W.labels a b)
    (hsite : W.site ss (.op a code es)) (hcalled : (Expr.op a code es).calledName? = none)
    (os : List (Occurrence α))
    (h : code.arity.accepts es.length →
      cmp.Related (W.reports (os ++ [⟨ss, .op a code es⟩])) Q (fun _ _ => True) x y) :
    cmp.Related (W.reports os) Q (fun _ _ => True)
      (record Report.countOp >>= fun _ => if code.arity.accepts es.length then x
        else throw (.invalidArity a code code.arity es.length))
      (record Report.countOp >>= fun _ => if code.arity.accepts fs.length then y
        else throw (.invalidArity b code code.arity fs.length)) := by
  have hcount : cmp.Related (W.reports os) (W.reports (os ++ [⟨ss, .op a code es⟩]))
      (fun _ _ => True) (record Report.countOp) (record Report.countOp) :=
    .record fun _ _ hr => W.count hcalled hr
  rw [← hlen]
  refine hcount.bind fun _ _ _ => .ite h fun ha => .throw ?_
  exact W.error hsite (.arity (Bool.eq_false_iff.2 ha)) hlabels

/-- A call whose name is spelled out is one step; otherwise the name is checked before the
arguments. -/
private theorem related_call (h : Forall₂ W.Paired es fs)
    (hnames : (fs.take 1).map Expr.literal? = (es.take 1).map Expr.literal?)
    (hlabels : W.labels a b) (hsite : W.site ss (.op a .call es)) (hframes : W.frames ss fr)
    (hlike : Alike fr fr') (os : List (Occurrence α)) :
    cmp.Related (W.reports os) (W.reports (os ++ (Expr.op a .call es).occurrences .met ss))
      (fun _ _ => True) (check W.left fr (.op a .call es))
      (check W.right fr' (.op b .call fs)) := by
  have hsites : ∀ e ∈ es, W.site ss e := fun e he =>
    W.site_inside (.operand (by decide) (by decide) he .here) hsite
  have hocc : (Expr.op a .call es).occurrences .met ss =
      ⟨ss, .op a .call es⟩ :: Expr.occurrencesAll .met ss es := rfl
  cases hs : (Expr.op a .call es).calledName? with
  | some s =>
    -- the name is spelled out: the call is counted and looked up at once
    cases h with
    | nil => cases hs
    | @cons n m args margs hn hargs =>
      have hs' : m.name? = some s := by
        rw [Expr.name?, (List.cons.inj hnames).1]
        exact hs
      obtain ⟨t, ht⟩ := Expr.exists_literal? hs
      rw [check_call_of_name? hs, check_call_of_name? hs', ← hargs.length_eq, hocc,
        Expr.occurrencesAll, Expr.occurrences_of_literal? ht, nil_append, append_cons]
      exact (W.call hsite hs hframes hlike hlabels).bind fun _ _ _ =>
        related_checkAll hargs (forall_mem_cons.1 hsites).2 hframes hlike _
  | none =>
    rw [hocc, append_cons]
    refine related_node h.length_eq hlabels hsite hs os fun _ => ?_
    have hbad : ∀ n ∈ es.take 1, cmp.Accepts (.invalidName a .call) (.invalidName b .call) :=
      fun n hn => W.error hsite (.name (n := n) hn) hlabels
    have hsplit : Expr.occurrencesAll .met ss es =
        Expr.occurrencesAll .met ss (es.take 1) ++ Expr.occurrencesAll .met ss es.tail := by
      cases es with
      | nil => rfl
      | cons => simp [Expr.occurrencesAll]
    rw [hsplit, ← append_assoc]
    refine (related_checkHeadName h hnames hlabels hsites hframes hlike hbad _).bind ?_
    rintro _ _ ⟨rfl, rfl⟩
    have hnone : es.head?.bind Expr.name? = none := by
      cases es with
      | nil => rfl
      | cons => exact hs
    rw [hnone]
    exact related_checkTail h hsites hframes hlike _

/-- A scope: its bindings outside of it, its lambdas and its body inside. -/
private theorem related_scope (h : Forall₂ W.Paired es fs)
    (hnames : (bindingNames fs).map Expr.literal? = (bindingNames es).map Expr.literal?)
    (hlabels : W.labels a b) (hsite : W.site ss (.op a .scope es)) (hframes : W.frames ss fr)
    (hlike : Alike fr fr') (os : List (Occurrence α)) :
    cmp.Related (W.reports os) (W.reports (os ++ (Expr.op a .scope es).occurrences .met ss))
      (fun _ _ => True) (check W.left fr (.op a .scope es))
      (check W.right fr' (.op b .scope fs)) := by
  refine related_node h.length_eq hlabels hsite rfl os fun hodd => ?_
  refine (related_checkBindings hlabels hsite hframes hlike h hnames (Subset.refl _) _).bind ?_
  rintro frame _ ⟨rfl, hframe⟩
  have hframes' : W.frames (es :: ss) (frame :: fr) := W.frames_scope hframes hframe
  have hocc : os ++ (Expr.op a .scope es).occurrences .met ss =
      os ++ [⟨ss, .op a .scope es⟩] ++ (bindings es).flatMap (Expr.outside ss) ++
        (bindings es).flatMap (fun b => b.2.bodyOccurrences (es :: ss)) ++
          Expr.lastOccurrences (es :: ss) es := by
    rw [Expr.occurrences_scope (beq_iff_eq.1 hodd) fun n v hmem =>
      (hframe.declarable n v hmem).literalParams]
    simp only [append_assoc, cons_append, nil_append]
  rw [hocc]
  -- the lambdas are checked only now, in the frame that all bindings have made
  refine (related_checkLambdas hframes' (hlike.cons frame) h
    (fun n v hmem x hx => W.site_inside (.lambda hmem hx .here) hsite) _).bind fun _ _ _ => ?_
  exact related_checkLast h (fun x hx => W.site_inside (.body hx .here) hsite) hframes'
    (hlike.cons frame) _

/-- **Operators.** The checks of an operator are related if those of its operands are and the names
among them are the same. -/
theorem related_operator (h : Forall₂ W.Paired es fs)
    (hnames : (code.names fs).map Expr.literal? = (code.names es).map Expr.literal?)
    (hlabels : W.labels a b) (hsite : W.site ss (.op a code es)) (hframes : W.frames ss fr)
    (hlike : Alike fr fr') (os : List (Occurrence α)) :
    cmp.Related (W.reports os) (W.reports (os ++ (Expr.op a code es).occurrences .met ss))
      (fun _ _ => True) (check W.left fr (.op a code es))
      (check W.right fr' (.op b code fs)) := by
  have hsites (hscope : code ≠ .scope) (hlambda : code ≠ .lambda) : ∀ e ∈ es, W.site ss e :=
    fun e he => W.site_inside (.operand hscope hlambda he .here) hsite
  rcases code.isPlain_or with hp | rfl | rfl | rfl | rfl
  · have hcalled : (Expr.op a code es).calledName? = none := by
      cases code <;> first | rfl | cases hp
    rw [check_of_isPlain hp, check_of_isPlain hp,
      Expr.occurrences_of_ne_scope (Operator.ne_of_isPlain hp rfl), append_cons]
    exact related_node h.length_eq hlabels hsite hcalled os fun _ => related_checkAll h
      (hsites (Operator.ne_of_isPlain hp rfl) (Operator.ne_of_isPlain hp rfl)) hframes hlike _
  · exact related_call h hnames hlabels hsite hframes hlike os
  · rw [Expr.occurrences_of_ne_scope (by decide), append_cons]
    refine related_node h.length_eq hlabels hsite rfl os fun hlen => ?_
    obtain ⟨n, rfl⟩ : ∃ n, es = [n] := length_eq_one_iff.1 (beq_iff_eq.1 hlen)
    refine (related_checkHeadName h hnames hlabels (hsites (by decide) (by decide)) hframes hlike
      (fun n hn => W.error hsite (.name (n := n) hn) hlabels) _).bind ?_
    rintro _ _ ⟨rfl, rfl⟩
    exact CheckComparison.related_checkLookup hlike _
      (fun s _ _ hr => W.warn (w := .unresolvedLookup a s) (by simp [Warning.kind]) hlabels hr)
      fun s => W.error hsite .lookup hlabels
  · exact related_scope h hnames hlabels hsite hframes hlike os
  · rw [Expr.occurrences_of_ne_scope (by decide), append_cons]
    exact related_node h.length_eq hlabels hsite rfl os fun _ =>
      .throw (W.error hsite .lambda hlabels)

/-! ### Expressions -/

/-- Other expressions than lambdas have no body. -/
theorem Paired.of_isLambda_eq_false (he : e.isLambda = false) (hf : f.isLambda = false)
    (node : ∀ {ss fr fr'}, W.site ss e → W.frames ss fr → Alike fr fr' → ∀ os,
      cmp.Related (W.reports os) (W.reports (os ++ e.occurrences .met ss)) (fun _ _ => True)
        (check W.left fr e) (check W.right fr' f)) : W.Paired e f where
  isLambda := hf.trans he.symm
  lambda := by
    rintro label ps rfl
    cases he
  node := node
  body _ _ _ os := by
    rw [checkBody_of_isLambda_eq_false he, checkBody_of_isLambda_eq_false hf,
      Expr.bodyOccurrences_of_isLambda_eq_false he, append_nil]
    exact .pure trivial fun _ _ h => h

/-- Literals are not checked. -/
theorem Paired.lit (a : α) (b : β) (s t : Scalar) : W.Paired (.lit a s) (.lit b t) :=
  .of_isLambda_eq_false rfl rfl fun _ _ _ os =>
    .pure trivial fun _ _ h => (append_nil os).symm ▸ h

/-- Lambdas with the same names for parameters. -/
private theorem Paired.op_lambda (h : Forall₂ W.Paired es fs)
    (hnames : fs.dropLast.map Expr.literal? = es.dropLast.map Expr.literal?)
    (hlabels : W.labels a b) : W.Paired (.op a .lambda es) (.op b .lambda fs) where
  isLambda := rfl
  lambda := by
    rintro _ _ ⟨⟩
    refine ⟨b, fs, rfl, hlabels, Lambda.declare_of_names h.length_eq.symm ?_⟩
    rw [Expr.map_name?, hnames, ← Expr.map_name?]
  node hsite hframes hlike os := by
    have hparams : (Operator.lambda.names fs).map Expr.literal? =
        (Operator.lambda.names es).map Expr.literal? := hnames
    exact related_operator h hparams hlabels hsite hframes hlike os
  body {ss fr fr'} hsite hframes hlike os := by
    have hparams : fs.dropLast.filterMap Expr.name? = es.dropLast.filterMap Expr.name? := by
      rw [Expr.filterMap_name?, hnames, ← Expr.filterMap_name?]
    rw [checkBody, checkBody, hparams]
    exact related_checkLast h hsite (W.frames_params _ hframes) (hlike.cons _) os

/-- An operator with the same names among its operands. -/
theorem Paired.op (h : Forall₂ W.Paired es fs)
    (hnames : (code.names fs).map Expr.literal? = (code.names es).map Expr.literal?)
    (hlabels : W.labels a b) : W.Paired (.op a code es) (.op b code fs) := by
  by_cases hcode : code = .lambda
  · subst hcode
    exact .op_lambda h hnames hlabels
  · exact .of_isLambda_eq_false (Expr.isLambda_op_of_ne hcode a es)
      (Expr.isLambda_op_of_ne hcode b fs) fun hsite hframes hlike os =>
        related_operator h hnames hlabels hsite hframes hlike os

/-- The checks of whole expressions, outside of all scopes. -/
theorem Paired.agree (h : W.Paired e f) (hsite : W.site [] e) (hframes : W.frames [] [])
    {r : Report α} {ρ : Report β} (hreports : W.reports [] r ρ) :
    cmp.Agree (fun _ _ => True) (W.reports (e.occurrences .met [])) (check W.left [] e r)
      (check W.right [] f ρ) :=
  h.node hsite hframes (.refl []) [] r ρ hreports

/-- An expression beside the same one with other labels. -/
theorem paired_map (g : α → β) (hlabels : ∀ a, W.labels a (g a)) (e : Expr α) :
    W.Paired e (e.map g) := by
  induction e with
  | lit a s => exact .lit a (g a) s s
  | op a code es ih =>
    rw [Expr.map_op]
    refine .op (forall₂_map_right_iff.2 (forall₂_same.2 ih)) ?_ (hlabels a)
    rw [← Operator.map_names, map_map]
    exact map_congr_left fun e _ => e.literal?_map g

/-- A statement about one check is the comparison of the check with itself. -/
theorem paired_self {cmp : CheckComparison α α} {W : Walk cmp} (hlabels : ∀ a, W.labels a a)
    (e : Expr α) : W.Paired e e := by
  have h := W.paired_map id hlabels e
  rwa [Expr.map_id] at h

end Walk

end OpTree
