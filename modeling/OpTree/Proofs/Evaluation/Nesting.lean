import Mathlib.Algebra.BigOperators.Group.Multiset.Basic
import Mathlib.Data.Multiset.AddSub
import Mathlib.Tactic.Abel
import OpTree.Proofs.Evaluation.Contracts

/-!
# Evaluation ends, and is not nested deeply

A lambda can be called from anywhere where it is visible, and every entry into a scope declares its
lambdas anew and free. What bounds the nesting is the supply of lambdas that a visit could still
come to (`Site.pending`): those of the expression, and for every visible lambda that is free the
lambda itself and those of its body. A call takes the lambda and its body out of the supply, and a
scope only moves lambdas from the expression to its frame. So what is pending together with the
calls in progress never grows (`Site.Leads.pending_le`). In an expression without shared parts all
of them are different, and so are the calls in progress.

Between two calls the expressions become lower. Main statement: `Expr.runWithin_of_nesting_le`, the
nesting of an expression's extent suffices for every evaluation.
-/

namespace OpTree

variable {α : Type}

/-! ### Labels -/

namespace Expr

mutual

/-- The labels of all nodes, that of a node before those of its operands. -/
def labels : Expr α → List α
  | lit a _ => [a]
  | op a _ es => a :: labelsAll es

/-- The labels of all nodes of a list of expressions. -/
def labelsAll : List (Expr α) → List α
  | [] => []
  | e :: es => labels e ++ labelsAll es

end

mutual

/-- The labels of the lambda nodes. -/
def lambdas : Expr α → List α
  | lit .. => []
  | op a code es => if code = .lambda then a :: lambdasAll es else lambdasAll es

/-- The labels of the lambda nodes in a list of expressions. -/
def lambdasAll : List (Expr α) → List α
  | [] => []
  | e :: es => lambdas e ++ lambdasAll es

end

mutual

/-- The labels of lambda nodes are among the labels of all nodes, in order. -/
theorem lambdas_sublist_labels : (e : Expr α) → e.lambdas.Sublist e.labels
  | lit .. => List.nil_sublist _
  | op a code es => by
    rw [lambdas, labels]
    split
    · exact (lambdasAll_sublist_labelsAll es).cons_cons a
    · exact (lambdasAll_sublist_labelsAll es).cons a

theorem lambdasAll_sublist_labelsAll :
    (es : List (Expr α)) → (lambdasAll es).Sublist (labelsAll es)
  | [] => List.nil_sublist _
  | e :: es => (lambdas_sublist_labels e).append (lambdasAll_sublist_labelsAll es)

end

mutual

/-- There are as many labels of lambda nodes as there are such nodes. -/
theorem length_lambdas : (e : Expr α) → e.lambdas.length = e.lambdaCount
  | lit .. => rfl
  | op a code es => by
    rw [lambdas, lambdaCount, ← length_lambdasAll es]
    split <;> rfl

theorem length_lambdasAll : (es : List (Expr α)) → (lambdasAll es).length = lambdaCountAll es
  | [] => rfl
  | e :: es => by
    rw [lambdasAll, lambdaCountAll, List.length_append, length_lambdas e, length_lambdasAll es]

end

/-! ### Lambdas that are pending -/

/-- The labels of the lambda nodes in some expressions, in no order. -/
def lambdaSet (es : List (Expr α)) : Multiset α := lambdasAll es

@[simp]
theorem lambdaSet_nil : lambdaSet ([] : List (Expr α)) = 0 := rfl

@[simp]
theorem lambdaSet_cons (e : Expr α) (es : List (Expr α)) :
    lambdaSet (e :: es) = (e.lambdas : Multiset α) + lambdaSet es := rfl

/-- The lambda nodes of an operand are among those of all operands. -/
theorem lambdas_le_of_mem {e : Expr α} {es : List (Expr α)} (he : e ∈ es) :
    (e.lambdas : Multiset α) ≤ lambdaSet es := by
  induction es with
  | nil => cases he
  | cons f fs ih =>
    rw [lambdaSet_cons]
    rcases List.mem_cons.1 he with rfl | he
    · exact Multiset.le_add_right _ _
    · exact (ih he).trans (Multiset.le_add_left _ _)

/-- The lambda nodes of the operands are among those of the operator. -/
theorem lambdaSet_le_op (a : α) (code : Operator) (es : List (Expr α)) :
    lambdaSet es ≤ ((op a code es).lambdas : Multiset α) := by
  rw [lambdas]
  split
  · exact Multiset.le_cons_self _ _
  · exact le_rfl

end Expr

open OpTree.Expr

/-- The lambda and those of its body, unless it is busy. -/
def Lambda.pending (lambda : Lambda α) : Multiset α :=
  if lambda.busy then 0 else lambda.label ::ₘ lambda.body.lambdas

/-- The lambdas that are pending in a frame. -/
def Frame.pending (frame : Frame α) : Multiset α :=
  (frame.lambdas.entries.map fun entry => entry.2.pending).sum

/-- The lambdas that are pending in the visible frames. -/
def ScopeStack.pending (stack : ScopeStack α) : Multiset α :=
  (stack.visible.map Frame.pending).sum

/-- The lambdas that a visit could still come to. -/
def Site.pending (κ : Site α) : Multiset α :=
  κ.expr.lambdas + κ.scopes.pending

/-- What is pending in a new frame is pending, too. -/
@[simp]
theorem ScopeStack.pending_push (stack : ScopeStack α) (frame : Frame α) :
    (stack.push frame).pending = frame.pending + stack.pending := rfl

/-- A free lambda that is marked is no longer pending, nor are those of its body. -/
theorem Frame.pending_mark {frame : Frame α} {name : String} {lambda : Lambda α}
    (h : frame.lambdas.find? name = some lambda) (hb : lambda.busy = false) :
    (lambda.label ::ₘ (lambda.body.lambdas : Multiset α)) + (frame.mark name true).pending =
      frame.pending := by
  obtain ⟨before, after, he, hm⟩ := NameMap.exists_entries_modify h
    fun lambda => { lambda with busy := true }
  have hfree : lambda.pending = lambda.label ::ₘ (lambda.body.lambdas : Multiset α) := by
    rw [Lambda.pending, hb]
    rfl
  have hbusy : ({ lambda with busy := true } : Lambda α).pending = 0 := rfl
  rw [pending, pending, mark, hm, he]
  simp only [List.map_append, List.map_cons, List.sum_append, List.sum_cons, hfree, hbusy, zero_add]
  abel

/-- When a free lambda becomes busy, it and the lambdas of its body are no longer pending. -/
theorem ScopeStack.pending_mark {stack : ScopeStack α} {name : String} {depth : Nat}
    {lambda : Lambda α} (h : stack.lambda? name = some (depth, lambda))
    (hb : lambda.busy = false) :
    (lambda.label ::ₘ (lambda.body.lambdas : Multiset α)) +
      (stack.mark depth name true).pending = stack.pending := by
  obtain ⟨inner, frame, outer, hs, hd, hl, -⟩ := lambdaIn?_eq_some.1 h
  rw [pending, pending, visible_mark hs hd, hs]
  simp only [List.map_append, List.map_cons, List.sum_append, List.sum_cons,
    ← Frame.pending_mark hl hb]
  abel

/-- Where fewer frames are visible, no more is pending. -/
theorem ScopeStack.pending_narrow_le (stack : ScopeStack α) (depth : Nat) :
    (stack.narrow depth).pending ≤ stack.pending := by
  calc (stack.narrow depth).pending
      ≤ ((stack.visible.take (stack.visible.length - depth)).map Frame.pending).sum +
          (stack.narrow depth).pending := Multiset.le_add_left _ _
    _ = ((stack.visible.take _ ++ stack.visible.drop _).map Frame.pending).sum := by
        rw [List.map_append, List.sum_append]
        rfl
    _ = stack.pending := by
        rw [List.take_append_drop]
        rfl

/-- Nothing is pending in the frame of parameters. -/
theorem IsParamFrame.pending {params : List String} {frame : Frame α}
    (h : IsParamFrame params frame) : frame.pending = 0 := by
  rw [Frame.pending, h.lambdas]
  rfl

/-- A scope moves lambdas from its operands to its frame. -/
theorem Binds.pending_le {es rest : List (Expr α)} {frame : Frame α} (h : Binds es frame rest) :
    frame.pending + lambdaSet rest ≤ lambdaSet es := by
  induction h with
  | start => exact (zero_add (lambdaSet es)).le
  | @constant frame new n v rest _ _ _ _ _ _ hnew ih =>
    obtain ⟨-, rfl⟩ := Frame.bindConstant?_eq_some.1 hnew
    refine le_trans ?_ ih
    rw [lambdaSet_cons, lambdaSet_cons]
    exact add_le_add_right ((Multiset.le_add_left _ _).trans (Multiset.le_add_left _ _))
      frame.pending
  | @lambda frame new n label ps rest name l _ _ hdecl hnew ih =>
    obtain ⟨hnone, rfl⟩ := Frame.bindLambda?_eq_some.1 hnew
    obtain ⟨hlabel, hfree, -, qs, hps, -⟩ := Lambda.declare_eq_ok hdecl
    have hl : l.pending ≤ ((op label .lambda ps).lambdas : Multiset α) := by
      rw [Lambda.pending, hfree, hlabel, Expr.lambdas, if_pos rfl]
      exact Multiset.cons_le_cons label (lambdas_le_of_mem (by simp [hps]))
    have hnew : ({ frame with lambdas := frame.lambdas.insert name l } : Frame α).pending =
        l.pending + frame.pending := by
      rw [Frame.pending, NameMap.entries_insert_of_find?_eq_none hnone]
      rfl
    refine le_trans ?_ ih
    rw [hnew, lambdaSet_cons, lambdaSet_cons]
    calc l.pending + frame.pending + lambdaSet rest
        = frame.pending + (l.pending + lambdaSet rest) := by abel
      _ ≤ frame.pending + (↑(op label .lambda ps).lambdas + lambdaSet rest) :=
          add_le_add_right (add_le_add_left hl _) _
      _ ≤ _ := add_le_add_right (Multiset.le_add_left _ _) _

namespace Site

/-- **The supply of lambdas does not grow.** What is pending and the calls in progress are no more
at a visit than where it comes from. -/
theorem Leads.pending_le {κ κ' : Site α} (h : κ.Leads κ') :
    κ'.pending + κ'.calls ≤ κ.pending + κ.calls := by
  have operand {σ : ScopeStack α} {a code es e} {calls : List α} (he : e ∈ es) :
      Site.pending ⟨σ, e, calls⟩ + calls ≤ Site.pending ⟨σ, .op a code es, calls⟩ + calls :=
    add_le_add_left (add_le_add_left ((lambdas_le_of_mem he).trans (lambdaSet_le_op a code es)) _) _
  cases h with
  | operand _ he => exact operand he
  | name => exact operand List.mem_cons_self
  | bindingName hb => exact operand (hb.suffix.subset (by simp))
  | bindingValue hb => exact operand (hb.suffix.subset (by simp))
  | hostArgument _ _ he => exact operand (List.mem_cons_of_mem _ he)
  | @scopeBody σ a es frame b calls hb =>
    have hframe : (b.lambdas : Multiset α) + frame.pending ≤ (op a .scope es).lambdas := by
      refine le_trans ?_ (hb.pending_le.trans (lambdaSet_le_op a .scope es))
      rw [lambdaSet_cons, lambdaSet_nil, add_zero, add_comm]
    refine add_le_add_left ?_ _
    rw [pending, pending, ScopeStack.pending_push, ← add_assoc]
    exact add_le_add_left hframe _
  | @argument σ a n es e calls name depth l _ hl hb _ he =>
    have he' : (e.lambdas : Multiset α) ≤ (op a .call (n :: es)).lambdas :=
      (lambdas_le_of_mem (List.mem_cons_of_mem n he)).trans (lambdaSet_le_op a .call _)
    -- the lambda that is marked moves from what is pending to the calls
    have hmark : l.label ::ₘ (σ.mark depth name true).pending ≤ σ.pending := by
      rw [← ScopeStack.pending_mark hl hb, Multiset.cons_add]
      exact Multiset.cons_le_cons _ (Multiset.le_add_left _ _)
    calc Site.pending ⟨σ.mark depth name true, e, l.label :: calls⟩ + ↑(l.label :: calls)
        = ↑e.lambdas + (l.label ::ₘ (σ.mark depth name true).pending) + ↑calls := by
          rw [pending, ← Multiset.cons_coe, Multiset.add_cons, Multiset.add_cons,
            Multiset.cons_add]
      _ ≤ _ := add_le_add_left (add_le_add he' hmark) _
  | @lambdaBody σ a n es frame calls name depth l _ hl hb _ hp =>
    have hbody : (l.label ::ₘ (l.body.lambdas : Multiset α)) +
        ((σ.mark depth name true).narrow depth).pending ≤ σ.pending := by
      rw [← ScopeStack.pending_mark hl hb]
      exact add_le_add_right (ScopeStack.pending_narrow_le _ _) _
    calc _ = (l.label ::ₘ (l.body.lambdas : Multiset α)) +
          ((σ.mark depth name true).narrow depth).pending + ↑calls := by
          rw [pending, ScopeStack.pending_push, hp.pending, zero_add, ← Multiset.cons_coe,
            Multiset.add_cons, Multiset.cons_add, Multiset.cons_add]
      _ ≤ σ.pending + ↑calls := add_le_add_left hbody _
      _ ≤ _ := add_le_add_left (Multiset.le_add_left _ _) _

/-! ### How deep an evaluation is nested -/

/-- Neither the expression nor the body of a visible lambda is higher than this. -/
structure Low (bound : Nat) (κ : Site α) : Prop where
  expr : κ.expr.height ≤ bound
  bodies : κ.Lambdas fun l => l.body.height ≤ bound

/-- A visit goes down the expression, or begins a call. -/
theorem Leads.height_lt {κ κ' : Site α} (h : κ.Leads κ') :
    κ'.expr.height < κ.expr.height ∧ κ.calls.length ≤ κ'.calls.length ∨
      κ'.calls.length = κ.calls.length + 1 := by
  cases h with
  | operand _ he => exact .inl ⟨height_lt_of_mem he, le_rfl⟩
  | name => exact .inl ⟨height_lt_of_mem List.mem_cons_self, le_rfl⟩
  | bindingName hb | bindingValue hb | scopeBody hb =>
    exact .inl ⟨height_lt_of_mem (hb.suffix.subset (by simp)), le_rfl⟩
  | hostArgument _ _ he => exact .inl ⟨height_lt_of_mem (List.mem_cons_of_mem _ he), le_rfl⟩
  | argument | lambdaBody => exact .inr rfl

/-- A visit leads to no expression that is higher. -/
theorem Leads.low {κ κ' : Site α} {bound : Nat} (h : κ.Leads κ') (hκ : κ.Low bound) :
    κ'.Low bound := by
  have hlow : κ'.Everywhere fun e => e.height ≤ bound :=
    h.everywhere ⟨hκ.expr, hκ.bodies⟩ fun _ _ _ hop _ he => (height_lt_of_mem he).le.trans hop
  exact ⟨hlow.expr, hlow.bodies⟩

/-- How deep a visit can be nested, one level for every step down in the expression and in the body
of every lambda that could still be called. -/
def rank (bound : Nat) (κ : Site α) : Nat :=
  κ.pending.card * (bound + 1) + κ.expr.height

/-- **Every visit that is made has a lower rank** than the one that makes it. -/
theorem Leads.rank_lt {κ κ' : Site α} {bound : Nat} (h : κ.Leads κ') (hκ : κ.Low bound) :
    κ'.rank bound < κ.rank bound := by
  -- a lambda that is called is pending no more, which outweighs the height of its body
  have hcard := Multiset.card_le_card h.pending_le
  simp only [Multiset.card_add, Multiset.coe_card] at hcard
  have hlow : κ'.expr.height ≤ bound := (h.low hκ).expr
  rw [rank, rank]
  rcases h.height_lt with ⟨hheight, hcalls⟩ | hcalls
  · have hp : κ'.pending.card ≤ κ.pending.card := by omega
    have := Nat.mul_le_mul_right (bound + 1) hp
    omega
  · have hp : κ'.pending.card + 1 ≤ κ.pending.card := by omega
    have := Nat.mul_le_mul_right (bound + 1) hp
    rw [Nat.add_mul, Nat.one_mul] at this
    omega

/-- All lambdas of the expression are pending at the start. -/
theorem pending_start (e : Expr α) : (start e).pending = e.lambdas :=
  add_zero (e.lambdas : Multiset α)

/-- Nothing is higher than the whole expression. -/
theorem low_start (e : Expr α) : (start e).Low e.height :=
  ⟨le_rfl, nofun⟩

/-- At the start the rank is below the nesting of the extent. -/
theorem rank_start_lt (e : Expr α) :
    (start e).rank e.height < (e.lambdaCount + 1) * (e.height + 1) := by
  rw [rank, pending_start, Multiset.coe_card, e.length_lambdas, Nat.add_mul, Nat.one_mul]
  exact Nat.add_lt_add_left (Nat.lt_succ_self _) _

end Site

/-! ### Calls in progress -/

/-- Every call of the host gets a reply. -/
def Host.Replies (host : Host) : Prop :=
  ∀ name call, host.find? name = some call → ∀ history args,
    call.reply host.lookups history args ≠ .never

/-- The lambdas that are pending and those that are being called are all different, and nothing is
higher than a bound. -/
def supply (α : Type) (bound : Nat) : Contract α where
  holds κ := κ.Low bound ∧ (κ.pending + κ.calls).Nodup
  error err := err ≠ .unfinished
  trace happened := ∀ before, before <:+ happened → (inProgress before).Nodup
  invokes _ := True

/-- Relabelling makes no other error of a cut-off. -/
theorem EvalError.map_eq_unfinished {β : Type} {f : α → β} {err : EvalError α} :
    err.map f = .unfinished ↔ err = .unfinished := by
  cases err <;> simp [map]

/-- The lambda that is called is none of those whose calls are in progress. -/
theorem Site.nodup_calls {κ : Site α} {name : String} {depth : Nat} {l : Lambda α}
    (h : (κ.pending + κ.calls).Nodup) (hl : κ.scopes.lambda? name = some (depth, l))
    (hb : l.busy = false) : (l.label :: κ.calls).Nodup := by
  have hle : l.label ::ₘ (κ.calls : Multiset α) ≤ κ.pending + κ.calls := by
    rw [pending, ← ScopeStack.pending_mark hl hb, ← Multiset.singleton_add]
    refine add_le_add_left (le_trans ?_ (Multiset.le_add_left _ _)) _
    rw [Multiset.cons_add, ← Multiset.singleton_add]
    exact Multiset.le_add_right _ _
  exact Multiset.coe_nodup.1 (Multiset.nodup_of_le hle h)

private theorem kept_supply {setting : Setting} (hhost : setting.host.Replies) (bound : Nat) :
    (supply α bound).Kept setting where
  leads hκ _ h := ⟨h.low hκ.1, Multiset.nodup_of_le h.pending_le hκ.2⟩
  fault := by
    rintro κ err - - hf rfl
    -- only a host call that does not reply could be to blame
    generalize he : (EvalError.unfinished : EvalError α) = err at hf
    cases hf with
    | plain _ hp =>
      have hun := EvalError.map_eq_unfinished.1 he.symm
      subst hun
      cases hp
    | host _ _ hh =>
      have hun := EvalError.map_eq_unfinished.1 he.symm
      subst hun
      cases hh with
      | unfinished hcall hr => exact hhost _ _ hcall _ _ hr
    | declare _ hd =>
      subst he
      rcases Lambda.declare_eq_error hd with ⟨h, -⟩ | h | ⟨p, h⟩ <;> cases h
    | _ => cases he
  notes := by
    intro κ event before hκ _ hn hcalls ht t hsuf
    rcases List.suffix_cons_iff.1 hsuf with rfl | hsuf
    · have hbefore := ht before (List.suffix_refl _)
      cases hn with
      | visit | external => exact hbefore
      | enter _ hl hb =>
        rw [inProgress, hcalls]
        exact Site.nodup_calls hκ.2 hl hb
    · exact ht t hsuf
  leave := by
    intro before ht t hsuf
    rcases List.suffix_cons_iff.1 hsuf with rfl | hsuf
    · exact (ht before (List.suffix_refl _)).tail
    · exact ht t hsuf
  invokes _ _ _ := trivial

/-- **Evaluation ends, and is not nested deeply.** If no two nodes of an expression have the same
label and the host replies to every call, then an evaluation that may be nested as deep as the
number of lambdas and the height allow comes to its end, whatever the limits are: it is never cut
off, and being allowed to go deeper changes nothing. At every moment the lambdas whose calls are in
progress are different nodes. -/
theorem Expr.runWithin_of_nesting_le {e : Expr α} {setting : Setting} {depth : Nat}
    (htree : e.labels.Nodup) (hhost : setting.host.Replies)
    (hdepth : (e.lambdaCount + 1) * (e.height + 1) ≤ depth) :
    e.runWithin depth setting = e.run setting ∧ (e.run setting).outcome ≠ .error .unfinished ∧
      ∀ happened, happened <+: (e.run setting).trace → (inProgress happened.reverse).Nodup := by
  have hkept := kept_supply (α := α) hhost e.height
  have hstart : (supply α e.height).holds (.start e) := by
    refine ⟨Site.low_start e, ?_⟩
    rw [Site.pending_start]
    exact Multiset.coe_nodup.2 (by simpa [Site.start] using htree.sublist e.lambdas_sublist_labels)
  have hrank := Site.rank_start_lt e
  have hnil : (supply α e.height).trace [] := by
    intro before hsuf
    rw [List.suffix_nil.1 hsuf]
    exact List.nodup_nil
  obtain ⟨heq, hmet⟩ := hkept.met_of_rank (Site.rank e.height)
    (fun hκ _ h => h.rank_lt hκ.1) hstart hnil hrank (hrank.trans_le hdepth)
  refine ⟨heq.symm, fun h => hmet.error _ h rfl, fun happened hpre => ?_⟩
  exact hmet.trace _ (List.reverse_suffix.2 hpre)

/-- The identity, called on what a host call answers. -/
theorem Expr.runWithin_of_nesting_le_identity :
    let now : CallTable := ⟨⟨[("now", .constant (.bool true))]⟩⟩
    let setting : Setting := ⟨.unlimited, ⟨now, none, .empty⟩, .timed⟩
    let identity : Expr Nat := .op 2 .lambda [.lit 3 (.str "x"), .op 4 .lookup [.lit 5 (.str "x")]]
    let call : Expr Nat := .op 6 .call [.lit 7 (.str "f"), .op 8 .call [.lit 9 (.str "now")]]
    let e : Expr Nat := .op 0 .scope [.lit 1 (.str "f"), identity, call]
    e.runWithin 8 setting = e.run setting ∧ (e.run setting).outcome ≠ .error .unfinished ∧
      ∀ happened, happened <+: (e.run setting).trace → (inProgress happened.reverse).Nodup := by
  intro now setting identity call e
  refine runWithin_of_nesting_le (by decide) ?_ (by decide)
  intro name f hf history args
  have hfind : setting.host.find? name = if name = "now" then some (.constant (.bool true))
      else none := NameMap.find?_insert .empty "now" name _
  rw [hfind] at hf
  split at hf <;> cases hf
  simp [HostCall.reply]

end OpTree
