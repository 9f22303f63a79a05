import OpTree.Proofs.Check.Acceptance

/-!
# What the check counts and lists, and in which order

A check meets every operator of an expression once, so that the number it reports is the length of
the list of all of them (`Expr.occurrences`). It lists the host calls among them that its allow-list
lets pass, each where it is met first. A walk along the check keeps both numbers and names in step
with the operators that have been met (`Check.traversalWalk`).

The check does not meet the operators in the order in which they are written. The host calls are
therefore reported in that order only where no lambda that calls the host is followed, in its scope,
by a binding that does.

Main statements: `Expr.opCount_of_check` and `Expr.calls_of_check`.
-/

namespace OpTree

open List

variable {α : Type}

/-! ### Names without duplicates -/

/-- Each name is kept once. -/
private theorem nodup_eraseDups (names : List String) : names.eraseDups.Nodup := by
  match names with
  | [] => exact nodup_nil
  | name :: names =>
    rw [eraseDups_cons, nodup_cons]
    exact ⟨by simp [mem_eraseDups], nodup_eraseDups _⟩
termination_by names.length
decreasing_by exact Nat.lt_succ_of_le (length_filter_le _ _)

/-- Without duplicates, a name that has been seen adds nothing. -/
private theorem eraseDups_concat (seen : List String) (name : String) :
    (seen ++ [name]).eraseDups =
      if name ∈ seen then seen.eraseDups else seen.eraseDups ++ [name] := by
  have hname : [name].eraseDups = [name] := rfl
  rw [eraseDups_append]
  by_cases hseen : name ∈ seen <;> simp [removeAll, hseen, hname]

namespace Check

/-! ### Host calls on a list -/

/-- The host calls among operators that an allow-list lets pass. -/
def listed (A : Option (List String)) (os : List (Occurrence α)) : List String :=
  (hostCalls os).filter fun name => A.all (name ∈ ·)

section

variable {A : Option (List String)} {os : List (Occurrence α)} {ss : List (List (Expr α))}
  {x : Expr α} {name : String}

/-- The name of a host call is the one that is called, unless it refers to a lambda. -/
theorem hostCall?_eq (ss : List (List (Expr α))) (x : Expr α) :
    Occurrence.hostCall? ⟨ss, x⟩ = x.calledName?.filter fun name => !namesLambda name ss := by
  cases x with
  | lit => rfl
  | op a code es =>
    cases code
    case call => cases es <;> rfl
    all_goals rfl

/-- One more operator. -/
theorem listed_concat (A : Option (List String)) (os : List (Occurrence α))
    (ss : List (List (Expr α))) (x : Expr α) : listed A (os ++ [⟨ss, x⟩]) = listed A os ++
      (x.calledName?.toList.filter fun name => !namesLambda name ss).filter
        fun name => A.all (name ∈ ·) := by
  have hx : hostCalls [⟨ss, x⟩] =
      (x.calledName?.filter fun name => !namesLambda name ss).toList := by
    rw [hostCalls_cons, hostCall?_eq]
    exact append_nil _
  rw [listed, hostCalls_append, filter_append, hx, listed]
  congr 2
  cases x.calledName? with
  | none => rfl
  | some name => cases hlambda : namesLambda name ss <;> simp [Option.filter, hlambda]

/-- A call that is listed. -/
theorem listed_concat_of_host (hx : x.calledName? = some name) (hss : namesLambda name ss = false)
    (hA : A.all (name ∈ ·)) : listed A (os ++ [⟨ss, x⟩]) = listed A os ++ [name] := by
  simp [listed_concat, hx, hss, hA]

/-- A call of a lambda, or of a name that is not on the list. -/
theorem listed_concat_of_not_host (hx : x.calledName? = some name)
    (h : namesLambda name ss ∨ A.all (name ∈ ·) = false) :
    listed A (os ++ [⟨ss, x⟩]) = listed A os := by
  rcases h with h | h <;> simp [listed_concat, hx, h]

/-- What calls nothing by its name is not listed. -/
theorem listed_concat_of_none (hx : x.calledName? = none) :
    listed A (os ++ [⟨ss, x⟩]) = listed A os := by
  simp [listed_concat, hx]

end

/-! ### Scopes and their frames -/

/-- As far as calls go, the one frame has become the other through the bindings. -/
structure StaticFrame.Extends (frame : StaticFrame) (bs : List (Expr α × Expr α))
    (last : StaticFrame) : Prop where
  lambdas : ∀ name, (last.lambdas.lookup name).isSome =
    ((frame.lambdas.lookup name).isSome || declaresLambda name bs)
  dynamic : last.dynamic = (frame.dynamic || computesName bs)

/-- What a binding adds to a frame. -/
theorem StaticFrame.Declares.extends {frame next : StaticFrame} {n v : Expr α}
    (h : frame.Declares n.name? v next) : frame.Extends [(n, v)] next := by
  cases hn : n.name? with
  | none =>
    rw [hn] at h
    cases h
    exact ⟨by simp [declaresLambda, hn], by simp [computesName, hn]⟩
  | some s =>
    rw [hn] at h
    cases h with
    | constant hv => exact ⟨by simp [declaresLambda, hv], by simp [computesName, hn]⟩
    | @lambda _ label ps l =>
      refine ⟨fun name => ?_, by simp [computesName, hn]⟩
      have hdeclares : declaresLambda name [(n, .op label .lambda ps)] = (s == name) := by
        simp [declaresLambda, hn, Expr.isLambda]
      rw [hdeclares, lookup_cons, BEq.comm]
      cases s == name <;> simp

/-- One binding after the other. -/
theorem StaticFrame.Extends.cons {frame next last : StaticFrame} {b : Expr α × Expr α}
    {bs : List (Expr α × Expr α)} (h : frame.Extends [b] next) (h' : next.Extends bs last) :
    frame.Extends (b :: bs) last where
  lambdas name := by
    rw [h'.lambdas, h.lambdas, Bool.or_assoc]
    simp [declaresLambda]
  dynamic := by
    rw [h'.dynamic, h.dynamic, Bool.or_assoc]
    simp [computesName]

/-- What the bindings of a scope add to a frame. -/
theorem StaticFrame.DeclaresAll.extends {frame last : StaticFrame} {bs : List (Expr α × Expr α)}
    (h : frame.DeclaresAll bs last) : frame.Extends bs last := by
  induction h with
  | nil => exact ⟨by simp [declaresLambda], by simp [computesName]⟩
  | cons hdeclares _ _ ih => exact hdeclares.extends.cons ih

/-- In the frames a name refers to a lambda just if it does in the scopes. Between the frames of the
scopes may stand the frames of parameters. -/
def Mirrors (frames : List StaticFrame) (ss : List (List (Expr α))) : Prop :=
  ∀ name, (∃ k, standing (fun frame => frame.lambdas.lookup name) frames = .declared k) ↔
    namesLambda name ss

namespace Mirrors

variable {frames : List StaticFrame} {frame : StaticFrame} {ss : List (List (Expr α))}
  {es : List (Expr α)} {name : String}

/-- Outside of all scopes there are no frames. -/
theorem nil : Mirrors [] ([] : List (List (Expr α))) := by
  intro name
  simp [standing, namesLambda]

/-- The frame that the bindings of a scope make is the one of the scope. -/
theorem scope (h : Mirrors frames ss) (hframe : StaticFrame.empty.DeclaresAll (bindings es) frame) :
    Mirrors (frame :: frames) (es :: ss) := by
  intro name
  have hlambdas := hframe.extends.lambdas name
  have hdynamic := hframe.extends.dynamic
  simp only [StaticFrame.empty, lookup_nil, Option.isSome_none, Bool.false_or] at hlambdas hdynamic
  rw [standing, namesLambda, ← hlambdas, ← hdynamic]
  cases hfind : frame.lambdas.lookup name with
  | some k => simp
  | none => cases hd : frame.dynamic <;> simp [h name]

/-- Parameters declare no lambdas. -/
theorem params (h : Mirrors frames ss) (ps : List String) : Mirrors (.ofParams ps :: frames) ss := h

/-- What is no lambda in the frames is none in the scopes. -/
theorem namesLambda_eq_false (h : Mirrors frames ss)
    (hs : ∀ k, standing (fun frame => frame.lambdas.lookup name) frames ≠ .declared k) :
    namesLambda name ss = false :=
  Bool.eq_false_iff.2 fun hlambda => ((h name).2 hlambda).elim hs

end Mirrors

/-! ### The check and the operators that it has met -/

/-- The report has counted these operators, and has listed the host calls among them. -/
structure Tallies (A : Option (List String)) (os : List (Occurrence α)) (r : Report α) : Prop where
  opCount : r.opCount = os.length
  calls : r.calls = (listed A os).eraseDups

/-- A call is listed unless it has been listed before. -/
private theorem calls_addCall {r : Report α} {seen : List String} {name : String}
    (h : r.calls = seen.eraseDups) : (r.addCall name).calls = (seen ++ [name]).eraseDups := by
  have hmem : name ∈ r.calls ↔ name ∈ seen := by rw [h, mem_eraseDups]
  rw [eraseDups_concat]
  by_cases hseen : name ∈ seen
  · rw [Report.addCall, if_pos (hmem.2 hseen), if_pos hseen, h]
  · rw [Report.addCall, if_neg (mt hmem.1 hseen), if_neg hseen, ← h]

/-- Nor does it count for anything else. -/
private theorem opCount_addCall (r : Report α) (name : String) :
    (r.addCall name).opCount = r.opCount := by
  rw [Report.addCall]
  split <;> rfl

/-- The check keeps a tally of the operators that it meets. -/
def traversalWalk (A : Option (List String)) : Walk (.successful : CheckComparison α α) where
  left := A
  right := A
  labels := Eq
  site _ _ := True
  frames ss fr := Mirrors fr ss
  reports os r _ := Tallies A os r
  site_inside _ _ := trivial
  frames_scope := Mirrors.scope
  frames_params ps h := h.params ps
  count := by
    rintro os ss x r - hx h
    refine ⟨?_, h.calls.trans ?_⟩
    · rw [length_append, ← h.opCount]
      rfl
    · rw [listed_concat_of_none hx]
  call := by
    rintro os ss a _ n args s fr fr' - hname hss hlike rfl
    have hx : (Expr.op a .call (n :: args)).calledName? = some s := hname
    -- the operator has been counted, its name is not listed yet
    refine .bind (Q := fun r _ => r.opCount = os.length + 1 ∧ r.calls = (listed A os).eraseDups)
      (.record ?_) fun _ _ _ => ?_
    · rintro r - h
      exact ⟨congrArg (· + 1) h.opCount, h.calls⟩
    · have hlen (o : Occurrence α) : os.length + 1 = (os ++ [o]).length := by
        rw [length_append, length_singleton]
      refine CheckComparison.related_checkCall_of_eq hlike ?_ ?_ ?_ (fun _ _ => .inl trivial)
        (.inl trivial)
      · rintro k hs r - ⟨hcount, hcalls⟩
        have hlambda : namesLambda s ss := (hss s).1 ⟨k, hs⟩
        exact ⟨hcount.trans (hlen _), by rw [listed_concat_of_not_host hx (.inl hlambda), hcalls]⟩
      · rintro hs hA r - ⟨hcount, hcalls⟩
        refine ⟨(opCount_addCall r s).trans (hcount.trans (hlen _)),
          (calls_addCall hcalls).trans ?_⟩
        rw [listed_concat_of_host hx (hss.namesLambda_eq_false hs) hA]
      · rintro - hA r - ⟨hcount, hcalls⟩
        exact ⟨hcount.trans (hlen _), by rw [listed_concat_of_not_host hx (.inr hA), ← hcalls]; rfl⟩
  warn := by
    rintro os _ r - w - - h
    exact ⟨h.opCount, h.calls⟩
  error _ _ _ := CheckComparison.successful_accepts

/-- The report of a whole expression. -/
theorem tallies_of_check {e : Expr α} {A : Option (List String)} {r : Report α}
    (h : e.check A = .ok r) : Tallies A (e.occurrences .met []) r := by
  have hpaired : (traversalWalk A).Paired e e := Walk.paired_self (fun _ => rfl) e
  have hempty : Tallies A [] (.empty : Report α) := ⟨rfl, rfl⟩
  have hends : CheckComparison.successful.Agree _ _ (check A [] e .empty) (check A [] e .empty) :=
    hpaired.agree trivial .nil hempty
  rw [Expr.check_eq_ok.1 h] at hends
  cases hends with
  | ok _ hr => exact hr

end Check

/-- **The check counts the operators.** Whatever the allow-list, the number in the report of a
successful check is that of the operators of the expression, each as often as it occurs. Lambdas are
among them, what their bodies are made of, and what computes a name. -/
theorem Expr.opCount_of_check {e : Expr α} {allowed : Option (List String)} {r : Report α}
    (h : e.check allowed = .ok r) : r.opCount = e.operators.length :=
  (Check.tallies_of_check h).opCount.trans e.length_occurrences

/-- A lambda with what it is made of, a computed name and a call off the list are all counted. -/
theorem Expr.opCount_of_check_lambda :
    let e : Expr Nat := .op 0 .scope [
      .lit 1 (.str "f"),
      .op 2 .lambda [.lit 3 (.str "x"), .op 4 .typeOf [.op 5 .lookup [.lit 6 (.str "x")]]],
      .op 7 .typeOf [.lit 8 .null], .lit 9 .null,
      .op 10 .call [.lit 11 (.str "g")]]
    ∃ r, e.check (some []) = .ok r ∧ r.opCount = e.operators.length ∧ r.opCount = 6 := by
  intro e
  have hcheck : e.check (some []) =
      .ok ⟨6, [], [.dynamicName 0 .scope, .unresolvedCall 10 "g"]⟩ := rfl
  exact ⟨_, hcheck, opCount_of_check hcheck, rfl⟩

/-- **The host calls of a report.** If a check without an allow-list succeeds, it reports every host
call once, in the order in which it has met them first. What it meets are the operators that are
written (`Expr.map_node_occurrences`), in another order. The calls are reported in the order in
which they are written first if in no scope a part that calls the host inside of the scope is
followed by one that does outside. -/
theorem Expr.calls_of_check {e : Expr α} {r : Report α} (h : e.check none = .ok r) :
    r.calls.Nodup ∧ r.calls = (hostCalls (e.occurrences .met [])).eraseDups ∧
      e.occurrences .met [] ~ e.occurrences .written [] ∧
      ((∀ o ∈ e.occurrences .written [], o.CallsInOrder) →
        r.calls = (hostCalls (e.occurrences .written [])).eraseDups) := by
  have hcalls : r.calls = (hostCalls (e.occurrences .met [])).eraseDups := by
    rw [(Check.tallies_of_check h).calls, Check.listed]
    simp
  refine ⟨?_, hcalls, occurrences_perm [] e, fun hinOrder => ?_⟩
  · rw [hcalls]
    exact nodup_eraseDups _
  · rw [hcalls, hostCalls_occurrences [] e hinOrder]

/-- A lambda that calls the host comes before the calls of the body of its scope, in the report as
in the expression. -/
theorem Expr.calls_of_check_lambda :
    let e : Expr Nat := .op 0 .scope [
      .lit 1 (.str "f"), .op 2 .lambda [.op 3 .call [.lit 4 (.str "h")]],
      .op 5 .add [.op 6 .call [.lit 7 (.str "f")], .op 8 .call [.lit 9 (.str "g")],
        .op 10 .call [.lit 11 (.str "h")]]]
    ∃ r, e.check none = .ok r ∧ r.calls = (hostCalls (e.occurrences .written [])).eraseDups ∧
      r.calls = ["h", "g"] := by
  intro e
  have hcheck : e.check none = .ok ⟨7, ["h", "g"], []⟩ := rfl
  have hinOrder : ∀ o ∈ e.occurrences .written [], o.CallsInOrder := by decide
  exact ⟨_, hcheck, (calls_of_check hcheck).2.2.2 hinOrder, rfl⟩

/-- A lambda that calls the host is followed by a value that does: the report has the call that is
written last first. -/
theorem Expr.exists_calls_ne_written :
    ∃ (e : Expr Nat) (r : Report Nat), e.check none = .ok r ∧
      r.calls ≠ (hostCalls (e.occurrences .written [])).eraseDups := by
  refine ⟨.op 0 .scope [
    .lit 1 (.str "f"), .op 2 .lambda [.op 3 .call [.lit 4 (.str "a")]],
    .lit 5 (.str "x"), .op 6 .call [.lit 7 (.str "b")], .lit 8 .null], ⟨4, ["b", "a"], []⟩, rfl, ?_⟩
  decide

end OpTree
