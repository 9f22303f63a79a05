import OpTree.Proofs.Evaluation.Forward
import OpTree.Proofs.Evaluation.Visits

/-!
# Which operands a plain operator demands

A plain operator visits its operands from left to right, until one of them decides the node. Which
operand comes next depends on the values so far and on nothing else (`Operator.nextOperand?`): it is
the next one in line, unless the last value has decided the node (`Operator.decides`), and a
condition takes the operand that belongs to the first true guard. `Evaluates` describes an
evaluation that visits the operands in this way and does nothing else. `Demands` says so of what is
left of an operator once some operands have been visited; there is one lemma for each way of
combining operands.

What such an evaluation comes to, the host calls and the counters, is what its visits come to,
because each begins where the one before has ended (`Evaluates.spent`, `Evaluates.calls`).

Main statement: `Eval.evaluates_of_isPlain`.
-/

namespace OpTree

open List

variable {α : Type}

/-! ### The next operand -/

namespace Operator

/-- Numbers combined from left to right. -/
def total (combine : Float → Float → Float) : List Float → Option Float
  | [] => none
  | x :: xs => some (xs.foldl combine x)

/-- One number more is combined with the total. -/
theorem total_concat (combine : Float → Float → Float) (xs : List Float) (x : Float) :
    total combine (xs ++ [x]) = some ((total combine xs).elim x (combine · x)) := by
  cases xs with
  | nil => rfl
  | cons y ys =>
    rw [cons_append, total, foldl_append]
    rfl

/-- The numbers among the values cannot be combined to a finite one. -/
def overflows (combine : Float → Float → Float) (values : List Scalar) : Bool :=
  (total combine (values.filterMap Scalar.num?)).any (!·.isFinite)

/-- The last of the values decides the node: for arithmetic and comparisons anything that is not a
number does, and for sums, differences and products also a number with which the total is not
finite; null decides equality and logic, and anything but null a coalescence. -/
def decides (code : Operator) (values : List Scalar) : Bool :=
  values.getLast?.any fun value =>
    match code with
    | add => value.num?.isNone || overflows (· + ·) values
    | sub => value.num?.isNone || overflows (· - ·) values
    | mul => value.num?.isNone || overflows (· * ·) values
    | div | mod | lt | le | ge | gt => value.num?.isNone
    | eq | ne | or | and => value.isNull
    | coalesce => !value.isNull
    | _ => false

/-- The operand of a condition that comes after operands with these values: the next guard or the
default, or what belongs to the first guard that is true. -/
def nextBranch? (count : Nat) (values : List Scalar) : Option Nat :=
  match values.findIdx? Scalar.isTrue with
  | none => if 2 * values.length < count then some (2 * values.length) else none
  | some i => if i + 1 = values.length ∧ 2 * i + 1 < count then some (2 * i + 1) else none

/-- The place of the operand that comes after operands with these values, if one does. -/
def nextOperand? (code : Operator) (count : Nat) (values : List Scalar) : Option Nat :=
  if code = condition then nextBranch? count values
  else if values.length < count ∧ code.decides values = false then some values.length
  else none

section

variable {code : Operator} {count i j : Nat} {values : List Scalar} {value : Scalar}

/-- Tests come one after the other, and the value of the first that holds comes last. -/
private theorem nextBranch?_eq_some : nextBranch? count values = some i ↔
    values.findIdx? Scalar.isTrue = none ∧ 2 * values.length < count ∧ i = 2 * values.length ∨
      ∃ k, values.findIdx? Scalar.isTrue = some k ∧ k + 1 = values.length ∧ 2 * k + 1 < count ∧
        i = 2 * k + 1 := by
  rw [nextBranch?]
  constructor
  · intro h
    split at h
    · rename_i hnone
      obtain ⟨hlt, hi⟩ := Option.ite_none_right_eq_some.1 h
      exact .inl ⟨hnone, hlt, (Option.some.inj hi).symm⟩
    · rename_i k hk
      obtain ⟨⟨hlast, hlt⟩, hi⟩ := Option.ite_none_right_eq_some.1 h
      exact .inr ⟨k, hk, hlast, hlt, (Option.some.inj hi).symm⟩
  · rintro (⟨hnone, hlt, rfl⟩ | ⟨k, hk, hlast, hlt, rfl⟩)
    · rw [hnone]
      exact if_pos hlt
    · rw [hk]
      exact if_pos ⟨hlast, hlt⟩

/-- A test that is added is the first to hold only if none before does. -/
private theorem findIdx?_concat (values : List Scalar) (value : Scalar) :
    (values ++ [value]).findIdx? Scalar.isTrue =
      (values.findIdx? Scalar.isTrue).or (if value.isTrue then some values.length else none) := by
  rw [findIdx?_append, findIdx?_singleton]
  split <;> simp

/-- Operators other than conditions take their operands in order, until the result is decided. -/
private theorem nextOperand?_eq_some (hcode : code ≠ .condition) :
    code.nextOperand? count values = some i ↔
      values.length < count ∧ code.decides values = false ∧ i = values.length := by
  rw [nextOperand?, if_neg hcode, Option.ite_none_right_eq_some, and_assoc, Option.some.injEq,
    eq_comm (a := i)]

/-- No operand is visited twice, and none after one that stands further to the right. -/
theorem nextOperand?_lt (hi : code.nextOperand? count values = some i)
    (hj : code.nextOperand? count (values ++ [value]) = some j) : i < j := by
  have hlen : (values ++ [value]).length = values.length + 1 := length_append
  by_cases hcode : code = .condition
  · subst hcode
    rcases nextBranch?_eq_some.1 hi with ⟨hnone, hlt, rfl⟩ | ⟨k, hk, hlast, -, rfl⟩
    · -- no guard was true before, so that the operand is a guard itself, or the default
      rcases nextBranch?_eq_some.1 hj with ⟨-, -, rfl⟩ | ⟨k, -, hlast, -, rfl⟩ <;> omega
    · -- the operand belongs to a true guard, and nothing comes after it
      have hfind := findIdx?_concat values value
      rw [hk, Option.some_or] at hfind
      rcases nextBranch?_eq_some.1 hj with ⟨hnone, -⟩ | ⟨k', hk', hlast', -, rfl⟩
      · cases hfind.symm.trans hnone
      · have := Option.some.inj (hfind.symm.trans hk')
        omega
  · obtain ⟨-, -, rfl⟩ := (nextOperand?_eq_some hcode).1 hi
    obtain ⟨-, -, rfl⟩ := (nextOperand?_eq_some hcode).1 hj
    omega

end

end Operator

/-! ### Visits of operands -/

/-- A visit of an operand. -/
structure Step (α : Type) where
  place : Nat
  operand : Expr α
  before : State α
  after : State α

/-- The host calls that have been made since a state, in order. -/
def State.callsSince (d c : State α) : List Invocation :=
  (d.history.take (d.history.length - c.history.length)).reverse

/-- The calls since a state are those that its history has in addition. -/
theorem State.callsSince_of_append {c d : State α} {calls : List Invocation}
    (h : d.history = calls ++ c.history) : d.callsSince c = calls.reverse := by
  rw [callsSince, h, length_append, Nat.add_sub_cancel, take_left]

/-- What has been called since a state has been called before some later state or since. -/
theorem State.callsSince_trans {c d e : State α} (h : c.Precedes d) (h' : d.Precedes e) :
    e.callsSince c = d.callsSince c ++ e.callsSince d := by
  obtain ⟨calls, hcalls⟩ := h.history
  obtain ⟨more, hmore⟩ := h'.history
  have hall : e.history = more ++ calls ++ c.history := by rw [append_assoc, hcalls, hmore]
  rw [callsSince_of_append hall, callsSince_of_append hcalls.symm,
    callsSince_of_append hmore.symm, reverse_append]

namespace Step

/-- The host calls made in the visit, in order. -/
def calls (step : Step α) : List Invocation :=
  step.after.callsSince step.before

/-- What a counter has grown by in the visit. -/
def spent (step : Step α) (counter : Counter) : Nat :=
  step.after.usage.stats.value counter - step.before.usage.stats.value counter

end Step

/-- `Evaluates setting visit code es values c steps r`: from the state `c` on, operands with these
values having been visited, the operands that an operator needs are visited one after the other, in
the given steps, and the outcome and the state in the end are `r`. An error ends the evaluation. -/
inductive Evaluates (setting : Setting) (visit : Expr α → EvalM α Scalar) (code : Operator)
    (es : List (Expr α)) : List Scalar → State α → List (Step α) →
      Except (EvalError α) Scalar × State α → Prop
  | done {values c} (result : Except (EvalError α) Scalar) :
      code.nextOperand? es.length values = none →
      Evaluates setting visit code es values c [] (result, c)
  | fails {values c i e err d} : code.nextOperand? es.length values = some i → es[i]? = some e →
      visit e setting c = (.error err, d) →
      Evaluates setting visit code es values c [⟨i, e, c, d⟩] (.error err, d)
  | visits {values c i e value d steps r} : code.nextOperand? es.length values = some i →
      es[i]? = some e → visit e setting c = (.ok value, d) →
      Evaluates setting visit code es (values ++ [value]) d steps r →
      Evaluates setting visit code es values c (⟨i, e, c, d⟩ :: steps) r

namespace Evaluates

variable {setting : Setting} {visit : Expr α → EvalM α Scalar} {code : Operator}
  {es : List (Expr α)} {values : List Scalar} {c : State α} {steps : List (Step α)}
  {r : Except (EvalError α) Scalar × State α}

/-- The steps are visits of the operands. -/
theorem step (h : Evaluates setting visit code es values c steps r) :
    ∀ step ∈ steps, es[step.place]? = some step.operand ∧
      (visit step.operand setting step.before).2 = step.after := by
  induction h with
  | done => simp
  | fails _ he hv =>
    simp only [mem_singleton, forall_eq]
    exact ⟨he, congrArg Prod.snd hv⟩
  | visits _ he hv _ ih => exact forall_mem_cons.2 ⟨⟨he, congrArg Prod.snd hv⟩, ih⟩

/-- The steps go from left to right. -/
theorem places (h : Evaluates setting visit code es values c steps r) :
    (∀ step ∈ steps, ∀ i, code.nextOperand? es.length values = some i → i ≤ step.place) ∧
      (steps.map Step.place).Pairwise (· < ·) := by
  induction h with
  | done => simp
  | fails hi => simp [hi]
  | @visits values c i e value d steps r hi _ _ hrest ih =>
    have hlater : ∀ step ∈ steps, i < step.place := by
      intro step hstep
      cases hrest with
      | done => cases hstep
      | fails hj | visits hj =>
        exact (Operator.nextOperand?_lt hi hj).trans_le (ih.1 step hstep _ hj)
    refine ⟨forall_mem_cons.2 ⟨fun j hj => ?_, fun step hstep j hj => ?_⟩, ?_⟩
    · exact (Option.some.inj (hi.symm.trans hj)).ge
    · obtain rfl : i = j := Option.some.inj (hi.symm.trans hj)
      exact (hlater step hstep).le
    · rw [map_cons, pairwise_cons]
      exact ⟨by simpa using hlater, ih.2⟩

/-- The operands that are visited stand in this order among all operands. -/
theorem operands (h : Evaluates setting visit code es values c steps r) {k : Nat}
    (hk : ∀ i, code.nextOperand? es.length values = some i → k ≤ i) :
    (steps.map Step.operand).Sublist (es.drop k) := by
  have hdrop {i : Nat} {e : Expr α} (he : es[i]? = some e) : es.drop i = e :: es.drop (i + 1) := by
    obtain ⟨hi, rfl⟩ := List.getElem?_eq_some_iff.1 he
    exact drop_eq_getElem_cons hi
  induction h generalizing k with
  | done => exact nil_sublist _
  | @fails values c i e err d hi he _ =>
    have hmem : e ∈ es.drop i := hdrop he ▸ mem_cons_self
    exact (singleton_sublist.2 hmem).trans (drop_sublist_drop_left es (hk i hi))
  | @visits values c i e value d steps r hi he _ _ ih =>
    have hlater : (e :: steps.map Step.operand).Sublist (es.drop i) :=
      hdrop he ▸ (ih fun j hj => Operator.nextOperand?_lt hi hj).cons_cons e
    exact hlater.trans (drop_sublist_drop_left es (hk i hi))

/-- Each step takes nothing back. -/
theorem precedes (h : Evaluates setting visit code es values c steps r)
    (hv : ∀ e, Eval.Forward (visit e)) : ∀ step ∈ steps, step.before.Precedes step.after := by
  intro step hstep
  obtain ⟨-, hafter⟩ := h.step step hstep
  exact hafter ▸ hv step.operand setting step.before

/-- **Host calls follow one another** from one step to the next, and nothing is taken back. -/
theorem calls (h : Evaluates setting visit code es values c steps r)
    (hv : ∀ e, Eval.Forward (visit e)) :
    c.Precedes r.2 ∧ r.2.callsSince c = (steps.map Step.calls).flatten := by
  induction h with
  | done => exact ⟨.refl _, State.callsSince_of_append (nil_append _).symm⟩
  | @fails values c i e err d _ _ he =>
    exact ⟨Eval.Forward.of_eq (hv e) he, (append_nil _).symm⟩
  | @visits values c i e value d steps r _ _ he _ ih =>
    have hd : c.Precedes d := Eval.Forward.of_eq (hv e) he
    refine ⟨hd.trans ih.1, ?_⟩
    rw [State.callsSince_trans hd ih.1, ih.2]
    rfl

/-- **What is counted adds up** from one step to the next. -/
theorem spent (h : Evaluates setting visit code es values c steps r)
    (hv : ∀ e, Eval.Forward (visit e)) (counter : Counter) :
    r.2.usage.stats.value counter =
      c.usage.stats.value counter + (steps.map (·.spent counter)).sum := by
  induction h with
  | done => simp
  | @fails values c i e err d hi _ he =>
    have hle := (Eval.Forward.of_eq (hv e) he).stats counter
    simp only [map_cons, map_nil, sum_cons, sum_nil, Step.spent]
    omega
  | @visits values c i e value d steps r hi _ he _ ih =>
    have hle := (Eval.Forward.of_eq (hv e) he).stats counter
    rw [ih]
    simp only [map_cons, sum_cons, Step.spent]
    omega

end Evaluates

/-! ### What the operators demand -/

/-- Once operands with these values have been visited, the computation visits the operands that the
operator still needs. -/
def Demands (setting : Setting) (visit : Expr α → EvalM α Scalar) (code : Operator)
    (es : List (Expr α)) (values : List Scalar) (x : EvalM α Scalar) : Prop :=
  ∀ c, ∃ steps, Evaluates setting visit code es values c steps (x setting c)

open Eval EvalM Operator

section

variable {setting : Setting} {visit : Expr α → EvalM α Scalar} {node : α} {code : Operator}
  {e left right : Expr α} {es rest : List (Expr α)} {values : List Scalar}

namespace Demands

theorem pure (h : code.nextOperand? es.length values = none) (value : Scalar) :
    Demands setting visit code es values (pure value) :=
  fun _ => ⟨[], .done (.ok value) h⟩

theorem fail (h : code.nextOperand? es.length values = none) (err : EvalError α) :
    Demands setting visit code es values (fail err) :=
  fun _ => ⟨[], .done (.error err) h⟩

/-- The next operand is visited, and what comes after it is demanded with its value. -/
theorem next {i : Nat} {k : Scalar → EvalM α Scalar}
    (hi : code.nextOperand? es.length values = some i) (he : es[i]? = some e)
    (hk : ∀ value, Demands setting visit code es (values ++ [value]) (k value)) :
    Demands setting visit code es values (visit e >>= k) := by
  intro c
  rw [bind_apply]
  cases hv : visit e setting c with
  | mk result d =>
    cases result with
    | error err => exact ⟨_, .fails hi he hv⟩
    | ok value =>
      obtain ⟨steps, hsteps⟩ := hk value d
      exact ⟨_, .visits hi he hv hsteps⟩

/-- The next operand is visited, and its value is that of the node. -/
theorem last {i : Nat} (hi : code.nextOperand? es.length values = some i) (he : es[i]? = some e)
    (hk : ∀ value, code.nextOperand? es.length (values ++ [value]) = none) :
    Demands setting visit code es values (visit e) :=
  bind_pure (visit e) ▸ next hi he fun value => .pure (hk value) value

end Demands

/-! ### Operands in line -/

private theorem getElem?_of_drop {k : Nat} (h : es.drop k = e :: rest) :
    es[k]? = some e ∧ es.drop (k + 1) = rest := by
  constructor
  · have hget : (es.drop k)[0]? = es[k + 0]? := getElem?_drop
    rw [h] at hget
    exact hget.symm
  · rw [← drop_drop, h]
    rfl

/-- As long as nothing is decided, the next operand is the first that is left. -/
private theorem nextOperand?_of_drop (hcode : code ≠ .condition) (hd : code.decides values = false)
    (h : es.drop values.length = e :: rest) :
    code.nextOperand? es.length values = some values.length := by
  refine (nextOperand?_eq_some hcode).2 ⟨?_, hd, rfl⟩
  by_contra hle
  rw [drop_eq_nil_of_le (Nat.not_lt.1 hle)] at h
  cases h

/-- Once the result is decided, no operand is next. -/
private theorem nextOperand?_of_decides (hcode : code ≠ .condition) (hd : code.decides values) :
    code.nextOperand? es.length values = none := by
  rw [nextOperand?, if_neg hcode, if_neg (by simp [hd])]

/-- Once all operands have values, none is next. -/
private theorem nextOperand?_of_length_le (hcode : code ≠ .condition)
    (h : es.length ≤ values.length) : code.nextOperand? es.length values = none := by
  rw [nextOperand?, if_neg hcode, if_neg (by simp [h])]

/-- Sums, differences and products stop at the first operand that is not a number, or with which
the total is not finite. -/
private theorem demands_accumulate (combine : Float → Float → Float) (hcode : code ≠ .condition)
    (hdecides : ∀ (values : List Scalar) value, code.decides (values ++ [value]) =
      (value.num?.isNone || overflows combine (values ++ [value]))) :
    ∀ (rest : List (Expr α)) (values : List Scalar), es.drop values.length = rest →
      code.decides values = false → Demands setting visit code es values (accumulate visit node code
        combine (total combine (values.filterMap Scalar.num?)) rest) := by
  intro rest
  induction rest with
  | nil =>
    intro values h _
    exact .pure (nextOperand?_of_length_le hcode (drop_eq_nil_iff.1 h)) _
  | cons e rest ih =>
    intro values h hd
    obtain ⟨he, hrest⟩ := getElem?_of_drop h
    rw [accumulate, numberOf, bind_assoc]
    refine .next (nextOperand?_of_drop hcode hd h) he fun value => ?_
    have hdone := hdecides values value
    cases value with
    | null => exact .pure (nextOperand?_of_decides hcode hdone) _
    | str s => exact .fail (nextOperand?_of_decides hcode hdone) _
    | bool b => exact .fail (nextOperand?_of_decides hcode hdone) _
    | num x =>
      rw [pure_bind]
      have hnumbers : (values ++ [Scalar.num x]).filterMap Scalar.num?
          = values.filterMap Scalar.num? ++ [x] := filterMap_append
      have htotal := total_concat combine (values.filterMap Scalar.num?) x
      rw [overflows, hnumbers, htotal] at hdone
      dsimp only
      split
      · rename_i hfinite
        have h' : es.drop (values ++ [Scalar.num x]).length = rest := by rwa [length_append]
        have hmore := ih _ h' (by simp [hdone, Scalar.num?, hfinite])
        rwa [hnumbers, htotal] at hmore
      · rename_i hfinite
        exact .fail (nextOperand?_of_decides hcode (by simp [hdone, hfinite])) _

/-- Logic stops at the first null. -/
private theorem demands_connect (combine : Bool → Bool → Bool) (hcode : code ≠ .condition)
    (hdecides : ∀ (values : List Scalar) value, code.decides (values ++ [value]) = value.isNull) :
    ∀ (rest : List (Expr α)) (values : List Scalar) (result : Bool),
      es.drop values.length = rest → code.decides values = false →
        Demands setting visit code es values (connect visit combine result rest) := by
  intro rest
  induction rest with
  | nil =>
    intro values result h _
    exact .pure (nextOperand?_of_length_le hcode (drop_eq_nil_iff.1 h)) _
  | cons e rest ih =>
    intro values result h hd
    obtain ⟨he, hrest⟩ := getElem?_of_drop h
    refine .next (nextOperand?_of_drop hcode hd h) he fun value => ?_
    have hdone := hdecides values value
    cases value with
    | null => exact .pure (nextOperand?_of_decides hcode hdone) _
    | num | str | bool => exact ih _ _ (by rwa [length_append]) hdone

/-- A coalescence stops at the first operand that is not null. -/
private theorem demands_firstNonNull :
    ∀ (rest : List (Expr α)) (values : List Scalar), es.drop values.length = rest →
      Operator.coalesce.decides values = false →
        Demands setting visit .coalesce es values (firstNonNull visit rest) := by
  have hcode : Operator.coalesce ≠ .condition := by decide
  intro rest
  induction rest with
  | nil =>
    intro values h _
    exact .pure (nextOperand?_of_length_le hcode (drop_eq_nil_iff.1 h)) _
  | cons e rest ih =>
    intro values h hd
    obtain ⟨he, hrest⟩ := getElem?_of_drop h
    refine .next (nextOperand?_of_drop hcode hd h) he fun value => ?_
    have hdone : Operator.coalesce.decides (values ++ [value]) = !value.isNull := by
      simp [decides]
    cases hnull : value.isNull with
    | true => exact ih _ (by rwa [length_append]) (by rw [hdone, hnull]; rfl)
    | false => exact .pure (nextOperand?_of_decides hcode (by rw [hdone, hnull]; rfl)) _

/-! ### One operand or two -/

/-- One operand is always demanded. -/
private theorem demands_one (hcode : code ≠ .condition) (f : Scalar → Scalar) :
    Demands setting visit code [e] [] (visit e >>= fun value => return f value) := by
  refine .next ((nextOperand?_eq_some hcode).2 ⟨Nat.one_pos, rfl, rfl⟩) rfl fun value => ?_
  exact .pure (nextOperand?_of_length_le hcode le_rfl) _

/-- The first of two operands is always demanded. -/
private theorem demands_first (hcode : code ≠ .condition) {k : Scalar → EvalM α Scalar}
    (hk : ∀ value, Demands setting visit code [left, right] [value] (k value)) :
    Demands setting visit code [left, right] [] (visit left >>= k) :=
  .next ((nextOperand?_eq_some hcode).2 ⟨Nat.two_pos, rfl, rfl⟩) rfl hk

/-- The second of two operands is demanded unless the first one decides the node. -/
private theorem demands_second (hcode : code ≠ .condition) {value : Scalar}
    (hd : code.decides [value] = false) {k : Scalar → EvalM α Scalar}
    (hk : ∀ value values, code.nextOperand? 2 values = none →
      Demands setting visit code [left, right] values (k value)) :
    Demands setting visit code [left, right] [value] (visit right >>= k) := by
  refine .next ((nextOperand?_eq_some hcode).2 ⟨Nat.one_lt_two, hd, rfl⟩) rfl fun w => hk w _ ?_
  have hlen : [left, right].length ≤ ([value] ++ [w]).length := le_rfl
  exact nextOperand?_of_length_le hcode hlen

/-- Two numbers are combined in a way that needs no operand. -/
private theorem demands_withNumbers {f : Float → Float → EvalM α Scalar} (hcode : code ≠ .condition)
    (hdecides : ∀ value : Scalar, code.decides [value] = value.num?.isNone)
    (hf : ∀ x y values, code.nextOperand? 2 values = none →
      Demands setting visit code [left, right] values (f x y)) :
    Demands setting visit code [left, right] [] (withNumbers visit node code left right f) := by
  rw [withNumbers, numberOf, bind_assoc]
  refine demands_first hcode fun v => ?_
  have hdone := hdecides v
  cases v with
  | null => exact .pure (nextOperand?_of_decides hcode hdone) _
  | str s => exact .fail (nextOperand?_of_decides hcode hdone) _
  | bool b => exact .fail (nextOperand?_of_decides hcode hdone) _
  | num x =>
    rw [pure_bind]
    dsimp only
    rw [numberOf, bind_assoc]
    refine demands_second hcode hdone fun w values hw => ?_
    cases w with
    | null => exact .pure hw _
    | str s => exact .fail hw _
    | bool b => exact .fail hw _
    | num y => exact hf x y values hw

/-- Two operands are compared if none of them is null. -/
private theorem demands_compareEqual (hcode : code ≠ .condition)
    (hdecides : ∀ value : Scalar, code.decides [value] = value.isNull) (expected : Bool) :
    Demands setting visit code [left, right] [] (compareEqual visit left right expected) := by
  refine demands_first hcode fun v => ?_
  have hdone := hdecides v
  split
  · rename_i hnull
    exact .pure (nextOperand?_of_decides hcode (hdone.trans hnull)) _
  · rename_i hnull
    rw [Bool.not_eq_true] at hnull
    refine demands_second hcode (hdone.trans hnull) fun w values hw => ?_
    split <;> exact .pure hw _

/-- A quotient needs no more operands. -/
private theorem demands_divide (quotient : Float → Float → Float) (x y : Float)
    (h : code.nextOperand? es.length values = none) :
    Demands setting visit code es values (divide node quotient x y) := by
  rw [divide]
  split
  · exact .fail h _
  · rw [finite]
    split
    · exact .pure h _
    · exact .fail h _

/-! ### Conditions -/

/-- A condition visits its guards up to the first one that is true, and then what belongs to it. -/
private theorem demands_choose :
    ∀ (rest : List (Expr α)) (values : List Scalar), es.drop (2 * values.length) = rest →
      values.findIdx? Scalar.isTrue = none → rest.length % 2 = 1 →
        Demands setting visit .condition es values (choose visit rest)
  | [], _, _, _, hodd => by cases hodd
  | [default], values, h, hnone, _ => by
    obtain ⟨he, -⟩ := getElem?_of_drop h
    have hlen := congrArg length h
    rw [length_drop, length_singleton] at hlen
    refine .last (nextBranch?_eq_some.2 (.inl ⟨hnone, by omega, rfl⟩)) he fun v => ?_
    refine Option.eq_none_iff_forall_ne_some.2 fun j hj => ?_
    have hmore : (values ++ [v]).length = values.length + 1 := length_append
    rcases nextBranch?_eq_some.1 hj with ⟨-, hlt, -⟩ | ⟨k, -, hlast, hlt, -⟩ <;> omega
  | guard :: value :: rest, values, h, hnone, hodd => by
    obtain ⟨he, htail⟩ := getElem?_of_drop h
    obtain ⟨he', hrest⟩ := getElem?_of_drop htail
    have hlen := congrArg length h
    rw [length_drop, length_cons, length_cons] at hlen
    refine .next (nextBranch?_eq_some.2 (.inl ⟨hnone, by omega, rfl⟩)) he fun v => ?_
    have hmore : (values ++ [v]).length = values.length + 1 := length_append
    have hfind := findIdx?_concat values v
    rw [hnone, Option.none_or] at hfind
    cases htrue : v.isTrue with
    | true =>
      rw [htrue, if_pos rfl] at hfind
      refine .last (nextBranch?_eq_some.2 (.inr ⟨values.length, hfind, hmore.symm, by omega, rfl⟩))
        he' fun w => Option.eq_none_iff_forall_ne_some.2 fun j hj => ?_
      -- the true guard is not the last one any more
      have hfind' := findIdx?_concat (values ++ [v]) w
      rw [hfind, Option.some_or] at hfind'
      rcases nextBranch?_eq_some.1 hj with ⟨hnone', -⟩ | ⟨k, hk, hlast, -⟩
      · cases hfind'.symm.trans hnone'
      · have hk := Option.some.inj (hfind'.symm.trans hk)
        rw [length_append, length_singleton] at hlast
        omega
    | false =>
      rw [htrue, if_neg Bool.false_ne_true] at hfind
      refine demands_choose rest (values ++ [v]) (hmore ▸ hrest) hfind ?_
      rw [length_cons, length_cons] at hodd
      omega

/-! ### Plain operators -/

/-- **Plain operators** visit the operands that they demand, and nothing else. -/
theorem demands_apply (hp : code.isPlain) (ha : code.arity.accepts es.length) :
    Demands setting visit code es [] (apply visit node code es) := by
  -- the arity settles the shape of the operands, and so the equation that applies
  have one (h : code.arity = .exactly 1) : ∃ e, es = [e] :=
    length_eq_one_iff.1 (by simpa [h, Arity.accepts] using ha)
  have two (h : code.arity = .exactly 2) : ∃ left right, es = [left, right] :=
    length_eq_two.1 (by simpa [h, Arity.accepts] using ha)
  cases code with
  | expression =>
    obtain ⟨e, rfl⟩ := one rfl
    refine .last ((nextOperand?_eq_some (by decide)).2 ⟨Nat.one_pos, rfl, rfl⟩) rfl fun _ => ?_
    exact nextOperand?_of_length_le (by decide) le_rfl
  | add => exact demands_accumulate _ (by decide) (by simp [decides]) es [] rfl rfl
  | sub => exact demands_accumulate _ (by decide) (by simp [decides]) es [] rfl rfl
  | mul => exact demands_accumulate _ (by decide) (by simp [decides]) es [] rfl rfl
  | div =>
    obtain ⟨left, right, rfl⟩ := two rfl
    exact demands_withNumbers (by decide) (by simp [decides]) fun x y _ h =>
      demands_divide _ x y h
  | mod =>
    obtain ⟨left, right, rfl⟩ := two rfl
    exact demands_withNumbers (by decide) (by simp [decides]) fun x y _ h =>
      demands_divide _ x y h
  | not =>
    obtain ⟨e, rfl⟩ := one rfl
    exact demands_one (by decide) _
  | or => exact demands_connect _ (by decide) (by simp [decides]) es [] _ rfl rfl
  | and => exact demands_connect _ (by decide) (by simp [decides]) es [] _ rfl rfl
  | eq =>
    obtain ⟨left, right, rfl⟩ := two rfl
    exact demands_compareEqual (by decide) (by simp [decides]) true
  | ne =>
    obtain ⟨left, right, rfl⟩ := two rfl
    exact demands_compareEqual (by decide) (by simp [decides]) false
  | lt | le | ge | gt =>
    obtain ⟨left, right, rfl⟩ := two rfl
    exact demands_withNumbers (by decide) (by simp [decides]) fun x y _ h => .pure h _
  | condition => exact demands_choose es [] rfl (by simp) (by simpa [arity, Arity.accepts] using ha)
  | coalesce => exact demands_firstNonNull es [] rfl rfl
  | isNull =>
    obtain ⟨e, rfl⟩ := one rfl
    exact demands_one (by decide) _
  | typeOf =>
    obtain ⟨e, rfl⟩ := one rfl
    exact demands_one (by decide) _
  | call | lookup | scope | lambda => cases hp

end

/-- **The demand of a plain operator is exact.** Without limits, in any state and with any host, a
node of such an operator with an accepted number of operands visits its operands from left to right,
none of them twice, up to the one that decides the node, and a condition only those that it takes.
Its host calls are those of the operands that are visited, one after the other. What it counts is
what they count, and one operation. -/
theorem Eval.evaluates_of_isPlain {code : Operator} {es : List (Expr α)} (hp : code.isPlain)
    (ha : code.arity.accepts es.length) (node : α) (host : Host) (executor : Executor)
    (depth : Nat) (c : State α) :
    let setting : Setting := ⟨.unlimited, host, executor⟩
    let r := eval (depth + 1) (.op node code es) setting c
    ∃ steps, Evaluates setting (eval depth) code es [] (c.visited node) steps r ∧
      (steps.map Step.place).Pairwise (· < ·) ∧
      (c.Precedes r.2 ∧ ∀ step ∈ steps, step.before.Precedes step.after) ∧
      r.2.callsSince c = (steps.map Step.calls).flatten ∧
      ∀ counter, counter ≠ .scopeDepth → r.2.usage.stats.value counter =
        c.usage.stats.value counter + (steps.map (·.spent counter)).sum +
          if counter = .opCount then 1 else 0 := by
  intro setting r
  have hv := forward_eval (α := α) depth
  have hr : r = apply (eval depth) node code es setting (c.visited node) := eval_op ha c
  have hdemands : Demands setting (eval depth) code es [] (apply (eval depth) node code es) :=
    demands_apply hp ha
  obtain ⟨steps, hsteps⟩ := hdemands (c.visited node)
  rw [← hr] at hsteps
  obtain ⟨hfinal, hcalls⟩ := hsteps.calls hv
  refine ⟨steps, hsteps, hsteps.places.2, ⟨(State.Precedes.visited c node).trans hfinal,
    hsteps.precedes hv⟩, hcalls, fun counter hcounter => ?_⟩
  rw [hsteps.spent hv counter]
  have hvisited : (c.visited node).usage.stats.value counter =
      c.usage.stats.value counter + if counter = .opCount then 1 else 0 := by
    cases counter <;> rfl
  omega

/-- The operand of a guard that is not true is not visited. -/
theorem Eval.evaluates_of_isPlain_condition :
    let f : CallTable := ⟨⟨[("f", .constant .null)]⟩⟩
    let setting : Setting := ⟨.unlimited, ⟨f, none, .empty⟩, .timed⟩
    let es : List (Expr Nat) := [.lit 1 .null, .op 2 .call [.lit 3 (.str "f")], .lit 4 (.bool true)]
    let start : State Nat := .start
    let r := eval 2 (.op 0 .condition es) setting start
    (Operator.condition.isPlain ∧ Operator.condition.arity.accepts es.length) ∧
      r.1 = .ok (.bool true) ∧ r.2.history = [] ∧ r.2.usage.stats.opCount = 3 ∧
      ∃ steps, Evaluates setting (eval 1) .condition es [] (start.visited 0) steps r ∧
        (steps.map Step.place).Pairwise (· < ·) ∧
        (start.Precedes r.2 ∧ ∀ step ∈ steps, step.before.Precedes step.after) ∧
        r.2.callsSince start = (steps.map Step.calls).flatten ∧
        ∀ counter, counter ≠ .scopeDepth → r.2.usage.stats.value counter =
          start.usage.stats.value counter + (steps.map (·.spent counter)).sum +
            if counter = .opCount then 1 else 0 := by
  intro f setting es start r
  have hp : Operator.condition.isPlain := by decide
  have ha : Operator.condition.arity.accepts es.length := by
    change Operator.condition.arity.accepts 3
    decide
  have hresult : r.1 = .ok (.bool true) := by decide +kernel
  have hcalls : r.2.history = [] := by decide +kernel
  have hcount : r.2.usage.stats.opCount = 3 := by decide +kernel
  exact ⟨⟨hp, ha⟩, hresult, hcalls, hcount,
    evaluates_of_isPlain hp ha 0 ⟨f, none, .empty⟩ .timed 1 start⟩

end OpTree
