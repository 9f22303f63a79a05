import Mathlib.Data.List.Forall2
import OpTree.Proofs.Evaluation.Stack
import OpTree.Proofs.Lexical.Semantics

/-!
# The visible frames are the environment

At every step the visible frames of the stack are the scopes of the lexical environment, one by one
(`Represents`): they declare the same constants and the same lambdas, and a lambda is marked as busy
in its frame just if its instance is in progress. This outlasts what a call does to the stack,
because the entries of an environment are numbered in descending order: the mark concerns one
instance only, and what a call hides is what the environment of the closure does not have.
-/

namespace OpTree.Lexical

open List

variable {α : Type}

/-- A scope and the frame that stands for it on the stack. -/
structure Mirrors (active : List Instance) (scope : Scope α) (frame : Frame α) : Prop where
  constants : frame.constants = scope.frame.constants
  lambdas : ∀ name, frame.lambdas.find? name = (scope.frame.lambdas.find? name).map fun lambda =>
    { lambda with busy := decide (⟨scope.number, name⟩ ∈ active) }
  params : ∀ name lambda, scope.frame.lambdas.find? name = some lambda → lambda.params.Nodup

/-- The frames stand for the environment, all of it having been entered before the entry `n`. -/
structure Represents (n : Nat) (active : List Instance) (env : Env α)
    (frames : List (Frame α)) : Prop where
  mirrors : Forall₂ (Mirrors active) env frames
  descending : env.Pairwise fun inner outer => outer.number < inner.number
  entered : ∀ scope ∈ env, scope.number < n
  begun : ∀ id ∈ active, id.scope < n

/-- The lambdas of a frame that is not on the stack yet. -/
def IsNew (frame : Frame α) : Prop :=
  ∀ name lambda, frame.lambdas.find? name = some lambda →
    lambda.busy = false ∧ lambda.params.Nodup

variable {n m : Nat} {active : List Instance} {env inner outer : Env α}
  {frames : List (Frame α)} {frame : Frame α} {scope : Scope α} {name : String}
  {stack : ScopeStack α} {depth : Nat} {lambda : Lambda α} {id : Instance}

/-! ### Closures -/

theorem closure?_eq_none (h : ∀ s ∈ env, s.frame.lambdas.find? name = none) :
    closure? name env = none := by
  induction env with
  | nil => rfl
  | cons s env ih =>
    rw [List.forall_mem_cons] at h
    rw [closure?, h.1]
    exact ih h.2

/-- Scopes that do not declare the name are passed over, and are not part of the closure. -/
theorem closure?_append (h : ∀ s ∈ inner, s.frame.lambdas.find? name = none) :
    closure? name (inner ++ outer) = closure? name outer := by
  induction inner with
  | nil => rfl
  | cons s inner ih =>
    rw [List.forall_mem_cons] at h
    rw [List.cons_append, closure?, h.1]
    exact ih h.2

/-! ### One scope -/

namespace Mirrors

theorem find?_eq_none (h : Mirrors active scope frame) :
    frame.lambdas.find? name = none ↔ scope.frame.lambdas.find? name = none := by
  rw [h.lambdas, Option.map_eq_none_iff]

/-- A frame that has just been built mirrors the scope that is entered with it. -/
theorem of_isNew (hf : IsNew frame) (hn : ∀ i ∈ active, i.scope < n) :
    Mirrors active ⟨n, frame⟩ frame := by
  refine ⟨rfl, fun name => ?_, fun name lambda hl => (hf name lambda hl).2⟩
  cases hl : frame.lambdas.find? name with
  | none => rfl
  | some lambda =>
    have hnot : ⟨n, name⟩ ∉ active := fun hmem => Nat.lt_irrefl n (hn _ hmem)
    have hbusy := (hf name lambda hl).1
    rw [Option.map_some, decide_eq_false hnot, ← hbusy]

/-- Beginning a call concerns no entry but that of the lambda. -/
theorem cons_of_ne (h : Mirrors active scope frame) (hne : scope.number ≠ id.scope) :
    Mirrors (id :: active) scope frame := by
  refine ⟨h.constants, fun name => ?_, h.params⟩
  have hid : (⟨scope.number, name⟩ : Instance) ≠ id := fun heq => hne (heq ▸ rfl)
  simp only [h.lambdas, List.mem_cons, hid, false_or]

/-- Beginning a call marks the lambda of its instance. -/
theorem cons_mark (h : Mirrors active scope frame) :
    Mirrors (⟨scope.number, name⟩ :: active) scope (frame.mark name true) := by
  refine ⟨h.constants, fun other => ?_, h.params⟩
  rw [Frame.find?_mark, h.lambdas, h.lambdas]
  by_cases heq : other = name
  · subst heq
    rw [if_pos rfl, Option.map_map]
    simp only [Function.comp_def, List.mem_cons_self, decide_true]
  · have hid : (⟨scope.number, other⟩ : Instance) ≠ ⟨scope.number, name⟩ := fun h =>
      heq (congrArg Instance.name h)
    rw [if_neg heq]
    simp only [List.mem_cons, hid, false_or]

end Mirrors

/-! ### The environment -/

private theorem none_of_forall₂ (h : Forall₂ (Mirrors active) env frames)
    (hnone : ∀ f ∈ frames, f.lambdas.find? name = none) :
    ∀ s ∈ env, s.frame.lambdas.find? name = none := by
  induction h with
  | nil => simp
  | cons hs _ ih =>
    rw [List.forall_mem_cons] at hnone ⊢
    exact ⟨hs.find?_eq_none.1 hnone.1, ih hnone.2⟩

/-- Beginning a call concerns no frame but the one that declares the lambda. -/
theorem forall₂_cons_of_ne (h : Forall₂ (Mirrors active) env frames)
    (hne : ∀ s ∈ env, s.number ≠ id.scope) : Forall₂ (Mirrors (id :: active)) env frames := by
  induction h with
  | nil => exact .nil
  | cons hs _ ih =>
    rw [List.forall_mem_cons] at hne
    exact .cons (hs.cons_of_ne hne.1) (ih hne.2)

namespace Represents

theorem mono (h : Represents n active env frames) (hn : n ≤ m) : Represents m active env frames :=
  ⟨h.mirrors, h.descending, fun s hs => Nat.lt_of_lt_of_le (h.entered s hs) hn,
    fun i hi => Nat.lt_of_lt_of_le (h.begun i hi) hn⟩

theorem nil : Represents 0 [] ([] : Env α) [] :=
  ⟨.nil, .nil, by simp, by simp⟩

/-- A scope is entered. -/
theorem cons (h : Represents n active env frames) (hf : IsNew frame) :
    Represents (n + 1) active (⟨n, frame⟩ :: env) (frame :: frames) := by
  have hnext := h.mono (Nat.le_succ n)
  refine ⟨.cons (.of_isNew hf h.begun) h.mirrors, ?_, ?_, hnext.begun⟩
  · exact List.pairwise_cons.2 ⟨h.entered, h.descending⟩
  · exact List.forall_mem_cons.2 ⟨Nat.lt_succ_self n, hnext.entered⟩

/-- The constants of the stack are those of the environment. -/
theorem constant?_eq (h : Represents n active env stack.visible) :
    stack.constant? name = constant? env name := by
  obtain ⟨hm, -, -, -⟩ := h
  rw [ScopeStack.constant?, constant?]
  generalize stack.visible = frames at hm
  induction hm with
  | nil => rfl
  | cons hs _ ih => rw [List.findSome?_cons, List.findSome?_cons, hs.constants, ih]

/-- Where no lambda is visible there is no closure. -/
theorem closure?_eq_none (h : Represents n active env stack.visible)
    (hl : stack.lambda? name = none) : closure? name env = none :=
  Lexical.closure?_eq_none (none_of_forall₂ h.mirrors (ScopeStack.lambdaIn?_eq_none.1 hl))

private theorem split {visible visible' : List (Frame α)}
    (h : Forall₂ (Mirrors active) env (visible ++ frame :: visible')) :
    ∃ inner scope outer, env = inner ++ scope :: outer ∧
      Forall₂ (Mirrors active) inner visible ∧ Mirrors active scope frame ∧
      Forall₂ (Mirrors active) outer visible' := by
  have hinner := List.forall₂_take_append _ _ _ h
  obtain ⟨scope, outer, hs, houter, hdrop⟩ :=
    List.forall₂_cons_right_iff.1 (List.forall₂_drop_append _ _ _ h)
  refine ⟨_, scope, outer, ?_, hinner, hs, houter⟩
  rw [← hdrop, List.take_append_drop]

/-- **What a call finds.** The visible lambda is the one of the closure, and it is busy just if the
instance is in progress. While the call lasts, the marked stack stands for the environment of the
call and the narrowed stack for the environment of the closure. -/
theorem lambda? (h : Represents n active env stack.visible)
    (hl : stack.lambda? name = some (depth, lambda)) :
    ∃ closure, closure? name env = some closure ∧ closure.lambda.params.Nodup ∧
      lambda = { closure.lambda with busy := decide (closure.id ∈ active) } ∧
      Represents n (closure.id :: active) env (stack.mark depth name true).visible ∧
      Represents n (closure.id :: active) closure.env
        ((stack.mark depth name true).narrow depth).visible := by
  obtain ⟨visible, frame, visible', hs, hd, hf, hi⟩ := ScopeStack.lambdaIn?_eq_some.1 hl
  have hmark : (stack.mark depth name true).visible = visible ++ frame.mark name true :: visible' :=
    ScopeStack.visible_mark hs hd
  obtain ⟨inner, scope, outer, rfl, hinner, hscope, houter⟩ := split (hs ▸ h.mirrors)
  obtain ⟨l, hfind, rfl⟩ := Option.map_eq_some_iff.1 (hscope.lambdas name ▸ hf)
  obtain ⟨-, hdesc, hgt⟩ := List.pairwise_append.1 h.descending
  obtain ⟨hlt, -⟩ := List.pairwise_cons.1 hdesc
  -- all other entries are older or younger than that of the lambda
  have hinner' : Forall₂ (Mirrors (⟨scope.number, name⟩ :: active)) inner visible :=
    forall₂_cons_of_ne hinner fun s hs => Nat.ne_of_gt (hgt s hs scope List.mem_cons_self)
  have houter' : Forall₂ (Mirrors (⟨scope.number, name⟩ :: active)) outer visible' :=
    forall₂_cons_of_ne houter fun s hs => Nat.ne_of_lt (hlt s hs)
  have hbegun : ∀ i ∈ (⟨scope.number, name⟩ :: active : List Instance), i.scope < n :=
    List.forall_mem_cons.2 ⟨h.entered scope (by simp), h.begun⟩
  refine ⟨⟨⟨scope.number, name⟩, l, scope :: outer⟩, ?_, ?_, rfl, ?_, ?_⟩
  · rw [closure?_append (none_of_forall₂ hinner hi), closure?, hfind]
  · exact hscope.params name l hfind
  · refine ⟨?_, h.descending, h.entered, hbegun⟩
    rw [hmark]
    exact List.rel_append hinner' (.cons hscope.cons_mark houter')
  · refine ⟨?_, hdesc, fun s hs => h.entered s (List.mem_append_right _ hs), hbegun⟩
    rw [ScopeStack.visible_narrow hmark hd]
    exact .cons hscope.cons_mark houter'

end Represents

end OpTree.Lexical
