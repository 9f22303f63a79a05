import Mathlib.Data.List.Basic
import OpTree.ScopeStack

/-!
# Frames and the stack of frames

Where a lambda is found decides which frames its body sees. `lambdaIn?_eq_some` says that a lambda
that is found sits in a frame that splits the visible ones in two: no inner one declares the name,
and the depth counts the frame and the outer ones. All that a call does to the stack is read off
this decomposition: marking changes only that frame (`visible_mark`), narrowing leaves it and the
outer ones (`visible_narrow`), and both are undone exactly (`mark_mark`, `widen_narrow`).
-/

namespace OpTree

variable {α : Type}

/-! ### Frames -/

namespace Frame

/-- The frame with the lambda of a name marked as busy, or as free again. -/
def mark (frame : Frame α) (name : String) (busy : Bool) : Frame α :=
  { frame with lambdas := frame.lambdas.modify name fun lambda => { lambda with busy := busy } }

/-- Marking changes the lambda of that name only, and of it whether it is busy. -/
theorem find?_mark (frame : Frame α) (name other : String) (busy : Bool) :
    (frame.mark name busy).lambdas.find? other =
      if other = name then (frame.lambdas.find? name).map fun lambda => { lambda with busy := busy }
      else frame.lambdas.find? other :=
  NameMap.find?_modify ..

/-- A lambda of a marked frame is one of the frame, but for its mark. -/
theorem find?_of_mark {frame : Frame α} {name other : String} {busy : Bool} {lambda : Lambda α}
    (h : (frame.mark name busy).lambdas.find? other = some lambda) :
    ∃ was, frame.lambdas.find? other = some { lambda with busy := was } := by
  rw [find?_mark] at h
  split at h
  · rename_i heq
    obtain ⟨l, hl, rfl⟩ := Option.map_eq_some_iff.1 h
    exact ⟨l.busy, heq ▸ hl⟩
  · exact ⟨lambda.busy, h⟩

/-- A constant is declared if its name is new. -/
theorem bindConstant?_eq_some {frame new : Frame α} {name : String} {value : Scalar} :
    frame.bindConstant? name value = some new ↔
      frame.constants.find? name = none ∧
        new = { frame with constants := frame.constants.insert name value } := by
  rw [bindConstant?, NameMap.contains]
  cases h : frame.constants.find? name with
  | none => simpa using eq_comm
  | some v => simp

/-- A constant is not declared if its name is taken. -/
theorem bindConstant?_eq_none {frame : Frame α} {name : String} {value : Scalar} :
    frame.bindConstant? name value = none ↔ (frame.constants.find? name).isSome := by
  rw [bindConstant?, NameMap.contains]
  cases h : frame.constants.find? name <;> simp

/-- A lambda is declared if its name is new. -/
theorem bindLambda?_eq_some {frame new : Frame α} {name : String} {lambda : Lambda α} :
    frame.bindLambda? name lambda = some new ↔
      frame.lambdas.find? name = none ∧
        new = { frame with lambdas := frame.lambdas.insert name lambda } := by
  rw [bindLambda?, NameMap.contains]
  cases h : frame.lambdas.find? name with
  | none => simpa using eq_comm
  | some l => simp

/-- A lambda is not declared if its name is taken. -/
theorem bindLambda?_eq_none {frame : Frame α} {name : String} {lambda : Lambda α} :
    frame.bindLambda? name lambda = none ↔ (frame.lambdas.find? name).isSome := by
  rw [bindLambda?, NameMap.contains]
  cases h : frame.lambdas.find? name <;> simp

end Frame

/-- Declaring a name that the map does not have adds one entry. -/
theorem NameMap.entries_insert_of_find?_eq_none {β : Type} {map : NameMap β} {name : String}
    {value : β} (h : map.find? name = none) :
    (map.insert name value).entries = (name, value) :: map.entries := by
  obtain ⟨entries⟩ := map
  simp only [find?, insert, erase, List.cons.injEq, true_and, List.filter_eq_self] at h ⊢
  induction entries with
  | nil => simp
  | cons entry rest ih => grind

namespace ScopeStack

variable {name : String} {frames inner outer : List (Frame α)} {frame : Frame α} {depth : Nat}
  {lambda : Lambda α} {stack : ScopeStack α}

/-! ### Finding a lambda -/

/-- No lambda is found if no frame has one. -/
theorem lambdaIn?_eq_none :
    lambdaIn? name frames = none ↔ ∀ f ∈ frames, f.lambdas.find? name = none := by
  induction frames with
  | nil => simp [lambdaIn?]
  | cons f fs ih =>
    rw [lambdaIn?]
    split <;> rename_i h <;> simp [h, ih]

/-- Frames that do not declare the name are passed over. -/
theorem lambdaIn?_append (h : ∀ f ∈ inner, f.lambdas.find? name = none) :
    lambdaIn? name (inner ++ outer) = lambdaIn? name outer := by
  induction inner with
  | nil => rfl
  | cons f fs ih =>
    rw [List.cons_append, lambdaIn?, h f (by simp)]
    exact ih fun g hg => h g (List.mem_cons_of_mem f hg)

/-- **Where a lambda is found.** Its frame is the innermost one with the name, and the depth counts
the frames from there outward. -/
theorem lambdaIn?_eq_some :
    lambdaIn? name frames = some (depth, lambda) ↔
      ∃ inner frame outer, frames = inner ++ frame :: outer ∧ depth = outer.length + 1 ∧
        frame.lambdas.find? name = some lambda ∧ ∀ f ∈ inner, f.lambdas.find? name = none := by
  constructor
  · intro h
    induction frames with
    | nil => cases h
    | cons f fs ih =>
      rw [lambdaIn?] at h
      split at h
      · rename_i hf
        cases h
        exact ⟨[], f, fs, rfl, rfl, hf, by simp⟩
      · rename_i hf
        obtain ⟨inner, frame, outer, rfl, hd, hl, hi⟩ := ih h
        exact ⟨f :: inner, frame, outer, rfl, hd, hl, List.forall_mem_cons.2 ⟨hf, hi⟩⟩
  · rintro ⟨inner, frame, outer, rfl, rfl, hl, hi⟩
    rw [lambdaIn?_append hi, lambdaIn?, hl]

/-- A lambda that is found is in a visible frame. -/
theorem exists_mem_of_lambda? (h : stack.lambda? name = some (depth, lambda)) :
    ∃ f ∈ stack.visible, f.lambdas.find? name = some lambda := by
  obtain ⟨inner, f, outer, hs, -, hl, -⟩ := lambdaIn?_eq_some.1 h
  exact ⟨f, by simp [hs], hl⟩

/-- No constant is found if no visible frame has one. -/
theorem constant?_eq_none :
    stack.constant? name = none ↔ ∀ f ∈ stack.visible, f.constants.find? name = none := by
  simp [constant?]

/-! ### What a call does to the stack -/

theorem visible_push : (stack.push frame).visible = frame :: stack.visible := rfl

theorem pop_push : (stack.push frame).pop = stack := rfl

private theorem length_sub (hd : depth = outer.length + 1) :
    (inner ++ frame :: outer).length - depth = inner.length := by
  simp only [List.length_append, List.length_cons]
  omega

/-- Marking changes the frame of the lambda and no other. -/
theorem visible_mark {busy : Bool} (hs : stack.visible = inner ++ frame :: outer)
    (hd : depth = outer.length + 1) :
    (stack.mark depth name busy).visible = inner ++ frame.mark name busy :: outer := by
  simp only [mark, hs, length_sub hd]
  rw [List.modify_eq_take_cons_drop (by simp)]
  simp [Frame.mark]

/-- The body of a lambda sees the frame of the lambda and those outside of it. -/
theorem visible_narrow (hs : stack.visible = inner ++ frame :: outer)
    (hd : depth = outer.length + 1) : (stack.narrow depth).visible = frame :: outer := by
  simp only [narrow, hs, length_sub hd, List.drop_left]

/-- A frame of a marked stack is one of the stack, but perhaps for its mark. -/
theorem mem_visible_mark {busy : Bool} (h : stack.lambda? name = some (depth, lambda))
    (hf : frame ∈ (stack.mark depth name busy).visible) :
    ∃ f ∈ stack.visible, frame = f ∨ frame = f.mark name busy := by
  obtain ⟨inner, f, outer, hs, hd, -, -⟩ := lambdaIn?_eq_some.1 h
  rw [visible_mark hs hd] at hf
  rw [hs]
  rcases List.mem_append.1 hf with hi | ho
  · exact ⟨frame, List.mem_append_left _ hi, .inl rfl⟩
  · rcases List.mem_cons.1 ho with rfl | ho
    · exact ⟨f, by simp, .inr rfl⟩
    · exact ⟨frame, by simp [ho], .inl rfl⟩

/-- What is visible among the outer frames is visible. -/
theorem mem_visible_of_narrow (hf : frame ∈ (stack.narrow depth).visible) :
    frame ∈ stack.visible :=
  List.mem_of_mem_drop hf

/-- What is hidden is shown again as it was. -/
@[simp]
theorem widen_narrow (stack : ScopeStack α) (depth : Nat) :
    (stack.narrow depth).widen = stack := by
  simp only [widen, narrow, List.take_append_drop]

/-- A free lambda that is marked as busy and then as free again is as before. -/
theorem mark_mark (h : stack.lambda? name = some (depth, lambda)) (hb : lambda.busy = false) :
    (stack.mark depth name true).mark depth name false = stack := by
  obtain ⟨inner, frame, outer, hs, hd, hl, -⟩ := lambdaIn?_eq_some.1 h
  have hframe : (frame.mark name true).mark name false = frame := by
    have hm : (frame.lambdas.modify name fun l => { l with busy := true }).modify name
        (fun l => { l with busy := false }) = frame.lambdas :=
      NameMap.modify_modify_of_find? hl (by rw [← hb])
    simp only [Frame.mark, hm]
  -- no other frame has been touched
  have hv : ((stack.mark depth name true).mark depth name false).visible = stack.visible := by
    rw [visible_mark (visible_mark hs hd) hd, hframe, hs]
  exact congrArg (ScopeStack.mk · stack.hidden) hv

end ScopeStack

end OpTree
