import OpTree.Proofs.Check.Acceptance
import OpTree.Proofs.Evaluation.Sites

/-!
# What a check knows of the visible frames

A check keeps a static frame for every enclosing scope, and an evaluation a frame. `Describes` says
what the one tells of the other: whatever is known to be declared is, and unless names are computed
nothing else is; and the bodies of the lambdas have been checked inside of the static frames that
belong to the frames they will see. `Matches` says so of all visible frames.

Hiding frames at a call and marking lambdas keeps the match (`Matches.mark`, `Matches.body`), and
`described_of_binds` builds it up along the bindings of a scope. Main statements: what is known of a
name by `standing` is right of the visible frames.
-/

namespace OpTree

variable {α : Type}

namespace Check

variable (allowed : Option (List String)) (ρ : Report α)

/-- A static frame tells the truth about a frame; the bodies of its lambdas have been checked
inside of `below`. -/
structure Describes (below : List StaticFrame) (s : StaticFrame) (f : Frame α) : Prop where
  constants : ∀ n ∈ s.constants, (f.constants.find? n).isSome
  constants_of : s.dynamic = false → ∀ n, (f.constants.find? n).isSome → n ∈ s.constants
  lambdas : ∀ n k, s.lambdas.lookup n = some k →
    ∃ l, f.lambdas.find? n = some l ∧ l.params.length = k
  lambdas_of : s.dynamic = false → ∀ n l, f.lambdas.find? n = some l →
    s.lambdas.lookup n = some l.params.length
  bodies : ∀ n l, f.lambdas.find? n = some l →
    Accepted ρ (check allowed (.ofParams l.params :: below) l.body) ()

/-- Static frames tell the truth about the frames one by one, and there is a warning for every
computed name. -/
inductive Matches : List StaticFrame → List (Frame α) → Prop
  | nil : Matches [] []
  | cons {s ss f fs} : Describes allowed ρ (s :: ss) s f →
      (s.dynamic → ∃ node, .dynamicName node .scope ∈ ρ.warnings) → Matches ss fs →
      Matches (s :: ss) (f :: fs)

variable {allowed ρ} {below ss : List StaticFrame} {s : StaticFrame} {f new : Frame α}
  {fs : List (Frame α)} {name : String} {v : Scalar} {l : Lambda α} {σ : ScopeStack α}
  {depth : Nat}

/-! ### Declarations -/

namespace Describes

theorem empty : Describes allowed ρ below .empty .empty where
  constants := nofun
  constants_of _ _ h := nomatch h
  lambdas _ _ h := nomatch h
  lambdas_of _ _ _ h := nomatch h
  bodies _ _ h := nomatch h

/-- The frame of parameters declares them and nothing else. -/
theorem ofParams {params : List String} (h : IsParamFrame params f) :
    Describes allowed ρ below (.ofParams params) f where
  constants n hn := (h.names n).2 hn
  constants_of _ n hn := (h.names n).1 hn
  lambdas _ _ hk := nomatch hk
  lambdas_of _ n m hm := by
    rw [h.lambdas] at hm
    cases hm
  bodies n m hm := by
    rw [h.lambdas] at hm
    cases hm

theorem bindConstant_dynamic (h : Describes allowed ρ below s f)
    (hnew : f.bindConstant? name v = some new) :
    Describes allowed ρ below { s with dynamic := true } new := by
  obtain ⟨-, rfl⟩ := Frame.bindConstant?_eq_some.1 hnew
  refine ⟨fun n hn => ?_, nofun, h.lambdas, nofun, h.bodies⟩
  rw [NameMap.find?_insert]
  split
  · rfl
  · exact h.constants n hn

theorem bindConstant (h : Describes allowed ρ below s f)
    (hnew : f.bindConstant? name v = some new) :
    Describes allowed ρ below { s with constants := name :: s.constants } new := by
  have hdyn := h.bindConstant_dynamic hnew
  obtain ⟨-, rfl⟩ := Frame.bindConstant?_eq_some.1 hnew
  refine ⟨?_, fun hs n hn => ?_, h.lambdas, h.lambdas_of, h.bodies⟩
  · refine List.forall_mem_cons.2 ⟨?_, hdyn.constants⟩
    rw [NameMap.find?_insert, if_pos rfl]
    rfl
  · rw [NameMap.find?_insert] at hn
    split at hn
    · rename_i heq
      exact heq ▸ List.mem_cons_self
    · exact List.mem_cons_of_mem _ (h.constants_of hs n hn)

theorem bindLambda_dynamic (h : Describes allowed ρ below s f)
    (hnew : f.bindLambda? name l = some new)
    (hbody : Accepted ρ (check allowed (.ofParams l.params :: below) l.body) ()) :
    Describes allowed ρ below { s with dynamic := true } new := by
  obtain ⟨hnone, rfl⟩ := Frame.bindLambda?_eq_some.1 hnew
  refine ⟨h.constants, nofun, fun n k hk => ?_, nofun, fun n m hm => ?_⟩
  · obtain ⟨m, hm, hlen⟩ := h.lambdas n k hk
    refine ⟨m, ?_, hlen⟩
    rw [NameMap.find?_insert, if_neg, hm]
    rintro rfl
    rw [hnone] at hm
    cases hm
  · rw [NameMap.find?_insert] at hm
    split at hm
    · exact Option.some.inj hm ▸ hbody
    · exact h.bodies n m hm

theorem bindLambda (h : Describes allowed ρ below s f) (hnew : f.bindLambda? name l = some new)
    (hbody : Accepted ρ (check allowed (.ofParams l.params :: below) l.body) ()) :
    Describes allowed ρ below { s with lambdas := (name, l.params.length) :: s.lambdas } new := by
  have hdyn := h.bindLambda_dynamic hnew hbody
  obtain ⟨-, rfl⟩ := Frame.bindLambda?_eq_some.1 hnew
  refine ⟨h.constants, h.constants_of, fun n k hk => ?_, fun hd n m hm => ?_, hdyn.bodies⟩
  · rw [List.lookup_cons] at hk
    split at hk
    · rename_i heq
      refine ⟨l, ?_, Option.some.inj hk⟩
      rw [NameMap.find?_insert, if_pos (beq_iff_eq.1 heq)]
    · exact hdyn.lambdas n k hk
  · rw [NameMap.find?_insert] at hm
    rw [List.lookup_cons]
    split at hm
    · rename_i heq
      rw [beq_iff_eq.2 heq, ← Option.some.inj hm]
    · rename_i hne
      rw [beq_eq_false_iff_ne.2 hne]
      exact h.lambdas_of hd n m hm

theorem mark (h : Describes allowed ρ below s f) (name : String) (busy : Bool) :
    Describes allowed ρ below s (f.mark name busy) where
  constants := h.constants
  constants_of := h.constants_of
  lambdas n k hk := by
    obtain ⟨m, hm, hlen⟩ := h.lambdas n k hk
    rw [Frame.find?_mark]
    split
    · rename_i heq
      rw [← heq, hm]
      exact ⟨_, rfl, hlen⟩
    · exact ⟨m, hm, hlen⟩
  lambdas_of hd n m hm := by
    obtain ⟨was, hm⟩ := Frame.find?_of_mark hm
    exact h.lambdas_of hd n { m with busy := was } hm
  bodies n m hm := by
    obtain ⟨was, hm⟩ := Frame.find?_of_mark hm
    exact h.bodies n { m with busy := was } hm

end Describes

section Binds

variable {frames : List StaticFrame} {node : α} {last : StaticFrame} {es rest : List (Expr α)}

/-- **What is known along the bindings of a scope.** The frame that an evaluation has built when it
comes to the remaining operands is described by the static frame that the check has there, and if
names are computed there is a warning for the scope. -/
theorem described_of_binds (h : Binds es f rest)
    (hb : Accepted ρ (checkBindings allowed frames node .empty es) last)
    (hl : Accepted ρ (checkLambdas allowed below es) ()) :
    ∃ s, Accepted ρ (checkBindings allowed frames node s rest) last ∧
      Accepted ρ (checkLambdas allowed below rest) () ∧ Describes allowed ρ below s f ∧
        (s.dynamic → .dynamicName node .scope ∈ ρ.warnings) := by
  induction h with
  | start => exact ⟨.empty, hb, hl, .empty, nofun⟩
  | @constant f new n v rest name x _ hname hv _ hnew ih =>
    obtain ⟨s, hb, hl, hd, hw⟩ := ih
    obtain ⟨known, s', hn, hdecl, hrest⟩ := hb.of_binding
    refine ⟨s', hrest, hl.of_checkLambdas_tail, ?_⟩
    -- a name that is spelled is known to the check, any other is warned of
    rcases hn.of_nameOf with ⟨t, ht, rfl⟩ | ⟨-, rfl, -, hwarn⟩
    · obtain rfl := hname t ht
      cases hdecl.of_declare.1 with
      | constant => exact ⟨hd.bindConstant hnew, hw⟩
      | lambda => cases hv
    · cases hdecl.of_declare.1 with
      | dynamic => exact ⟨hd.bindConstant_dynamic hnew, fun _ => hwarn⟩
  | @lambda f new n label ps rest name l _ hname hok hnew ih =>
    obtain ⟨s, hb, hl, hd, hw⟩ := ih
    obtain ⟨known, s', hn, hdecl, hrest⟩ := hb.of_binding
    have hbody := hl.of_checkLambdas hok
    refine ⟨s', hrest, hl.of_checkLambdas_tail, ?_⟩
    rcases hn.of_nameOf with ⟨t, ht, rfl⟩ | ⟨-, rfl, -, hwarn⟩
    · obtain rfl := hname t ht
      cases hdecl.of_declare.1 with
      | constant hv => cases hv
      | lambda hl' =>
        obtain rfl := Except.ok.inj (hl'.symm.trans hok)
        exact ⟨hd.bindLambda hnew hbody, hw⟩
    · cases hdecl.of_declare.1 with
      | dynamic => exact ⟨hd.bindLambda_dynamic hnew hbody, fun _ => hwarn⟩

end Binds

namespace Matches

/-! ### Visible frames -/

private theorem modify (h : Matches allowed ρ ss fs) (name : String) (busy : Bool) :
    ∀ i, Matches allowed ρ ss (fs.modify i (·.mark name busy)) := by
  induction h with
  | nil =>
    intro i
    rw [List.modify_nil]
    exact .nil
  | cons hd hw hm ih =>
    intro i
    cases i with
    | zero => exact .cons (hd.mark name busy) hw hm
    | succ i => exact .cons hd hw (ih i)

/-- Marking a lambda keeps the match. -/
theorem mark (h : Matches allowed ρ ss σ.visible) (depth : Nat) (name : String) (busy : Bool) :
    Matches allowed ρ ss (σ.mark depth name busy).visible :=
  h.modify name busy _

private theorem drop (h : Matches allowed ρ ss fs) :
    ∀ k, Matches allowed ρ (ss.drop k) (fs.drop k) := by
  induction h with
  | nil => simp [Matches.nil]
  | cons hd hw hm ih =>
    intro k
    cases k with
    | zero => exact .cons hd hw hm
    | succ k => exact ih k

/-- The frames that the body of a lambda sees match the static frames that it was checked in. -/
theorem body (h : Matches allowed ρ ss σ.visible) (hl : σ.lambda? name = some (depth, l)) :
    ∃ ss', Matches allowed ρ ss' ((σ.mark depth name true).narrow depth).visible ∧
      Accepted ρ (check allowed (.ofParams l.params :: ss') l.body) () := by
  obtain ⟨inner, f, outer, hs, hd, hf, -⟩ := ScopeStack.lambdaIn?_eq_some.1 hl
  have hvis : (σ.mark depth name true).visible = inner ++ f.mark name true :: outer :=
    ScopeStack.visible_mark hs hd
  -- the frames inside of the one with the lambda are hidden from the body
  have hmark := (h.mark depth name true).drop inner.length
  rw [hvis, List.drop_left] at hmark
  refine ⟨ss.drop inner.length, ?_, ?_⟩
  · rwa [ScopeStack.visible_narrow hvis hd]
  · have hfind : (f.mark name true).lambdas.find? name = some { l with busy := true } := by
      rw [Frame.find?_mark, if_pos rfl, hf]
      rfl
    generalize ss.drop inner.length = ss' at hmark ⊢
    cases hmark with
    | cons hdesc _ _ => exact hdesc.bodies name { l with busy := true } hfind

/-! ### What a name refers to -/

/-- What is known to be declared is known from a static frame that describes a visible one. -/
private theorem exists_of_declared {γ : Type} {find : StaticFrame → Option γ} {value : γ}
    (h : Matches allowed ρ ss fs) (hd : standing find ss = .declared value) :
    ∃ below s, ∃ f ∈ fs, Describes allowed ρ below s f ∧ find s = some value := by
  induction h with
  | nil => cases hd
  | @cons s ss f fs hdesc _ _ ih =>
    rw [standing] at hd
    split at hd
    · rename_i hs
      cases hd
      exact ⟨_, s, f, List.mem_cons_self, hdesc, hs⟩
    · split at hd
      · cases hd
      · obtain ⟨below, s, f, hf, hdesc, hs⟩ := ih hd
        exact ⟨below, s, f, List.mem_cons_of_mem _ hf, hdesc, hs⟩

/-- What is known to be a constant is one. -/
theorem constant?_ne_none (h : Matches allowed ρ ss σ.visible)
    (hd : standing (fun s => if name ∈ s.constants then some () else none) ss = .declared ()) :
    σ.constant? name ≠ none := by
  obtain ⟨below, s, f, hf, hdesc, hs⟩ := h.exists_of_declared hd
  have hmem : name ∈ s.constants := by
    by_contra hn
    rw [if_neg hn] at hs
    cases hs
  have hfind := hdesc.constants name hmem
  rw [Ne, ScopeStack.constant?_eq_none]
  intro hnone
  rw [hnone f hf] at hfind
  cases hfind

/-- What is known to be a lambda is one. -/
theorem lambda?_ne_none {params : Nat} (h : Matches allowed ρ ss σ.visible)
    (hd : standing (fun s => s.lambdas.lookup name) ss = .declared params) :
    σ.lambda? name ≠ none := by
  obtain ⟨below, s, f, hf, hdesc, hs⟩ := h.exists_of_declared hd
  obtain ⟨l, hl, -⟩ := hdesc.lambdas name params hs
  rw [ScopeStack.lambda?, Ne, ScopeStack.lambdaIn?_eq_none]
  intro hnone
  rw [hnone f hf] at hl
  cases hl

/-- If no name of a scope is computed, a lambda that is found is the one that is known. -/
theorem standing_of_lambda? (h : Matches allowed ρ ss σ.visible)
    (hw : ∀ node, .dynamicName node .scope ∉ ρ.warnings)
    (hl : σ.lambda? name = some (depth, l)) :
    standing (fun s => s.lambdas.lookup name) ss = .declared l.params.length := by
  rw [ScopeStack.lambda?] at hl
  generalize σ.visible = fs at h hl
  induction h with
  | nil => cases hl
  | @cons s ss f fs hdesc hdyn _ ih =>
    -- no frame may declare a name that the check does not know
    have hs : s.dynamic = false := by
      by_contra hd
      obtain ⟨node, hn⟩ := hdyn (by simpa using hd)
      exact hw node hn
    rw [ScopeStack.lambdaIn?] at hl
    rw [standing]
    cases hf : f.lambdas.find? name with
    | some m =>
      rw [hf] at hl
      cases hl
      rw [hdesc.lambdas_of hs name l hf]
    | none =>
      rw [hf] at hl
      have hnone : s.lambdas.lookup name = none := by
        by_contra hk
        obtain ⟨k, hk⟩ := Option.ne_none_iff_exists'.1 hk
        obtain ⟨m, hm, -⟩ := hdesc.lambdas name k hk
        rw [hf] at hm
        cases hm
      rw [hnone, if_neg (by simp [hs])]
      exact ih hl

end Matches

end Check

end OpTree
