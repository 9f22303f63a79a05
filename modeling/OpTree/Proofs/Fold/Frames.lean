import OpTree.Proofs.Fold.Relation

/-!
# The scopes around a folded expression

Where a folded expression is evaluated, the frames hold the same constants as where the expression
itself is, and lambdas whose bodies are folded. A scope without bindings has no frame there, because
folding leaves only its body.

Main statement: `ScopeStack.Mirrors.lambda?`, a lambda that is found is found in both stacks, and a
call does the same to both.
-/

namespace OpTree

open Fold List

variable {α β : Type}

/-! ### Lambdas -/

/-- The one lambda is the other one with a folded body. -/
structure Lambda.Mirrors (l : Lambda α) (m : Lambda β) : Prop where
  params : l.params = m.params
  busy : l.busy = m.busy
  body : Folds l.body m.body
  regular : Regular l.body

/-- What folds a literal spells the same name. -/
private theorem map_name?_of_folds {names : List String} {ps : List (Expr α)} {qs : List (Expr β)}
    (h : Forall₂ Folds ps qs) (hps : ps.map Expr.name? = names.map some) :
    qs.map Expr.name? = names.map some := by
  induction h generalizing names with
  | nil => exact hps
  | cons h _ ih =>
    cases names with
    | nil => cases hps
    | cons name names =>
      obtain ⟨hp, hps⟩ := List.cons.inj hps
      rw [List.map_cons, List.map_cons, h.name?_eq hp, ih hps]

/-- The last of some operands folds to the last. -/
private theorem folds_concat {ps : List (Expr α)} {body : Expr α} :
    ∀ {fs : List (Expr β)}, Forall₂ Folds (ps ++ [body]) fs →
      ∃ qs g, fs = qs ++ [g] ∧ Forall₂ Folds ps qs ∧ Folds body g := by
  induction ps with
  | nil =>
    intro fs h
    obtain ⟨g, _, hg, hrest, rfl⟩ := List.forall₂_cons_left_iff.1 h
    obtain rfl := List.forall₂_nil_left_iff.1 hrest
    exact ⟨[], g, rfl, .nil, hg⟩
  | cons p ps ih =>
    intro fs h
    obtain ⟨q, _, hq, hrest, rfl⟩ := List.forall₂_cons_left_iff.1 h
    obtain ⟨qs, g, rfl, hqs, hg⟩ := ih hrest
    exact ⟨q :: qs, g, rfl, .cons hq hqs, hg⟩

/-- A lambda node declares the mirror image of what it declares before it is folded. -/
theorem Lambda.exists_declare_of_folds {label : α} {label' : β} {es : List (Expr α)}
    {fs : List (Expr β)} {l : Lambda α} (hl : Lambda.declare label es = .ok l)
    (h : Forall₂ Folds es fs) (hbody : Regular l.body) :
    ∃ m, Lambda.declare label' fs = .ok m ∧ l.Mirrors m := by
  -- the parameters are literals, which are folded to themselves
  obtain ⟨-, hbusy, hnodup, ps, rfl, hps⟩ := Lambda.declare_eq_ok hl
  obtain ⟨qs, g, rfl, hqs, hg⟩ := folds_concat h
  exact ⟨_, Lambda.declare_concat (map_name?_of_folds hqs hps) hnodup, rfl, hbusy, hg, hbody⟩

/-! ### Frames -/

/-- The one frame has the constants of the other and mirror images of its lambdas. -/
structure Frame.Mirrors (f : Frame α) (g : Frame β) : Prop where
  constants : f.constants = g.constants
  lambdas : ∀ name, Option.Rel Lambda.Mirrors (f.lambdas.find? name) (g.lambdas.find? name)

namespace Frame.Mirrors

variable {f : Frame α} {g : Frame β} {name : String} {l : Lambda α} {m : Lambda β}

/-- A name has a lambda in both frames or in neither. -/
theorem lambdas_cases (h : f.Mirrors g) (name : String) :
    f.lambdas.find? name = none ∧ g.lambdas.find? name = none ∨
      ∃ l m, f.lambdas.find? name = some l ∧ g.lambdas.find? name = some m ∧ l.Mirrors m := by
  have hrel := h.lambdas name
  generalize f.lambdas.find? name = x at hrel ⊢
  generalize g.lambdas.find? name = y at hrel ⊢
  cases hrel with
  | none => exact .inl ⟨rfl, rfl⟩
  | some h => exact .inr ⟨_, _, rfl, rfl, h⟩

/-- Where the original frame has no lambda, the folded one has none. -/
theorem find?_eq_none (h : f.Mirrors g) (hf : f.lambdas.find? name = none) :
    g.lambdas.find? name = none := by
  rcases h.lambdas_cases name with ⟨-, hg⟩ | ⟨l, m, hl, -⟩
  · exact hg
  · cases hf.symm.trans hl

/-- Where the original frame has a lambda, the folded one has its image. -/
theorem find?_eq_some (h : f.Mirrors g) (hf : f.lambdas.find? name = some l) :
    ∃ m, g.lambdas.find? name = some m ∧ l.Mirrors m := by
  rcases h.lambdas_cases name with ⟨hn, -⟩ | ⟨_, m, hl, hm, hlm⟩
  · cases hf.symm.trans hn
  · cases hf.symm.trans hl
    exact ⟨m, hm, hlm⟩

/-- A lambda of the folded frame is the image of one. -/
theorem of_find?_eq_some (h : f.Mirrors g) (hg : g.lambdas.find? name = some m) :
    ∃ l, f.lambdas.find? name = some l ∧ l.Mirrors m := by
  rcases h.lambdas_cases name with ⟨-, hn⟩ | ⟨l, _, hl, hm, hlm⟩
  · cases hg.symm.trans hn
  · cases hg.symm.trans hm
    exact ⟨l, hl, hlm⟩

/-- Frames without lambdas are alike if their constants are the same. -/
theorem of_constants (hc : f.constants = g.constants) (hf : f.lambdas = .empty)
    (hg : g.lambdas = .empty) : f.Mirrors g := by
  refine ⟨hc, fun name => ?_⟩
  rw [hf, hg]
  exact .none

theorem mark (h : f.Mirrors g) (name : String) (busy : Bool) :
    (f.mark name busy).Mirrors (g.mark name busy) := by
  refine ⟨h.constants, fun other => ?_⟩
  rw [find?_mark, find?_mark]
  split
  · rcases h.lambdas_cases name with ⟨hf, hg⟩ | ⟨l, m, hf, hg, hlm⟩ <;> rw [hf, hg]
    · exact .none
    · exact .some ⟨hlm.params, rfl, hlm.body, hlm.regular⟩
  · exact h.lambdas other

/-- A lambda is new to both frames or to neither. -/
theorem bindLambda?_cases (h : f.Mirrors g) (hlm : l.Mirrors m) (name : String) :
    f.bindLambda? name l = none ∧ g.bindLambda? name m = none ∨
      ∃ new new', f.bindLambda? name l = some new ∧ g.bindLambda? name m = some new' ∧
        new.Mirrors new' := by
  rcases h.lambdas_cases name with ⟨hf, hg⟩ | ⟨_, _, hf, hg, -⟩
  · refine .inr ⟨_, _, bindLambda?_eq_some.2 ⟨hf, rfl⟩, bindLambda?_eq_some.2 ⟨hg, rfl⟩,
      h.constants, fun other => ?_⟩
    rw [NameMap.find?_insert, NameMap.find?_insert]
    split
    · exact .some hlm
    · exact h.lambdas other
  · exact .inl ⟨bindLambda?_eq_none.2 (Option.isSome_of_eq_some hf),
      bindLambda?_eq_none.2 (Option.isSome_of_eq_some hg)⟩

end Frame.Mirrors

/-- The one list of frames mirrors the other. A frame without declarations may be missing. -/
inductive FramesMirror : List (Frame α) → List (Frame β) → Prop
  | nil : FramesMirror [] []
  | cons {f g fs gs} : f.Mirrors g → FramesMirror fs gs → FramesMirror (f :: fs) (g :: gs)
  | skip {fs gs} : FramesMirror fs gs → FramesMirror (.empty :: fs) gs

namespace FramesMirror

variable {fs inner outer : List (Frame α)} {gs : List (Frame β)} {f : Frame α} {g : Frame β}
  {name : String}

/-- A constant that is found is found in both lists of frames. -/
theorem findSome?_constants (h : FramesMirror fs gs) :
    gs.findSome? (fun g => g.constants.find? name) =
      fs.findSome? fun f => f.constants.find? name := by
  induction h with
  | nil => rfl
  | cons h _ ih => rw [List.findSome?_cons, List.findSome?_cons, h.constants, ih]
  | skip _ ih => exact ih

theorem exists_of_mem (h : FramesMirror fs gs) (hg : g ∈ gs) : ∃ f ∈ fs, f.Mirrors g := by
  induction h with
  | nil => cases hg
  | cons h _ ih =>
    rcases List.mem_cons.1 hg with rfl | hg
    · exact ⟨_, List.mem_cons_self, h⟩
    · obtain ⟨f, hf, h⟩ := ih hg
      exact ⟨f, List.mem_cons_of_mem _ hf, h⟩
  | skip _ ih =>
    obtain ⟨f, hf, h⟩ := ih hg
    exact ⟨f, List.mem_cons_of_mem _ hf, h⟩

/-- A name without a lambda in the original frames has none in the folded ones. -/
theorem lambdaIn?_eq_none (h : FramesMirror fs gs)
    (hf : ∀ f ∈ fs, f.lambdas.find? name = none) : ∀ g ∈ gs, g.lambdas.find? name = none := by
  intro g hg
  obtain ⟨f, hmem, h⟩ := h.exists_of_mem hg
  exact h.find?_eq_none (hf f hmem)

/-- The frame of a lambda splits both lists alike, and may be replaced in both. -/
theorem split (h : FramesMirror (inner ++ f :: outer) gs)
    (hf : (f.lambdas.find? name).isSome) (hi : ∀ f ∈ inner, f.lambdas.find? name = none) :
    ∃ inner' g outer', gs = inner' ++ g :: outer' ∧
      (∀ g ∈ inner', g.lambdas.find? name = none) ∧ f.Mirrors g ∧ FramesMirror outer outer' ∧
      ∀ (f' : Frame α) (g' : Frame β), f'.Mirrors g' →
        FramesMirror (inner ++ f' :: outer) (inner' ++ g' :: outer') := by
  induction inner generalizing gs with
  | nil =>
    cases h with
    | cons hfg hrest => exact ⟨[], _, _, rfl, by simp, hfg, hrest, fun f' g' h => .cons h hrest⟩
    -- a frame that is skipped declares nothing
    | skip => cases hf
  | cons i inner ih =>
    obtain ⟨hi, hinner⟩ := List.forall_mem_cons.1 hi
    cases h with
    | @cons _ j _ gs hij hrest =>
      obtain ⟨inner', g, outer', rfl, hi', hfg, houter, hreplace⟩ := ih hrest hinner
      exact ⟨j :: inner', g, outer', rfl, List.forall_mem_cons.2 ⟨hij.find?_eq_none hi, hi'⟩,
        hfg, houter, fun f' g' h => .cons hij (hreplace f' g' h)⟩
    | skip hrest =>
      obtain ⟨inner', g, outer', rfl, hi', hfg, houter, hreplace⟩ := ih hrest hinner
      exact ⟨inner', g, outer', rfl, hi', hfg, houter, fun f' g' h => .skip (hreplace f' g' h)⟩

end FramesMirror

/-! ### Stacks -/

/-- The visible frames of the one stack mirror those of the other. -/
def ScopeStack.Mirrors (σ : ScopeStack α) (τ : ScopeStack β) : Prop :=
  FramesMirror σ.visible τ.visible

namespace ScopeStack.Mirrors

variable {σ : ScopeStack α} {τ : ScopeStack β} {f : Frame α} {g : Frame β} {name : String}
  {depth : Nat} {l : Lambda α}

theorem push (h : σ.Mirrors τ) (hfg : f.Mirrors g) : (σ.push f).Mirrors (τ.push g) :=
  .cons hfg h

theorem push_empty (h : σ.Mirrors τ) : (σ.push .empty).Mirrors τ :=
  .skip h

/-- A constant has the same value in both stacks. -/
theorem constant?_eq (h : σ.Mirrors τ) : τ.constant? name = σ.constant? name :=
  h.findSome?_constants

/-- What is no lambda in the one stack is none in the other. -/
theorem lambda?_eq_none (h : σ.Mirrors τ) (hσ : σ.lambda? name = none) : τ.lambda? name = none :=
  lambdaIn?_eq_none.2 (h.lambdaIn?_eq_none (lambdaIn?_eq_none.1 hσ))

/-- A lambda is found in both stacks, and a call does the same to both. -/
theorem lambda? (h : σ.Mirrors τ) (hl : σ.lambda? name = some (depth, l)) :
    ∃ depth' m, τ.lambda? name = some (depth', m) ∧ l.Mirrors m ∧
      (σ.mark depth name true).Mirrors (τ.mark depth' name true) ∧
      ((σ.mark depth name true).narrow depth).Mirrors
        ((τ.mark depth' name true).narrow depth') := by
  obtain ⟨inner, f, outer, hs, hd, hf, hi⟩ := lambdaIn?_eq_some.1 hl
  rw [Mirrors, hs] at h
  obtain ⟨inner', g, outer', ht, hi', hfg, houter, hreplace⟩ :=
    h.split (Option.isSome_of_eq_some hf) hi
  obtain ⟨m, hm, hlm⟩ := hfg.find?_eq_some hf
  have hmarked := hfg.mark name true
  refine ⟨outer'.length + 1, m, lambdaIn?_eq_some.2 ⟨inner', g, outer', ht, rfl, hm, hi'⟩, hlm,
    ?_, ?_⟩
  · rw [Mirrors, visible_mark hs hd, visible_mark ht rfl]
    exact hreplace _ _ hmarked
  · rw [Mirrors, visible_narrow (visible_mark hs hd) hd, visible_narrow (visible_mark ht rfl) rfl]
    exact .cons hmarked houter

/-- What holds of the scopes at every site holds of their mirror image. -/
theorem sound (h : σ.Mirrors τ) {e : Expr α} {f : Expr β} {calls : List α}
    (hs : Site.Sound ⟨σ, e, calls⟩) : Site.Sound ⟨τ, f, []⟩ := by
  refine ⟨fun g hg name v hv => ?_, fun g hg name m hm => ?_⟩
  · obtain ⟨f, hf, hfg⟩ := h.exists_of_mem hg
    exact hs.constants f hf name v (by rw [hfg.constants, hv])
  · obtain ⟨f, hf, hfg⟩ := h.exists_of_mem hg
    obtain ⟨l, hl, hlm⟩ := hfg.of_find?_eq_some hm
    exact hlm.params ▸ hs.lambdas f hf name l hl

end ScopeStack.Mirrors

end OpTree
