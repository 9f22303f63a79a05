import OpTree.Proofs.Evaluation.Visits
import OpTree.Proofs.Lexical.Refinement

/-!
# A lambda is busy just while it is called

The scopes and the calls that are in progress at a visit of a run are a matter of the visits around
it. `Visit.Tracks` follows them from the start of the run down to the visit: a visit that is made
inside of one more scope is one of the body of a scope, a visit that is made with one more call in
progress is one of an argument or of the body of the closure that the call names, and any other one
leaves all as it is. None of this looks at the marks.

The marks say the same (`Progress.Describes`): the frames on the stack, the hidden ones included,
stand for the scopes that have been entered, and a lambda is busy in its frame just if its instance
is in progress. A visit gives back all that it takes, whether it ends with a value or an error, and
so this holds when it ends as well.

Main statement: `Expr.released`.
-/

namespace OpTree

open Comparison Eval Lexical List

variable {α : Type}

/-! ### What a visit does to the scopes -/

/-- The lambdas that a scope declares are new. -/
theorem Binds.isNew {es rest : List (Expr α)} {frame : Frame α} (h : Binds es frame rest) :
    IsNew frame := by
  intro name l hl
  obtain ⟨ps, -, hdecl⟩ := h.lambdas name l hl
  obtain ⟨-, hbusy, hnodup, -⟩ := Lambda.declare_eq_ok hdecl
  exact ⟨hbusy, hnodup⟩

namespace Site

/-- The same calls are in progress, and the scopes are the same or there is one more. -/
def Stays (κ κ' : Site α) : Prop :=
  κ'.calls = κ.calls ∧
    (κ'.scopes = κ.scopes ∨ ∃ frame, IsNew frame ∧ κ'.scopes = κ.scopes.push frame)

/-- The lambda of a name is called: an argument is evaluated where the call stands, the body where
the lambda is declared and in one more scope. -/
def Enters (κ : Site α) (name : String) (κ' : Site α) : Prop :=
  ∃ depth l, κ.scopes.lambda? name = some (depth, l) ∧ l.busy = false ∧
    κ'.calls = l.label :: κ.calls ∧
    (κ'.scopes = κ.scopes.mark depth name true ∨
      ∃ frame, IsNew frame ∧
        κ'.scopes = ((κ.scopes.mark depth name true).narrow depth).push frame)

/-- No visit does anything else to the scopes. -/
theorem Leads.stays_or_enters {κ κ' : Site α} (h : κ.Leads κ') :
    κ.Stays κ' ∨ ∃ a n args name, κ.expr = .op a .call (n :: args) ∧ n.MayName name ∧
      κ.Enters name κ' := by
  cases h with
  | operand | name | bindingName | bindingValue | hostArgument => exact .inl ⟨rfl, .inl rfl⟩
  | scopeBody hb => exact .inl ⟨rfl, .inr ⟨_, hb.isNew, rfl⟩⟩
  | argument hn hl hb => exact .inr ⟨_, _, _, _, rfl, hn, _, _, hl, hb, rfl, .inl rfl⟩
  | lambdaBody hn hl hb _ hp =>
    exact .inr ⟨_, _, _, _, rfl, hn, _, _, hl, hb, rfl, .inr ⟨_, .of_lambdas hp.lambdas, rfl⟩⟩

end Site

namespace Lexical

/-- A closure is found among the scopes: its environment is what is left of them from the one that
declares the lambda outward. -/
theorem closure?_eq_some {env : Env α} {name : String} {closure : Closure α}
    (h : closure? name env = some closure) :
    closure.id.name = name ∧ closure.env <:+ env ∧
      ∃ scope ∈ closure.env, scope.number = closure.id.scope ∧
        scope.frame.lambdas.find? name = some closure.lambda := by
  induction env with
  | nil => cases h
  | cons scope outer ih =>
    rw [closure?] at h
    split at h
    · rename_i l hl
      cases h
      exact ⟨rfl, List.suffix_refl _, scope, List.mem_cons_self, rfl, hl⟩
    · obtain ⟨hname, hsuffix, hscope⟩ := ih h
      exact ⟨hname, hsuffix.trans (List.suffix_cons _ _), hscope⟩

/-! ### What is in progress -/

/-- What is in progress at a visit. -/
structure Progress (α : Type) where
  /-- The number of visits around this one. -/
  level : Nat
  /-- The scopes that enclose the expression. -/
  env : Env α
  /-- The scopes that the body of each lambda hides, the innermost body first. -/
  hidden : List (Env α)
  /-- The instances whose calls are in progress, the latest first. -/
  active : List Instance

namespace Progress

/-- Nothing is in progress. -/
def start : Progress α := ⟨0, [], [], []⟩

/-- All scopes that have been entered. -/
def scopes (p : Progress α) : List (Scope α) := p.env ++ p.hidden.flatten

/-- One visit further in. -/
def next (p : Progress α) : Progress α := { p with level := p.level + 1 }

/-- One visit further in, and one scope. The entries are told apart by the number of visits around
that of their body. -/
def enter (p : Progress α) (frame : Frame α) : Progress α :=
  { p with level := p.level + 1, env := ⟨p.level, frame⟩ :: p.env }

/-- A call of a closure begins. -/
def begin (p : Progress α) (closure : Closure α) : Progress α :=
  { p with active := closure.id :: p.active }

/-- Goes over to the environment of a closure. -/
def narrow (p : Progress α) (closure : Closure α) : Progress α :=
  { p with
    env := closure.env
    hidden := p.env.take (p.env.length - closure.env.length) :: p.hidden }

/-- The stack stands for the scopes that have been entered, and its marks for the instances whose
calls are in progress. These are calls of the lambdas `calls`. -/
structure Describes (p : Progress α) (stack : ScopeStack α) (calls : List α) : Prop where
  visible : Represents p.level p.active p.env stack.visible
  hidden : Forall₂ (Forall₂ (Mirrors p.active)) p.hidden stack.hidden
  entered : ∀ scope ∈ p.scopes, scope.number < p.level
  distinct : (p.scopes.map Scope.number).Nodup
  calls : Forall₂ (fun id label => ∃ scope ∈ p.scopes, scope.number = id.scope ∧
    ∃ l, scope.frame.lambdas.find? id.name = some l ∧ l.label = label) p.active calls
  nodup : p.active.Nodup

namespace Describes

variable {p : Progress α} {stack : ScopeStack α} {calls : List α} {frame : Frame α}

protected theorem start : (start : Progress α).Describes .empty [] :=
  ⟨.nil, .nil, nofun, .nil, .nil, .nil⟩

protected theorem next (h : p.Describes stack calls) : p.next.Describes stack calls where
  visible := h.visible.mono (Nat.le_succ _)
  hidden := h.hidden
  entered scope hs := Nat.lt_succ_of_lt (h.entered scope hs)
  distinct := h.distinct
  calls := h.calls
  nodup := h.nodup

/-- A scope is entered. -/
protected theorem enter (h : p.Describes stack calls) (hf : IsNew frame) :
    (p.enter frame).Describes (stack.push frame) calls where
  visible := h.visible.cons hf
  hidden := h.hidden
  entered := List.forall_mem_cons.2
    ⟨Nat.lt_succ_self _, fun scope hs => Nat.lt_succ_of_lt (h.entered scope hs)⟩
  distinct := by
    refine List.nodup_cons.2 ⟨fun hmem => ?_, h.distinct⟩
    obtain ⟨scope, hs, heq⟩ := List.mem_map.1 hmem
    exact Nat.ne_of_lt (h.entered scope hs) heq
  calls := h.calls.imp fun _ _ ⟨scope, hs, hscope⟩ => ⟨scope, List.mem_cons_of_mem _ hs, hscope⟩
  nodup := h.nodup

private theorem hidden_cons_of_ne {active : List Instance} {id : Instance} {hidden : List (Env α)}
    {frames : List (List (Frame α))} (h : Forall₂ (Forall₂ (Mirrors active)) hidden frames)
    (hne : ∀ s ∈ hidden.flatten, s.number ≠ id.scope) :
    Forall₂ (Forall₂ (Mirrors (id :: active))) hidden frames := by
  induction h with
  | nil => exact .nil
  | cons hs _ ih =>
    rw [List.flatten_cons, List.forall_mem_append] at hne
    exact .cons (forall₂_cons_of_ne hs hne.1) (ih hne.2)

/-- Narrowing only moves scopes. -/
private theorem scopes_narrow {closure : Closure α} (h : closure.env <:+ p.env) :
    (p.narrow closure).scopes ~ p.scopes := by
  obtain ⟨inner, hinner⟩ := h
  have htake : p.env.take (p.env.length - closure.env.length) = inner := by
    rw [← hinner, List.length_append, Nat.add_sub_cancel, List.take_left]
  calc (p.narrow closure).scopes
      = closure.env ++ (inner ++ p.hidden.flatten) := by
        rw [scopes, narrow, List.flatten_cons, htake]
    _ ~ inner ++ (closure.env ++ p.hidden.flatten) := List.perm_append_comm_assoc ..
    _ = p.scopes := by rw [scopes, ← hinner, List.append_assoc]

/-- **A call begins.** The instance of the closure has not been in progress before. While the call
lasts, what is marked in the stack are the instances in progress, this one included. -/
theorem lambda? (h : p.Describes stack calls) {name : String} {depth : Nat} {l : Lambda α}
    (hl : stack.lambda? name = some (depth, l)) (hb : l.busy = false) :
    ∃ closure, closure? name p.env = some closure ∧ closure.lambda.label = l.label ∧
      (p.begin closure).Describes (stack.mark depth name true) (l.label :: calls) ∧
      ((p.begin closure).narrow closure).Describes
        ((stack.mark depth name true).narrow depth) (l.label :: calls) := by
  obtain ⟨closure, hclosure, -, rfl, hmark, hnarrow⟩ := h.visible.lambda? hl
  obtain ⟨rfl, hsuffix, scope, hscope, hnumber, hfind⟩ := closure?_eq_some hclosure
  have hmem : scope ∈ p.scopes := List.mem_append_left _ (hsuffix.subset hscope)
  have hbegin : (p.begin closure).Describes (stack.mark depth closure.id.name true)
      (closure.lambda.label :: calls) := by
    refine ⟨hmark, hidden_cons_of_ne h.hidden fun s hs heq => ?_, h.entered, h.distinct,
      .cons ⟨scope, hmem, hnumber, _, hfind, rfl⟩ h.calls,
      List.nodup_cons.2 ⟨of_decide_eq_false hb, h.nodup⟩⟩
    -- what is hidden has been entered apart from the scope that declares the lambda
    have hdistinct := h.distinct
    rw [scopes, List.map_append, List.nodup_append] at hdistinct
    exact hdistinct.2.2 _ (List.mem_map_of_mem (hsuffix.subset hscope)) _ (List.mem_map_of_mem hs)
      (hnumber.trans heq.symm)
  have hperm : ((p.begin closure).narrow closure).scopes ~ (p.begin closure).scopes :=
    scopes_narrow hsuffix
  refine ⟨closure, hclosure, rfl, hbegin, hnarrow, .cons ?_ hbegin.hidden,
    fun s hs => h.entered s (hperm.subset hs), (hperm.map _).nodup_iff.2 h.distinct,
    hbegin.calls.imp fun _ _ ⟨s, hs, hrest⟩ => ⟨s, hperm.symm.subset hs, hrest⟩, hbegin.nodup⟩
  have hlen := hmark.mirrors.length_eq
  have hlen' : closure.env.length = _ := hnarrow.mirrors.length_eq
  rw [ScopeStack.narrow, List.length_drop] at hlen'
  have hsame : p.env.length - closure.env.length =
      (stack.mark depth closure.id.name true).visible.length - depth := by omega
  change Forall₂ _ (p.env.take (p.env.length - closure.env.length)) _
  rw [hsame]
  exact List.forall₂_take _ hmark.mirrors

end Describes

end Progress

end Lexical

/-! ### Following the visits -/

namespace Visit

variable (setting : Setting)

/-- The visit is a call, and its name has come out as that of the closure. -/
def Calls (v : Visit α) (env : Env α) (closure : Closure α) : Prop :=
  ∃ a n args name c, v.expr = .op a .call (n :: args) ∧
    nameOf v.visitOperand a .call n setting (v.state.visited a) = (.ok name, c) ∧
    closure? name env = some closure

/-- What is in progress at a visit of a run, by the visits around it. -/
inductive Tracks (e : Expr α) : Visit α → Progress α → Prop
  | start : Tracks e ⟨e.extent.nesting, e, .start⟩ .start
  | operand {v w p} : Tracks e v p → v.Makes setting w → w.site.calls = v.site.calls →
      w.state.scopes.visible.length = v.state.scopes.visible.length → Tracks e w p.next
  | scopeBody {v w p frame outer} : Tracks e v p → v.Makes setting w →
      w.site.calls = v.site.calls → w.state.scopes.visible = frame :: outer →
      outer.length = v.state.scopes.visible.length → Tracks e w (p.enter frame)
  | argument {v w p closure} : Tracks e v p → v.Makes setting w →
      v.Calls setting p.env closure → w.site.calls = closure.lambda.label :: v.site.calls →
      w.state.scopes.hidden.length = v.state.scopes.hidden.length →
      Tracks e w (p.begin closure).next
  | lambdaBody {v w p closure frame outer} : Tracks e v p → v.Makes setting w →
      v.Calls setting p.env closure → w.site.calls = closure.lambda.label :: v.site.calls →
      w.state.scopes.hidden.length = v.state.scopes.hidden.length + 1 →
      w.state.scopes.visible = frame :: outer →
      Tracks e w (((p.begin closure).narrow closure).enter frame)

variable {setting} {e : Expr α} {v w : Visit α} {p : Progress α}

theorem Calls.eq {env : Env α} {closure closure' : Closure α} (h : v.Calls setting env closure)
    (h' : v.Calls setting env closure') : closure = closure' := by
  obtain ⟨a, n, args, name, c, he, hname, hclosure⟩ := h
  obtain ⟨_, _, _, _, _, he', hname', hclosure'⟩ := h'
  rw [he] at he'
  cases he'
  rw [hname] at hname'
  cases hname'
  exact Option.some.inj (hclosure.symm.trans hclosure')

/-- A visit is made at a call of a lambda only if the name of the lambda has come out. -/
theorem Makes.stays_or_enters (h : v.Makes setting w) (hs : v.site.Sound) :
    v.site.Stays w.site ∨ ∃ a n args name c, v.expr = .op a .call (n :: args) ∧
      nameOf v.visitOperand a .call n setting (v.state.visited a) = (.ok name, c) ∧
      v.site.Enters name w.site := by
  rcases (h.leads hs).stays_or_enters with hstays | ⟨a, n, args, -, he, -, -⟩
  · exact .inl hstays
  · rcases h.call hs he with ⟨-, hstate⟩ | ⟨name, c, hname, hleads⟩
    · refine .inl ⟨?_, .inl ?_⟩ <;> rw [site, hstate] <;> rfl
    · rcases hleads.stays_or_enters with hstays | ⟨_, _, _, _, he', hn, henters⟩
      · exact .inl hstays
      · cases he'
        cases hn name rfl
        exact .inr ⟨a, n, args, name, c, he, hname, henters⟩

/-- **One step in, no call being begun.** -/
private theorem Makes.stays (h : v.Makes setting w) (hs : v.site.Sound)
    (hp : p.Describes v.state.scopes v.site.calls) (hcalls : w.site.calls = v.site.calls) :
    (w.state.scopes.visible.length = v.state.scopes.visible.length ∧
        p.next.Describes w.state.scopes w.site.calls) ∨
      ∃ frame outer, w.state.scopes.visible = frame :: outer ∧
        outer.length = v.state.scopes.visible.length ∧
        (p.enter frame).Describes w.state.scopes w.site.calls := by
  rcases h.stays_or_enters hs with
    ⟨-, hscopes | ⟨frame, hf, hscopes⟩⟩ | ⟨_, _, _, _, _, _, _, henters⟩
  · have hscopes : w.state.scopes = v.state.scopes := hscopes
    rw [hcalls, hscopes]
    exact .inl ⟨rfl, hp.next⟩
  · have hscopes : w.state.scopes = v.state.scopes.push frame := hscopes
    rw [hcalls, hscopes]
    exact .inr ⟨frame, _, rfl, rfl, hp.enter hf⟩
  · obtain ⟨_, _, -, -, hlonger, -⟩ := henters
    exact absurd (hlonger.symm.trans hcalls) (List.cons_ne_self _ _)

/-- **One step in, a call being begun.** -/
private theorem Makes.begins (h : v.Makes setting w) (hs : v.site.Sound)
    (hp : p.Describes v.state.scopes v.site.calls) (hcalls : w.site.calls ≠ v.site.calls) :
    ∃ closure, v.Calls setting p.env closure ∧
      w.site.calls = closure.lambda.label :: v.site.calls ∧
      ((w.state.scopes.hidden.length = v.state.scopes.hidden.length ∧
          (p.begin closure).next.Describes w.state.scopes w.site.calls) ∨
        ∃ frame outer, w.state.scopes.hidden.length = v.state.scopes.hidden.length + 1 ∧
          w.state.scopes.visible = frame :: outer ∧
          (((p.begin closure).narrow closure).enter frame).Describes w.state.scopes
            w.site.calls) := by
  rcases h.stays_or_enters hs with ⟨hsame, -⟩ | ⟨a, n, args, name, c, he, hname, henters⟩
  · exact absurd hsame hcalls
  · obtain ⟨depth, l, hl, hb, hlonger, hscopes⟩ := henters
    obtain ⟨closure, hclosure, hlabel, hbegin, hnarrow⟩ := hp.lambda? hl hb
    refine ⟨closure, ⟨a, n, args, name, c, he, hname, hclosure⟩, hlabel ▸ hlonger, ?_⟩
    rw [hlonger]
    rcases hscopes with hscopes | ⟨frame, hf, hscopes⟩
    · have hscopes : w.state.scopes = v.state.scopes.mark depth name true := hscopes
      rw [hscopes]
      exact .inl ⟨rfl, hbegin.next⟩
    · have hscopes : w.state.scopes =
          ((v.state.scopes.mark depth name true).narrow depth).push frame := hscopes
      rw [hscopes]
      exact .inr ⟨frame, _, rfl, rfl, hnarrow.enter hf⟩

namespace Tracks

theorem ofRun (h : Tracks setting e v p) : OfRun setting e v := by
  induction h with
  | start => exact .start
  | operand _ h _ _ ih | scopeBody _ h _ _ _ ih | argument _ h _ _ _ ih
  | lambdaBody _ h _ _ _ _ ih =>
    exact .next ih h

/-- **The marks say what is in progress**, at every visit of a run. -/
theorem describes (h : Tracks setting e v p) : p.Describes v.state.scopes v.site.calls := by
  induction h with
  | start => exact .start
  | operand hv h hcalls hlen ih =>
    rcases h.stays hv.ofRun.sound ih hcalls with ⟨-, hw⟩ | ⟨_, _, hvisible, hlen', -⟩
    · exact hw
    · rw [hvisible, List.length_cons] at hlen
      omega
  | scopeBody hv h hcalls hvisible hlen ih =>
    rcases h.stays hv.ofRun.sound ih hcalls with ⟨hlen', -⟩ | ⟨_, _, hvisible', -, hw⟩
    · rw [hvisible, List.length_cons] at hlen'
      omega
    · cases hvisible.symm.trans hvisible'
      exact hw
  | argument hv h hclosure hcalls hlen ih =>
    obtain ⟨_, hclosure', -, ⟨-, hw⟩ | ⟨_, _, hlen', -⟩⟩ :=
      h.begins hv.ofRun.sound ih fun heq => List.cons_ne_self _ _ (hcalls.symm.trans heq)
    · exact hclosure.eq hclosure' ▸ hw
    · omega
  | lambdaBody hv h hclosure hcalls hlen hvisible ih =>
    obtain ⟨_, hclosure', -, ⟨hlen', -⟩ | ⟨_, _, -, hvisible', hw⟩⟩ :=
      h.begins hv.ofRun.sound ih fun heq => List.cons_ne_self _ _ (hcalls.symm.trans heq)
    · omega
    · cases hvisible.symm.trans hvisible'
      exact hclosure.eq hclosure' ▸ hw

end Tracks

/-- Every visit of a run can be followed from the start. -/
theorem OfRun.exists_tracks (h : OfRun setting e v) : ∃ p, Tracks setting e v p := by
  induction h with
  | start => exact ⟨_, .start⟩
  | @next v w _ h ih =>
    obtain ⟨p, hp⟩ := ih
    by_cases hcalls : w.site.calls = v.site.calls
    · rcases h.stays hp.ofRun.sound hp.describes hcalls with
        ⟨hlen, -⟩ | ⟨_, _, hvisible, hlen, -⟩
      · exact ⟨_, .operand hp h hcalls hlen⟩
      · exact ⟨_, .scopeBody hp h hcalls hvisible hlen⟩
    · obtain ⟨closure, hclosure, hcalls, ⟨hlen, -⟩ | ⟨_, _, hlen, hvisible, -⟩⟩ :=
        h.begins hp.ofRun.sound hp.describes hcalls
      · exact ⟨_, .argument hp h hclosure hcalls hlen⟩
      · exact ⟨_, .lambdaBody hp h hclosure hcalls hlen hvisible⟩

end Visit

/-- **All that is taken is given back, and a lambda is busy just while it is called.** When a visit
of a run begins and when it ends, with a value or with any error, the following holds of the state.

An evaluation of any expression from there on finds the stack in the end with the same frames, their
contents and marks included, and the same scope depth, and no counter has decreased. What is in
progress by the visits from the start of the run down to this one is described by the stack: each
lambda in its frames, visible or hidden, is busy if and only if its instance is in progress. -/
theorem Expr.released (e : Expr α) (setting : Setting) {v : Visit α}
    (hv : Visit.OfRun setting e v) {c : State α}
    (hc : c = v.state ∨ c = (v.outcome setting).2) :
    (∀ depth f, (eval depth f setting c).2.scopes = c.scopes ∧
      c.Precedes (eval depth f setting c).2 ∧
      inProgress (eval depth f setting c).2.trace = inProgress c.trace) ∧
    (∃ p, v.Tracks setting e p) ∧
      ∀ p, v.Tracks setting e p → p.Describes c.scopes (inProgress c.trace) := by
  have hs : v.site.Sound := hv.sound
  obtain ⟨hscopes, hcalls⟩ :
      c.scopes = v.state.scopes ∧ inProgress c.trace = inProgress v.state.trace := by
    rcases hc with rfl | rfl
    · exact ⟨rfl, rfl⟩
    · exact (eval_restores hs v.depth setting).imp_right And.left
  refine ⟨fun depth f => ?_, hv.exists_tracks, fun p hp => ?_⟩
  · obtain ⟨hrestored, hdone, -⟩ :=
      eval_restores (c := c) (e := f) (hs.of_scopes hscopes) depth setting
    exact ⟨hrestored, forward_eval depth f setting c, hdone⟩
  · rw [hscopes, hcalls]
    exact hp.describes

/-- A lambda is busy when its body is visited. -/
theorem Expr.released_call :
    let setting : Setting := ⟨.unlimited, ⟨⟨⟨[]⟩⟩, none, .empty⟩, .timed⟩
    let e : Expr Unit := .op () .scope [.lit () (.str "f"), .op () .lambda [.lit () .null],
      .op () .call [.lit () (.str "f")]]
    ∃ v, Visit.OfRun setting e v ∧ v.expr = .lit () .null ∧
      (∃ depth l, v.state.scopes.lambda? "f" = some (depth, l) ∧ l.busy) ∧
      (eval v.depth v.expr setting v.state).2.scopes = v.state.scopes ∧
      ∃ p, v.Tracks setting e p ∧ p.active = [⟨0, "f"⟩] ∧ p.Describes v.state.scopes [()] := by
  intro setting e
  let call : Expr Unit := .op () .call [.lit () (.str "f")]
  let frame : Frame Unit := ⟨.empty, NameMap.empty.insert "f" ⟨(), [], .lit () .null, false⟩⟩
  let c : State Unit :=
    { State.start.visited () with usage := Usage.zero.countOp.countVar }
  let d : State Unit := (c.enterScope frame).visited ()
  let u : Visit Unit := ⟨e.extent.nesting, e, .start⟩
  let v : Visit Unit := ⟨e.extent.nesting - 1, call, c.enterScope frame⟩
  let w : Visit Unit := ⟨e.extent.nesting - 2, .lit () .null,
    { d.note (.enter () ()) with scopes := (d.scopes.mark 1 "f" true).narrow 1 }.enterScope .empty⟩
  have hv : u.Makes setting v := by
    refine .of_fails rfl fun visit err _ hfails => ?_
    rw [evalNode_op (by decide)]
    exact hfails
  have hw : v.Makes setting w := by
    refine .of_fails rfl fun visit err _ hfails => ?_
    rw [evalNode_op (by decide)]
    exact hfails
  have hcalls : v.Calls setting [⟨0, frame⟩]
      ⟨⟨0, "f"⟩, ⟨(), [], .lit () .null, false⟩, [⟨0, frame⟩]⟩ :=
    ⟨_, _, _, "f", _, rfl, rfl, rfl⟩
  have htracks : w.Tracks setting e _ :=
    .lambdaBody (.scopeBody .start hv rfl rfl rfl) hw hcalls rfl rfl rfl
  obtain ⟨hreleased, -, hdescribes⟩ := released e setting htracks.ofRun (.inl rfl)
  exact ⟨w, htracks.ofRun, rfl, ⟨1, _, rfl, rfl⟩, (hreleased w.depth w.expr).1, _, htracks, rfl,
    hdescribes _ htracks⟩

end OpTree
