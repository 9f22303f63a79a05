import OpTree.Proofs.Evaluation.Scopes

/-!
# Comparing calls

A call of a lambda runs in two places: its arguments where the call stands, with the lambda marked
as busy, and its body where the lambda is declared. `related_callLambda` asks for agreement in both
places and finds every stack as it was before. What is noted when a call begins and ends may change
the relation between the states for as long as the call lasts.

A host call is reached only if no lambda of the name is visible (`callHost`); `HostFault` lists what
can go wrong with it.
-/

namespace OpTree

namespace Lambda

variable {α : Type} {node : α} {ps es : List (Expr α)} {seen names : List String}
  {lambda : Lambda α} {err : EvalError α}

private theorem paramNames_eq_ok : paramNames node seen ps = .ok names →
    ps.map Expr.name? = names.map some ∧ names.Nodup ∧ ∀ n ∈ names, n ∉ seen := by
  induction ps generalizing seen names with
  | nil =>
    rintro ⟨⟩
    simp
  | cons p ps ih =>
    intro h
    rw [paramNames] at h
    cases hp : p.name? with
    | none => simp [hp] at h
    | some name =>
      simp only [hp] at h
      split at h
      · cases h
      · rename_i hn
        cases hr : paramNames node (name :: seen) ps with
        | error e => simp [hr, bind, Except.bind] at h
        | ok rest =>
          simp only [hr, bind, Except.bind, pure, Except.pure, Except.ok.injEq] at h
          obtain ⟨hm, hd, hs⟩ := ih hr
          subst h
          refine ⟨by simp [hp, hm], ?_, ?_⟩
          · exact List.nodup_cons.2 ⟨fun hmem => hs name hmem List.mem_cons_self, hd⟩
          · rintro n (_ | ⟨_, hmem⟩)
            · exact hn
            · exact fun hseen => hs n hmem (List.mem_cons_of_mem _ hseen)

/-- A declared lambda: its last operand is the body, the others spell different names. -/
theorem declare_eq_ok (h : declare node es = .ok lambda) :
    lambda.label = node ∧ lambda.busy = false ∧ lambda.params.Nodup ∧
      ∃ ps, es = ps ++ [lambda.body] ∧ ps.map Expr.name? = lambda.params.map some := by
  rw [declare] at h
  cases hb : es.getLast? with
  | none => simp [hb] at h
  | some body =>
    simp only [hb, bind, Except.bind] at h
    split at h
    · cases h
    · rename_i names hn
      obtain ⟨hm, hd, -⟩ := paramNames_eq_ok hn
      cases h
      exact ⟨rfl, rfl, hd, es.dropLast, (List.dropLast_append_getLast? body hb).symm, hm⟩

private theorem paramNames_of_names (hps : ps.map Expr.name? = names.map some)
    (hnodup : names.Nodup) (hseen : ∀ n ∈ names, n ∉ seen) :
    paramNames node seen ps = .ok names := by
  induction ps generalizing seen names with
  | nil =>
    obtain rfl : names = [] := by simpa using hps.symm
    rfl
  | cons p ps ih =>
    cases names with
    | nil => cases hps
    | cons name names =>
      obtain ⟨hp, hps⟩ := List.cons.inj hps
      obtain ⟨hn, hnodup⟩ := List.nodup_cons.1 hnodup
      have hrest : paramNames node (name :: seen) ps = .ok names := by
        refine ih hps hnodup fun n hmem hmem' => ?_
        rcases List.mem_cons.1 hmem' with rfl | h
        · exact hn hmem
        · exact hseen n (List.mem_cons_of_mem _ hmem) h
      rw [paramNames, hp]
      dsimp only
      rw [if_neg (hseen name List.mem_cons_self), hrest]
      rfl

/-- A lambda is declared if its parameters spell different names. -/
theorem declare_concat {body : Expr α} (hps : ps.map Expr.name? = names.map some)
    (hnodup : names.Nodup) : declare node (ps ++ [body]) = .ok ⟨node, names, body, false⟩ := by
  rw [declare, List.getLast?_concat, List.dropLast_concat]
  dsimp only
  rw [paramNames_of_names hps hnodup (by simp)]
  rfl

/-- What is wrong with the operands of a lambda node that declares nothing. -/
theorem declare_eq_error (h : declare node es = .error err) :
    err = .invalidArity node .lambda Operator.lambda.arity 0 ∧ es = [] ∨
      err = .invalidName node .lambda ∨ ∃ p, err = .duplicateName node p .constant := by
  rw [declare] at h
  cases hb : es.getLast? with
  | none =>
    simp only [hb, Except.error.injEq] at h
    exact .inl ⟨h.symm, List.getLast?_eq_none_iff.1 hb⟩
  | some body =>
    refine .inr ?_
    simp only [hb] at h
    generalize es.dropLast = ps at h
    -- the names that have been seen grow along the parameters
    have key : ∀ seen, paramNames node seen ps = .error err →
        err = .invalidName node .lambda ∨ ∃ p, err = .duplicateName node p .constant := by
      clear h hb
      induction ps with
      | nil => simp [paramNames]
      | cons p ps ih =>
        intro seen h
        rw [paramNames] at h
        split at h
        · exact .inl (Except.error.inj h).symm
        · split at h
          · exact .inr ⟨_, (Except.error.inj h).symm⟩
          · rename_i name _ _
            cases hr : paramNames node (name :: seen) ps with
            | ok rest => simp [hr, bind, Except.bind, pure, Except.pure] at h
            | error e =>
              simp only [hr, bind, Except.bind, Except.error.injEq] at h
              exact ih _ (h ▸ hr)
    cases hr : paramNames node [] ps with
    | ok rest => simp [hr, bind, Except.bind, pure, Except.pure] at h
    | error e =>
      simp only [hr, bind, Except.bind, Except.error.injEq] at h
      exact key [] (h ▸ hr)

end Lambda

/-- What can go wrong at a call of a host call, its arguments having values. -/
inductive HostFault (setting : Setting) (name : String) : EvalError Unit → Prop
  | undefinedCall : setting.host.find? name = none →
      HostFault setting name (.undefinedCall () name)
  | callFailed (cause : CallError) : HostFault setting name (.callFailed () name cause)
  | invalidCallReturn {call : HostCall} {history : List Invocation} {args : List Scalar}
      {delay : Nat} {value : Scalar} : setting.host.find? name = some call →
      call.reply setting.host.lookups history args = .answer delay (.ok value) →
      value.isValid = false → HostFault setting name (.invalidCallReturn () name)
  | callTimeout {budget : Nat} : setting.limits.bound .callTime = some budget →
      HostFault setting name (.callTimeout () name budget)
  | timeout {budget : Nat} : setting.limits.bound .evaluationTime = some budget →
      HostFault setting name (.timeout budget)
  | unfinished {call : HostCall} {history : List Invocation} {args : List Scalar} :
      setting.host.find? name = some call →
      call.reply setting.host.lookups history args = .never → HostFault setting name .unfinished

namespace Comparison

open Eval List

variable {α β : Type} {cmp : Comparison α β} {visit : Expr α → EvalM α Scalar}
  {visit' : Expr β → EvalM β Scalar} {node : α} {node' : β} {P : State α → State β → Prop}
  {K K' : State α → State β → Prop} {σ : ScopeStack α} {τ : ScopeStack β} {e : Expr α} {f : Expr β}
  {args : List (Expr α)} {args' : List (Expr β)} {name : String} {depth depth' : Nat}
  {l : Lambda α} {m : Lambda β}

/-! ### Arguments -/

theorem related_arguments (hv : Forall₂ (cmp.Visits visit visit' P) args args') :
    cmp.Related P P (fun a b => a = b ∧ ∀ v ∈ a, cmp.value v) (arguments visit args)
      (arguments visit' args') := by
  induction hv with
  | nil => exact .pure ⟨rfl, by simp⟩
  | cons h _ ih =>
    refine h.bind ?_
    rintro v _ ⟨rfl, hval⟩
    refine ih.bind ?_
    rintro vs _ ⟨rfl, hvals⟩
    exact .pure ⟨rfl, List.forall_mem_cons.2 ⟨hval, hvals⟩⟩

/-- The frames of the parameters on both sides: the same constants, these names and no others. -/
structure ParamFrames (cmp : Comparison α β) (names : List String) (frame : Frame α)
    (frame' : Frame β) : Prop where
  constants : frame.constants = frame'.constants
  lambdas : frame.lambdas = .empty
  lambdas' : frame'.lambdas = .empty
  names : ∀ p, (frame.constants.find? p).isSome ↔ p ∈ names
  value : ∀ p v, frame.constants.find? p = some v → cmp.value v

/-- With labels of one type on both sides the frames are the same, since they hold no lambdas. -/
theorem ParamFrames.eq {cmp : Comparison α α} {names : List String} {frame frame' : Frame α}
    (h : cmp.ParamFrames names frame frame') : frame = frame' := by
  obtain ⟨_, _⟩ := frame
  obtain ⟨_, _⟩ := frame'
  exact congrArg₂ Frame.mk h.constants (h.lambdas.trans h.lambdas'.symm)

theorem ParamFrames.empty : cmp.ParamFrames [] .empty .empty :=
  ⟨rfl, rfl, rfl, by simp [Frame.empty], by simp [Frame.empty]⟩

/-- One more parameter that the frames do not hold is declared on both sides. -/
theorem ParamFrames.bind {done : List String} {frame : Frame α} {frame' : Frame β}
    {p : String} {v : Scalar} (h : cmp.ParamFrames done frame frame') (hp : p ∉ done)
    (hv : cmp.value v) : ∃ new new', frame.bindConstant? p v = some new ∧
      frame'.bindConstant? p v = some new' ∧ cmp.ParamFrames (done ++ [p]) new new' := by
  have hn : frame.constants.find? p = none := by
    rw [← Option.not_isSome_iff_eq_none, h.names]
    exact hp
  refine ⟨_, _, Frame.bindConstant?_eq_some.2 ⟨hn, rfl⟩,
    Frame.bindConstant?_eq_some.2 ⟨h.constants ▸ hn, rfl⟩, ?_⟩
  refine ⟨by rw [h.constants], h.lambdas, h.lambdas', fun q => ?_, fun q w hw => ?_⟩
  · rw [NameMap.find?_insert]
    split
    · rename_i hq
      simp [hq]
    · rename_i hq
      simp [h.names, hq]
  · rw [NameMap.find?_insert] at hw
    split at hw
    · exact Option.some.inj hw ▸ hv
    · exact h.value q w hw

theorem related_bindParams (hm : cmp.Metered K)
    (hv : Forall₂ (cmp.Visits visit visit' (At K σ τ)) args args') :
    ∀ (params done : List String) (frame : Frame α) (frame' : Frame β),
      params.length = args.length → (done ++ params).Nodup → cmp.ParamFrames done frame frame' →
      cmp.Related (At K σ τ) (At K σ τ) (cmp.ParamFrames (done ++ params))
        (bindParams visit node frame params args)
        (bindParams visit' node' frame' params args') := by
  induction hv with
  | nil =>
    intro params done frame frame' hlen _ hf
    obtain rfl := List.length_eq_zero_iff.1 hlen
    rw [List.append_nil]
    exact .pure hf
  | cons h _ ih =>
    intro params done frame frame' hlen hnd hf
    cases params with
    | nil => cases hlen
    | cons p params =>
      refine Related.bind h ?_
      rintro v _ ⟨rfl, hval⟩
      refine (hm.countVar σ τ).bind fun _ _ _ => ?_
      have hp : p ∉ done := fun hmem =>
        (List.nodup_append.1 hnd).2.2 p hmem p List.mem_cons_self rfl
      obtain ⟨new, new', hnew, hnew', hf'⟩ := hf.bind hp hval
      rw [hnew, hnew']
      rw [List.append_cons] at hnd ⊢
      exact ih params _ new new' (Nat.succ.inj hlen) hnd hf'

/-! ### Lambdas -/

/-- **Calls of lambdas agree** if the arguments do where the call stands and the bodies where the
lambdas are declared. -/
theorem related_callLambda (hm : cmp.Metered K') (hσ : σ.lambda? name = some (depth, l))
    (hτ : τ.lambda? name = some (depth', m)) (hparams : l.params = m.params)
    (hnodup : l.params.Nodup) (hbusy : l.busy = m.busy) (hlen : args.length = args'.length)
    (harity : l.params.length ≠ args.length →
      cmp.Accepts (.lambdaArity node name l.params.length args.length)
        (.lambdaArity node' name l.params.length args.length))
    (hrec : l.busy → cmp.Accepts (.recursion node name) (.recursion node' name))
    (henter : l.busy = false → ∀ {c d}, K c d →
      K' (c.note (.enter node l.label)) (d.note (.enter node' m.label)))
    (hleave : ∀ {c d}, K' c d → K (c.note .leave) (d.note .leave))
    (hargs : l.params.length = args.length → l.busy = false → Forall₂
      (cmp.Visits visit visit' (At K' (σ.mark depth name true) (τ.mark depth' name true))) args
      args')
    (hbody : ∀ frame frame', l.params.length = args.length → l.busy = false →
      cmp.ParamFrames l.params frame frame' → cmp.Visits visit visit'
        (At K' (((σ.mark depth name true).narrow depth).push frame)
          (((τ.mark depth' name true).narrow depth').push frame')) l.body m.body) :
    cmp.Related (At K σ τ) (At K σ τ) cmp.Same (callLambda visit node name depth l args)
      (callLambda visit' node' name depth' m args') := by
  rw [callLambda, callLambda, ← hparams, ← hlen, ← hbusy]
  by_cases hn : l.params.length = args.length
  case neg =>
    rw [if_pos hn, if_pos hn]
    exact .fail (harity hn)
  rw [if_neg (not_not.2 hn), if_neg (not_not.2 hn)]
  cases hb : l.busy with
  | true => exact .fail (hrec hb)
  | false =>
    -- the call is noted, the lambda is marked, and the mark is taken back in the end
    refine .modify_bind (R := At K' σ τ) ?_ (.modify_bind
      (R := At K' (σ.mark depth name true) (τ.mark depth' name true)) ?_ (.andFinally
      (Q := At K' (σ.mark depth name true) (τ.mark depth' name true)) ?_ ?_))
    · rintro c d ⟨hc, hd, hk⟩
      exact ⟨hc, hd, henter hb hk⟩
    · rintro c d ⟨hc, hd, hk⟩
      exact ⟨congrArg (·.mark depth name true) hc, congrArg (·.mark depth' name true) hd, hk⟩
    · refine (related_bindParams hm (hargs hn hb) l.params [] .empty .empty hn hnodup
        .empty).bind fun frame frame' hf => ?_
      refine .modify_bind (R := At K' ((σ.mark depth name true).narrow depth)
        ((τ.mark depth' name true).narrow depth')) ?_ (.andFinally
        (related_inScope hm (hbody frame frame' hn hb hf)) ?_)
      · rintro c d ⟨hc, hd, hk⟩
        exact ⟨congrArg (·.narrow depth) hc, congrArg (·.narrow depth') hd, hk⟩
      · rintro c d ⟨hc, hd, hk⟩
        exact ⟨by rw [hc, ScopeStack.widen_narrow], by rw [hd, ScopeStack.widen_narrow], hk⟩
    · rintro c d ⟨hc, hd, hk⟩
      refine ⟨?_, ?_, hleave hk⟩
      · change c.scopes.mark depth name false = σ
        rw [hc, ScopeStack.mark_mark hσ hb]
      · change d.scopes.mark depth' name false = τ
        rw [hd, ScopeStack.mark_mark hτ (hbusy ▸ hb)]

/-- A call of a lambda that is busy on the left is waived, but for the number of its arguments. -/
theorem related_callLambda_of_busy (hbusy : l.busy) (hparams : l.params = m.params)
    (hlen : args.length = args'.length)
    (harity : l.params.length ≠ args.length →
      cmp.Accepts (.lambdaArity node name l.params.length args.length)
        (.lambdaArity node' name l.params.length args.length))
    (hw : cmp.waives (.recursion node name)) :
    cmp.Related P P cmp.Same (callLambda visit node name depth l args)
      (callLambda visit' node' name depth' m args') := by
  rw [callLambda, callLambda, ← hparams, ← hlen]
  by_cases hn : l.params.length = args.length
  case neg =>
    rw [if_pos hn, if_pos hn]
    exact .fail (harity hn)
  rw [if_neg (not_not.2 hn), if_pos hbusy]
  exact fun _ _ _ => .waived hw

/-! ### Host calls -/

/-- What a call does if no lambda of its name is visible. -/
def callHost (visit : Expr α → EvalM α Scalar) (node : α) (name : String) (args : List (Expr α)) :
    EvalM α Scalar := do
  EvalM.note (.external node name)
  match (← EvalM.setting).host.find? name with
  | some call => invoke node name call (← arguments visit args)
  | none => EvalM.fail (.undefinedCall node name)

/-- What `K` and the settings have to admit so that host calls agree. -/
structure Hosted (cmp : Comparison α β) (K : State α → State β → Prop) : Prop where
  host : cmp.left.host = cmp.right.host
  executor : cmp.left.executor = cmp.right.executor
  evaluationTime : cmp.left.limits.bound .evaluationTime = cmp.right.limits.bound .evaluationTime
  callTime : cmp.left.limits.bound .callTime = cmp.right.limits.bound .callTime
  history : ∀ {c d}, K c d → c.history = d.history
  clock : ∀ {c d}, K c d → c.clock = d.clock
  pass : ∀ {c d} (n : Nat), K c d →
    K { c with clock := c.clock + n } { d with clock := d.clock + n }

/-- A fault of the host call on the left is answered by the same fault on the right. -/
def HostFaults (cmp : Comparison α β) (node : α) (node' : β) (name : String) : Prop :=
  ∀ err, HostFault cmp.left name err →
    cmp.Accepts (err.map fun _ => node) (err.map fun _ => node')

private theorem related_pass (hh : cmp.Hosted K) (n : Nat) :
    cmp.Related (At K σ τ) (At K σ τ) (fun _ _ => True) (pass n) (pass n) := by
  rintro c d ⟨hc, hd, hk⟩
  exact .ok trivial ⟨hc, hd, hh.pass n hk⟩

/-- The allowances of both sides are the same but for the node that is blamed. -/
private theorem allowance?_cases (hh : cmp.Hosted K) (node : α) (node' : β) (name : String)
    (clock : Nat) :
    (allowance? cmp.left.limits clock node name = none ∧
      allowance? cmp.right.limits clock node' name = none) ∨
    ∃ ms, ∃ err : EvalError Unit, HostFault cmp.left name err ∧
      allowance? cmp.left.limits clock node name = some ⟨ms, err.map fun _ => node⟩ ∧
      allowance? cmp.right.limits clock node' name = some ⟨ms, err.map fun _ => node'⟩ := by
  simp only [allowance?, ← hh.evaluationTime, ← hh.callTime]
  cases hc : cmp.left.limits.bound .callTime with
  | none =>
    cases ht : cmp.left.limits.bound .evaluationTime with
    | none => exact .inl ⟨rfl, rfl⟩
    | some total => exact .inr ⟨_, .timeout total, .timeout ht, rfl, rfl⟩
  | some own =>
    cases ht : cmp.left.limits.bound .evaluationTime with
    | none => exact .inr ⟨_, .callTimeout () name own, .callTimeout hc, rfl, rfl⟩
    | some total =>
      right
      dsimp only
      split
      · exact ⟨_, .timeout total, .timeout ht, rfl, rfl⟩
      · exact ⟨_, .callTimeout () name own, .callTimeout hc, rfl, rfl⟩

private theorem related_await (hh : cmp.Hosted K) (hf : cmp.HostFaults node node' name)
    {call : HostCall} {history : List Invocation} {values : List Scalar}
    (hcall : cmp.left.host.find? name = some call) :
    cmp.Related (At K σ τ) (At K σ τ)
      (fun v w => v = w ∧
        ∃ delay, call.reply cmp.left.host.lookups history values = .answer delay (.ok v))
      (await node name (call.reply cmp.left.host.lookups history values))
      (await node' name (call.reply cmp.left.host.lookups history values)) := by
  generalize hr : call.reply cmp.left.host.lookups history values = reply
  refine .setting_bind (.state_bind ?_)
  rintro c d ⟨hc, hd, hk⟩
  have hclock : c.clock = d.clock := (hh.clock hk : c.bare.clock = d.bare.clock)
  rw [← hclock, ← hh.executor]
  cases reply with
  | answer delay result =>
    refine (related_pass hh delay).bind (fun _ _ _ => ?_) c d ⟨hc, hd, hk⟩
    rcases allowance?_cases hh node node' name c.clock with
      ⟨h, h'⟩ | ⟨ms, err, he, h, h'⟩ <;> rw [h, h']
    · cases result with
      | error cause => exact .fail (hf _ (.callFailed cause))
      | ok v => cases cmp.left.executor <;> exact .pure ⟨rfl, delay, rfl⟩
    · cases result with
      | error cause => exact .fail (hf _ (.callFailed cause))
      | ok v =>
        cases cmp.left.executor with
        | timed => exact .pure ⟨rfl, delay, rfl⟩
        | untimed =>
          dsimp only
          split
          · exact .pure ⟨rfl, delay, rfl⟩
          · exact .fail (hf _ he)
  | never =>
    have hun := hf _ (.unfinished hcall hr)
    rcases allowance?_cases hh node node' name c.clock with
      ⟨h, h'⟩ | ⟨ms, err, he, h, h'⟩ <;> rw [h, h']
    · cases cmp.left.executor <;> exact Related.fail hun c d ⟨hc, hd, hk⟩
    · cases cmp.left.executor with
      | timed =>
        exact (related_pass hh ms).bind (fun _ _ _ => .fail (hf _ he)) c d ⟨hc, hd, hk⟩
      | untimed => exact Related.fail hun c d ⟨hc, hd, hk⟩

theorem related_invoke (hm : cmp.Metered K) (hh : cmp.Hosted K)
    (hf : cmp.HostFaults node node' name) {call : HostCall} {values : List Scalar}
    (hcall : cmp.left.host.find? name = some call)
    (hinvoke : ∀ {c d}, K c d → K { c with history := ⟨name, values⟩ :: c.history }
      { d with history := ⟨name, values⟩ :: d.history }) :
    cmp.Related (At K σ τ) (At K σ τ) cmp.Same (invoke node name call values)
      (invoke node' name call values) := by
  refine .state_bind ?_
  rintro c d ⟨hc, hd, hk⟩
  have hhist : c.history = d.history := (hh.history hk : c.bare.history = d.bare.history)
  rw [← hhist]
  -- the reply depends on the history before the call is added to it
  refine Related.modify_bind (P := fun c' d' => At K σ τ c' d' ∧ c'.history = c.history ∧
    d'.history = c.history) (R := At K σ τ) ?_ (.setting_bind ?_) c d
    ⟨⟨hc, hd, hk⟩, rfl, hhist.symm⟩
  · rintro c' d' ⟨⟨hc', hd', hk'⟩, he, he'⟩
    refine ⟨hc', hd', ?_⟩
    have hinv := hinvoke hk'
    rwa [show c'.bare.history = c.history from he, show d'.bare.history = c.history from he']
      at hinv
  · rw [← hh.host]
    refine (related_await hh hf hcall).bind ?_
    rintro v _ ⟨rfl, delay, hreply⟩
    split
    · rename_i hv
      exact (hm.countString σ τ v).bind fun _ _ _ => .pure (same_of_isValid hv)
    · rename_i hv
      exact .fail (hf _ (.invalidCallReturn hcall hreply (Bool.eq_false_iff.2 hv)))

/-- **Host calls agree** if their arguments do and nothing that is noted or kept of them matters. -/
theorem related_callHost (hm : cmp.Metered K) (hh : cmp.Hosted K)
    (hf : cmp.HostFaults node node' name)
    (hnote : ∀ {c d}, K c d →
      K (c.note (.external node name)) (d.note (.external node' name)))
    (hinvoke : ∀ {c d} (values : List Scalar), (∀ v ∈ values, cmp.value v) →
      (cmp.left.host.find? name).isSome → K c d →
      K { c with history := ⟨name, values⟩ :: c.history }
        { d with history := ⟨name, values⟩ :: d.history })
    (hargs : (cmp.left.host.find? name).isSome →
      Forall₂ (cmp.Visits visit visit' (At K σ τ)) args args') :
    cmp.Related (At K σ τ) (At K σ τ) cmp.Same (callHost visit node name args)
      (callHost visit' node' name args') := by
  refine .modify_bind (R := At K σ τ) ?_ (.setting_bind ?_)
  · rintro c d ⟨hc, hd, hk⟩
    exact ⟨hc, hd, hnote hk⟩
  · rw [← hh.host]
    cases hcall : cmp.left.host.find? name with
    | none => exact .fail (hf _ (.undefinedCall hcall))
    | some call =>
      have hsome : (cmp.left.host.find? name).isSome := Option.isSome_of_eq_some hcall
      refine (related_arguments (hargs hsome)).bind ?_
      rintro values _ ⟨rfl, hvals⟩
      exact related_invoke hm hh hf hcall (hinvoke values hvals hsome)

/-! ### Calls -/

/-- A host call that does not exist is waived, whatever happens on the right. -/
private theorem waived_callHost (hfind : cmp.left.host.find? name = none)
    (hw : cmp.waives (.undefinedCall node name)) {Q : State α → State β → Prop}
    {V : Scalar → Scalar → Prop} {y : EvalM β Scalar} :
    cmp.Related P Q V (callHost visit node name args) y := by
  intro c d _
  have hc : callHost visit node name args cmp.left c =
      (.error (.undefinedCall node name), c.note (.external node name)) := by
    change (match cmp.left.host.find? name with
      | some call => (do invoke node name call (← arguments visit args))
      | none => EvalM.fail (.undefinedCall node name) : EvalM α Scalar) cmp.left _ = _
    rw [hfind]
    rfl
  rw [hc]
  exact .waived hw

/-- A call agrees if on both sides either lambdas are called that agree, or host calls are, unless
the host call is waived. -/
theorem related_evalCall (hname : cmp.Names visit visit' node node' .call (At K σ τ) e f)
    (hsome : ∀ name depth l, e.MayName name → σ.lambda? name = some (depth, l) →
      ∃ depth' m, τ.lambda? name = some (depth', m) ∧
        cmp.Related (At K σ τ) (At K σ τ) cmp.Same (callLambda visit node name depth l args)
          (callLambda visit' node' name depth' m args'))
    (hnone : ∀ name, e.MayName name → σ.lambda? name = none →
      cmp.left.host.find? name = none ∧ cmp.waives (.undefinedCall node name) ∨
        τ.lambda? name = none ∧ cmp.Related (At K σ τ) (At K σ τ) cmp.Same
          (callHost visit node name args) (callHost visit' node' name args')) :
    cmp.Related (At K σ τ) (At K σ τ) cmp.Same (evalCall visit node e args)
      (evalCall visit' node' f args') := by
  refine hname.bind ?_
  rintro name _ ⟨rfl, hn⟩
  refine .state_bind ?_
  rintro c d ⟨hc, hd, hk⟩
  rw [hc, hd]
  cases hl : σ.lambda? name with
  | some found =>
    obtain ⟨depth, l⟩ := found
    obtain ⟨depth', m, hτ, hcall⟩ := hsome name depth l hn hl
    rw [hτ]
    exact hcall c d ⟨hc, hd, hk⟩
  | none =>
    rcases hnone name hn hl with ⟨hfind, hw⟩ | ⟨hτ, hcall⟩
    · exact waived_callHost (P := At K σ τ) hfind hw c d ⟨hc, hd, hk⟩
    · rw [hτ]
      exact hcall c d ⟨hc, hd, hk⟩

end Comparison

end OpTree
