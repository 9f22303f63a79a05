import OpTree.Proofs.Evaluation.Hosts
import OpTree.Proofs.Session.Tables

/-!
# Overrides

An evaluation may be given a table whose calls come before those of the default table. That is the
same as extending a copy of the default table by it: an evaluation reaches its host only through the
calls that it finds by name and through the lookups, and both ways find the same calls. Nor is there
any trace of the overrides later on, or of what was done to build them: commands that change nothing
but some tables (`Command.ConfinedTo`) make no difference to commands that touch none of these
(`Command.Avoids`).

Main statement: `Session.overrides_extend`, from `Graph.run_overrides` and
`Session.SameBut.answers_eq`.
-/

namespace OpTree

/-! ### Overrides and extensions -/

/-- The calls of the overrides are found as those by which the default table is extended. -/
theorem Host.same_extend (defaults overrides : CallTable) (lookups : Lookups) :
    Same ⟨defaults, some overrides, lookups⟩ ⟨defaults.extend overrides, none, lookups⟩ where
  find? name := (defaults.find?_extend overrides name).symm
  lookups := rfl

/-- **Overrides are an extension** of the default table, for the length of one run. -/
theorem Graph.run_overrides (g : Graph) (limits : Limits) (defaults overrides : CallTable)
    (lookups : Lookups) (executor : Executor) :
    g.run ⟨limits, ⟨defaults, some overrides, lookups⟩, executor⟩ =
      g.run ⟨limits, ⟨defaults.extend overrides, none, lookups⟩, executor⟩ :=
  g.run_eq_of_same (s := ⟨limits, _, executor⟩) (Host.same_extend defaults overrides lookups)

/-! ### Commands that do not matter to others -/

/-- The command changes none but these tables. -/
def Command.ConfinedTo (hidden : Nat → Prop) : Command → Prop
  | .insert place .. | .extend place _ | .copy place _ => hidden place
  | .evaluate _ => True
  | .create _ | .append .. | .set .. => False

/-- The command reads and changes none of these tables. -/
def Command.Avoids (hidden : Nat → Prop) : Command → Prop
  | .insert place .. => ¬ hidden place
  | .extend place source | .copy place source => ¬ hidden place ∧ ¬ hidden source
  | .evaluate job => ¬ hidden job.defaults ∧ ∀ place ∈ job.overrides, ¬ hidden place
  | .create _ | .append .. | .set .. => True

namespace Session

variable {hidden : Nat → Prop} {s t : Session} {command : Command}

/-- The sessions are the same, but for these tables. -/
structure SameBut (hidden : Nat → Prop) (s t : Session) : Prop where
  tables : ∀ place, ¬ hidden place → s.tables place = t.tables place
  lookups : s.lookups = t.lookups

namespace SameBut

theorem refl (s : Session) : SameBut hidden s s := ⟨fun _ _ => rfl, rfl⟩

theorem put_right (h : SameBut hidden s t) {place : Nat} (hp : hidden place) (table : CallTable) :
    SameBut hidden s (t.put place table) where
  tables other ho := by
    have hne : other ≠ place := fun he => ho (he ▸ hp)
    rw [put_tables, if_neg hne]
    exact h.tables other ho
  lookups := h.lookups

theorem put (h : SameBut hidden s t) (place : Nat) (table : CallTable) :
    SameBut hidden (s.put place table) (t.put place table) where
  tables other ho := by
    rw [put_tables, put_tables, h.tables other ho]
  lookups := h.lookups

/-- **One confined command** leaves everything else as it is. -/
theorem perform_right (h : SameBut hidden s t) (hc : command.ConfinedTo hidden) :
    SameBut hidden s (t.perform command).2 := by
  cases command with
  | insert place name call =>
    by_cases hn : name = ""
    · subst hn
      exact h
    · rw [perform_insert t place hn]
      exact h.put_right hc _
  | extend place source | copy place source => exact h.put_right hc _
  | evaluate job => exact h
  | create | append | set => exact hc.elim

/-- **All confined commands** leave everything else as it is. -/
theorem after_right (h : SameBut hidden s t) {commands : List Command}
    (hc : ∀ command ∈ commands, command.ConfinedTo hidden) :
    SameBut hidden s (t.after commands) := by
  induction commands generalizing t with
  | nil => exact h
  | cons command rest ih =>
    obtain ⟨hcommand, hrest⟩ := List.forall_mem_cons.1 hc
    exact ih (h.perform_right hcommand) hrest

theorem run_eq (h : SameBut hidden s t) {job : Job} (hj : (Command.evaluate job).Avoids hidden) :
    s.run job = t.run job := by
  have hover : job.overrides.map s.tables = job.overrides.map t.tables :=
    Option.map_congr fun place hp => h.tables place (hj.2 place hp)
  rw [run, run, host, host, h.tables _ hj.1, h.lookups, hover]

/-- **One command** that avoids what is different tells the same and leaves nothing else
different. -/
theorem perform (h : SameBut hidden s t) (hc : command.Avoids hidden) :
    (s.perform command).1 = (t.perform command).1 ∧
      SameBut hidden (s.perform command).2 (t.perform command).2 := by
  cases command with
  | insert place name call =>
    by_cases hn : name = ""
    · subst hn
      exact ⟨rfl, h⟩
    · rw [perform_insert s place hn, perform_insert t place hn, h.tables place hc]
      exact ⟨rfl, h.put place _⟩
  | extend place source =>
    rw [Session.perform, Session.perform, h.tables place hc.1, h.tables source hc.2]
    exact ⟨rfl, h.put place _⟩
  | copy place source =>
    rw [Session.perform, Session.perform, h.tables source hc.2]
    exact ⟨rfl, h.put place _⟩
  | create | append | set =>
    rw [Session.perform, Session.perform, h.lookups]
    exact ⟨rfl, h.tables, rfl⟩
  | evaluate job => exact ⟨congrArg Answer.ran (h.run_eq hc), h⟩

/-- **All commands** that avoid what is different tell the same. -/
theorem answers_eq (h : SameBut hidden s t) {commands : List Command}
    (hc : ∀ command ∈ commands, command.Avoids hidden) :
    s.answers commands = t.answers commands := by
  induction commands generalizing s t with
  | nil => rfl
  | cons command rest ih =>
    obtain ⟨hcommand, hrest⟩ := List.forall_mem_cons.1 hc
    obtain ⟨hanswer, hsame⟩ := h.perform hcommand
    rw [answers, answers, hanswer, ih hsame hrest]

end SameBut

/-- A copy of a table that is extended by another table holds the calls of both, and no other table
is touched. -/
private theorem tables_after_copy_extend (s : Session) {clone overrides : Nat}
    (hne : clone ≠ overrides) (defaults place : Nat) :
    (s.after [.copy clone defaults, .extend clone overrides]).tables place =
      if place = clone then (s.tables defaults).extend (s.tables overrides)
      else s.tables place := by
  let copied := s.put clone (s.tables defaults)
  have hclone : copied.tables clone = s.tables defaults := if_pos rfl
  have hoverrides : copied.tables overrides = s.tables overrides := if_neg hne.symm
  change (copied.put clone ((copied.tables clone).extend (copied.tables overrides))).tables place =
    _
  rw [hclone, hoverrides, put_tables]
  by_cases hp : place = clone
  · rw [if_pos hp, if_pos hp]
  · rw [if_neg hp, if_neg hp]
    exact if_neg hp

/-- **Evaluating with overrides is evaluating with an extended copy** of the default table: both
give the same run, with its outcome, what was used up and the host calls in order. Only the copy is
changed by that. And whatever is done later with other tables, evaluations without the overrides
among it, goes as if neither the overrides nor the copy had ever been there. -/
theorem overrides_extend (s : Session) (hidden : Nat → Prop) (building later : List Command)
    (hbuilding : ∀ command ∈ building, command.ConfinedTo hidden)
    (hlater : ∀ command ∈ later, command.Avoids hidden) (graph : Graph) (limits : Limits)
    (executor : Executor) (defaults overrides clone : Nat) (hclone : hidden clone)
    (ho : clone ≠ overrides) :
    let t := s.after building
    let runs : List Command :=
      [.evaluate ⟨graph, limits, executor, defaults, some overrides⟩, .copy clone defaults,
        .extend clone overrides, .evaluate ⟨graph, limits, executor, clone, none⟩]
    (∃ run, t.answers runs = [.ran run, .done, .done, .ran run]) ∧
      (∀ place, place ≠ clone → (t.after runs).tables place = t.tables place) ∧
      (t.after runs).answers later = s.answers later := by
  intro t runs
  let u := t.after [.copy clone defaults, .extend clone overrides]
  have hu := tables_after_copy_extend t ho defaults
  -- evaluations leave no trace
  have hafter : t.after runs = u := rfl
  have hextended : u.host ⟨graph, limits, executor, clone, none⟩ =
      ⟨(t.tables defaults).extend (t.tables overrides), none, t.lookups⟩ := by
    rw [host, hu, if_pos rfl]
    rfl
  have hrun : t.run ⟨graph, limits, executor, defaults, some overrides⟩ =
      u.run ⟨graph, limits, executor, clone, none⟩ := by
    rw [run, run, hextended]
    exact graph.run_overrides limits (t.tables defaults) (t.tables overrides) t.lookups executor
  refine ⟨⟨t.run ⟨graph, limits, executor, defaults, some overrides⟩, ?_⟩, fun place hp => ?_, ?_⟩
  · change [Answer.ran _, .done, .done, .ran (u.run _)] = _
    rw [← hrun]
  · rw [hafter, hu, if_neg hp]
  · have hruns : ∀ command ∈ runs, command.ConfinedTo hidden := by
      simp [runs, Command.ConfinedTo, hclone]
    have hsame : SameBut hidden s (t.after runs) :=
      ((SameBut.refl s).after_right hbuilding).after_right hruns
    exact (hsame.answers_eq hlater).symm

/-- A constant that is overridden for one evaluation. -/
theorem overrides_extend_constant :
    let asked : Graph := .ofExpr (.op () .call [.lit () (.str "unit")])
    let s := start.after [.insert 0 "unit" (.constant (.str "metre"))]
    let t := s.after [.insert 1 "unit" (.constant (.str "foot"))]
    let runs : List Command :=
      [.evaluate ⟨asked, .unlimited, .timed, 0, some 1⟩, .copy 2 0, .extend 2 1,
        .evaluate ⟨asked, .unlimited, .timed, 2, none⟩]
    (∃ run, t.answers runs = [.ran run, .done, .done, .ran run]) ∧
      (t.run ⟨asked, .unlimited, .timed, 0, some 1⟩).outcome.toOption.map Evaluation.result =
        some (.str "foot") ∧
      (t.after runs).answers [.evaluate ⟨asked, .unlimited, .timed, 0, none⟩] =
        s.answers [.evaluate ⟨asked, .unlimited, .timed, 0, none⟩] ∧
      (s.run ⟨asked, .unlimited, .timed, 0, none⟩).outcome.toOption.map Evaluation.result =
        some (.str "metre") := by
  intro asked s t runs
  have hbuilding : ∀ command ∈ [Command.insert 1 "unit" (.constant (.str "foot"))],
      command.ConfinedTo (· ∈ [1, 2]) := by
    simp [Command.ConfinedTo]
  have hlater : ∀ command ∈ [Command.evaluate ⟨asked, .unlimited, .timed, 0, none⟩],
      command.Avoids (· ∈ [1, 2]) := by
    simp [Command.Avoids]
  obtain ⟨hruns, -, hanswers⟩ := overrides_extend s (· ∈ [1, 2]) _ _ hbuilding hlater asked
    .unlimited .timed 0 1 2 (by simp) (by decide)
  exact ⟨hruns, by decide +kernel, hanswers, by decide +kernel⟩

end Session

end OpTree
