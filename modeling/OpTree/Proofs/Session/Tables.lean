import OpTree.Proofs.Session.Basic

/-!
# What a call table holds

Whatever a program does, each of its tables is a finite map from names that are not empty to host
calls, and a name has the call that it was given last. What a table was given is kept in a record
(`Command.record`) that only ever grows at its front, unless the table is replaced as a whole: an
insertion adds one entry, and an extension adds all that the other table was given.

Main statement: `Session.tables_after`. The invariant behind it, `CallTable.Keeps`, is kept by every
command (`Session.keeps_perform`).
-/

namespace OpTree

/-- What each table was given, the latest first, one command later. -/
def Command.record (given : Nat → List (String × HostCall)) (command : Command) (place : Nat) :
    List (String × HostCall) :=
  match command with
  | .insert target name call =>
    if place = target ∧ name ≠ "" then (name, call) :: given place else given place
  | .extend target source => if place = target then given source ++ given place else given place
  | .copy target source => if place = target then given source else given place
  | .create _ | .append .. | .set .. | .evaluate _ => given place

/-- What each table was given by commands, the latest first. -/
def Command.given (commands : List Command) : Nat → List (String × HostCall) :=
  commands.foldl Command.record fun _ => []

namespace CallTable

variable {table other : CallTable} {given given' : List (String × HostCall)}

/-- The table holds what it was given last under each name, once, and no name is empty. -/
structure Keeps (table : CallTable) (given : List (String × HostCall)) : Prop where
  find?_eq : ∀ name, table.find? name = given.lookup name
  named : ∀ entry ∈ given, entry.1 ≠ ""
  isUnambiguous : table.calls.IsUnambiguous

/-- What is found in an extended table comes from the other one, if that has the name. -/
theorem find?_extend (table other : CallTable) (name : String) :
    (table.extend other).find? name = (other.find? name).or (table.find? name) :=
  table.calls.find?_union other.calls name

/-- The size and the emptiness of a table are those of its list of names. -/
theorem isEmpty_iff (table : CallTable) : table.isEmpty ↔ table.names = [] := by
  rw [isEmpty, beq_iff_eq, size, ← NameMap.length_names, List.length_eq_zero_iff, names]

namespace Keeps

theorem empty : CallTable.empty.Keeps [] :=
  ⟨fun _ => rfl, fun _ h => absurd h List.not_mem_nil, NameMap.isUnambiguous_empty⟩

theorem insert (h : table.Keeps given) {name : String} (hn : name ≠ "") (call : HostCall) :
    (CallTable.mk (table.calls.insert name call)).Keeps ((name, call) :: given) where
  find?_eq key := by
    rw [find?, NameMap.find?_insert, List.lookup_cons, ← h.find?_eq key]
    by_cases hk : key = name
    · simp [hk]
    · simp [hk, beq_eq_false_iff_ne.2 hk, find?]
  named := List.forall_mem_cons.2 ⟨hn, h.named⟩
  isUnambiguous := h.isUnambiguous.insert name call

theorem extend (h : table.Keeps given) (h' : other.Keeps given') :
    (table.extend other).Keeps (given' ++ given) where
  find?_eq name := by
    rw [find?_extend, List.lookup_append, h.find?_eq, h'.find?_eq]
  named entry he := (List.mem_append.1 he).elim (h'.named entry) (h.named entry)
  isUnambiguous := h.isUnambiguous.union other.calls

/-- No table contains the empty name. -/
theorem not_contains_empty (h : table.Keeps given) : table.contains "" = false := by
  change (table.find? "").isSome = false
  rw [h.find?_eq, Option.isSome_eq_false_iff, Option.isNone_iff_eq_none, List.lookup_eq_none_iff]
  exact fun entry he => bne_iff_ne.2 (h.named entry he).symm

end Keeps

end CallTable

namespace Session

variable {s : Session} {given : Nat → List (String × HostCall)}

/-- Every table keeps what it was given. -/
def Keeps (s : Session) (given : Nat → List (String × HostCall)) : Prop :=
  ∀ place, (s.tables place).Keeps (given place)

theorem keeps_put {place : Nat} {table : CallTable} (htable : table.Keeps (given place))
    (hothers : ∀ other, other ≠ place → (s.tables other).Keeps (given other)) :
    (s.put place table).Keeps given := by
  intro other
  rw [put_tables]
  split
  · rename_i ho
    exact ho ▸ htable
  · rename_i ho
    exact hothers other ho

/-- **One command.** Tables keep what they were given, with what the command gives them. -/
theorem keeps_perform (h : s.Keeps given) (command : Command) :
    (s.perform command).2.Keeps (command.record given) := by
  cases command with
  | insert place name call =>
    by_cases hn : name = ""
    · subst hn
      intro other
      rw [perform_insert_empty, Command.record, if_neg (by simp)]
      exact h other
    · rw [perform_insert s place hn]
      refine keeps_put ?_ fun other ho => ?_
      · rw [Command.record, if_pos ⟨rfl, hn⟩]
        exact (h place).insert hn call
      · rw [Command.record, if_neg fun hp => ho hp.1]
        exact h other
  | extend place source =>
    refine keeps_put ?_ fun other ho => ?_
    · rw [Command.record, if_pos rfl]
      exact (h place).extend (h source)
    · rw [Command.record, if_neg ho]
      exact h other
  | copy place source =>
    refine keeps_put ?_ fun other ho => ?_
    · rw [Command.record, if_pos rfl]
      exact h source
    · rw [Command.record, if_neg ho]
      exact h other
  | create | append | set | evaluate => exact h

/-- **All commands.** Tables keep what they were given. -/
theorem keeps_after (h : s.Keeps given) (commands : List Command) :
    (s.after commands).Keeps (commands.foldl Command.record given) := by
  induction commands generalizing s given with
  | nil => exact h
  | cons command rest ih => exact ih (keeps_perform h command)

/-- **Every call table is a finite map**, whatever was done to it and to others before. No call gets
the empty name, and a table is unchanged where that is refused. Any other name finds the call that
was given to it last. An extension takes the calls of the other table in place of those with the
same name, and touches nothing else. The names ascend, and they are those that the table contains,
as many as it says. -/
theorem tables_after (commands : List Command) (place : Nat) :
    let s := start.after commands
    let table := s.tables place
    (∀ call, table.insert "" call = .error (.invalidCallName "") ∧
      s.perform (.insert place "" call) = (.refused (.invalidCallName ""), s)) ∧
    (∀ name call, name ≠ "" → ∃ new, table.insert name call = .ok new ∧
      s.perform (.insert place name call) = (.done, s.put place new) ∧
      ∀ key, new.find? key = if key = name then some call else table.find? key) ∧
    (∀ source, ∃ new, s.perform (.extend place source) = (.done, s.put place new) ∧
      ∀ key, new.find? key = ((s.tables source).find? key).or (table.find? key)) ∧
    (∀ name, table.find? name = (Command.given commands place).lookup name) ∧
    table.contains "" = false ∧
    table.names.Pairwise (· < ·) ∧ (∀ name, name ∈ table.names ↔ table.contains name) ∧
    table.size = table.names.length ∧ (table.isEmpty ↔ table.names = []) := by
  intro s table
  have hkeeps : table.Keeps (Command.given commands place) :=
    keeps_after (fun _ => .empty) commands place
  refine ⟨fun call => ⟨rfl, perform_insert_empty s place call⟩, fun name call hn => ?_,
    fun source => ⟨_, rfl, CallTable.find?_extend table (s.tables source)⟩, hkeeps.find?_eq,
    hkeeps.not_contains_empty, hkeeps.isUnambiguous.pairwise_names,
    fun _ => NameMap.mem_names, (NameMap.length_names _).symm, CallTable.isEmpty_iff table⟩
  exact ⟨_, if_neg hn, perform_insert s place hn call,
    fun key => NameMap.find?_insert table.calls name key call⟩

/-- A name that is replaced by an extension, and another one that is given afterwards. -/
theorem tables_after_replaced :
    let commands : List Command :=
      [.insert 0 "unit" (.constant (.str "metre")), .insert 1 "unit" (.constant (.str "foot")),
        .insert 0 "" (.constant .null), .extend 0 1]
    let s := start.after commands
    (s.tables 0).find? "unit" = some (.constant (.str "foot")) ∧
      (s.tables 0).contains "" = false ∧
      ∃ new, (s.tables 0).insert "size" (.constant .null) = .ok new ∧
        s.perform (.insert 0 "size" (.constant .null)) = (.done, s.put 0 new) ∧
        new.find? "size" = some (.constant .null) ∧
        new.find? "unit" = some (.constant (.str "foot")) := by
  intro commands s
  obtain ⟨-, hinsert, -, hfind, hempty, -⟩ := tables_after commands 0
  have hunit : (s.tables 0).find? "unit" = some (.constant (.str "foot")) := hfind "unit"
  obtain ⟨new, hok, hdone, hnew⟩ := hinsert "size" (.constant .null) (by decide)
  exact ⟨hunit, hempty, new, hok, hdone, hnew "size", (hnew "unit").trans hunit⟩

end Session

end OpTree
