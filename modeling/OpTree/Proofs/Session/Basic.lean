import OpTree.Eval.Basic

/-!
# Sessions

A program keeps call tables and lookups, changes them from time to time, and evaluates graphs in
between. A `Session` is what it keeps: its tables, each at a place, and all lookups. A `Command` is
one thing that it does, and `Session.perform` says what it is told and what it keeps afterwards.

A table holds handles of lookups and not their entries. So `Command.copy` copies a table as it
stands, but a lookup in it stays the one that is reached through every other copy of its handle.
-/

namespace OpTree

/-- What a program keeps: call tables, each at a place, and lookups. -/
structure Session where
  tables : Nat → CallTable
  lookups : Lookups

/-- A graph to evaluate, and the places of the tables that name its host calls. -/
structure Job where
  graph : Graph
  limits : Limits
  executor : Executor
  defaults : Nat
  overrides : Option Nat

/-- One thing that a program does. -/
inductive Command where
  /-- Gives a call a name in a table. -/
  | insert (place : Nat) (name : String) (call : HostCall)
  /-- Adds every entry of a table to another one. -/
  | extend (place source : Nat)
  /-- Puts a copy of a table in the place of another one. -/
  | copy (place source : Nat)
  /-- Creates a lookup. -/
  | create (entries : List (String × Scalar))
  /-- Takes entries over into a lookup. -/
  | append (handle : LookupHandle) (entries : List (String × Scalar))
  /-- Replaces the entries of a lookup. -/
  | set (handle : LookupHandle) (entries : List (String × Scalar))
  /-- Evaluates a graph. -/
  | evaluate (job : Job)

/-- What a command tells the program. -/
inductive Answer where
  | done
  | refused (error : ConfigError)
  | created (handle : LookupHandle)
  | ran (run : Run NodeId)

namespace Session

/-- The session in which a program starts: every table is empty, and there is no lookup. -/
def start : Session := ⟨fun _ => .empty, .empty⟩

/-- Puts a table in a place. -/
def put (s : Session) (place : Nat) (table : CallTable) : Session :=
  { s with tables := fun other => if other = place then table else s.tables other }

/-- The host calls that an evaluation can reach. -/
def host (s : Session) (job : Job) : Host :=
  ⟨s.tables job.defaults, job.overrides.map s.tables, s.lookups⟩

/-- Evaluates a graph. -/
def run (s : Session) (job : Job) : Run NodeId :=
  job.graph.run ⟨job.limits, s.host job, job.executor⟩

/-- What a command tells the program, and what the program keeps afterwards. -/
def perform (s : Session) : Command → Answer × Session
  | .insert place name call =>
    match (s.tables place).insert name call with
    | .ok table => (.done, s.put place table)
    | .error error => (.refused error, s)
  | .extend place source => (.done, s.put place ((s.tables place).extend (s.tables source)))
  | .copy place source => (.done, s.put place (s.tables source))
  | .create entries =>
    let (handle, lookups) := s.lookups.create entries
    (.created handle, { s with lookups })
  | .append handle entries => (.done, { s with lookups := s.lookups.append handle entries })
  | .set handle entries => (.done, { s with lookups := s.lookups.set handle entries })
  | .evaluate job => (.ran (s.run job), s)

/-- The session after commands. -/
def after (s : Session) (commands : List Command) : Session :=
  commands.foldl (fun s command => (s.perform command).2) s

/-- What commands tell the program. -/
def answers (s : Session) : List Command → List Answer
  | [] => []
  | command :: rest => (s.perform command).1 :: (s.perform command).2.answers rest

variable (s : Session) (place : Nat)

theorem put_tables (table : CallTable) (other : Nat) :
    (s.put place table).tables other = if other = place then table else s.tables other := rfl

/-- No call gets the empty name. -/
theorem perform_insert_empty (call : HostCall) :
    s.perform (.insert place "" call) = (.refused (.invalidCallName ""), s) := rfl

/-- Any other name is taken. -/
theorem perform_insert {name : String} (h : name ≠ "") (call : HostCall) :
    s.perform (.insert place name call) =
      (.done, s.put place ⟨(s.tables place).calls.insert name call⟩) := by
  rw [perform, CallTable.insert, if_neg h]

end Session

end OpTree
