import OpTree.Host.Call
import OpTree.Limits.Config

/-!
# Call tables

A call table gives names to host calls. An evaluation uses a default table and may be given another
one whose entries take precedence; `Host` holds both with the lookups that they refer to.
-/

namespace OpTree

/-- Host calls by name; no name is empty. -/
structure CallTable where
  calls : NameMap HostCall
deriving Inhabited

namespace CallTable

/-- The table without calls. -/
def empty : CallTable := ⟨.empty⟩

/-- Gives a call a name, in place of the call that had it. -/
def insert (table : CallTable) (name : String) (call : HostCall) :
    Except ConfigError CallTable :=
  if name = "" then .error (.invalidCallName name) else .ok ⟨table.calls.insert name call⟩

/-- The call with a name. -/
def find? (table : CallTable) (name : String) : Option HostCall :=
  table.calls.find? name

/-- Whether there is a call with a name. -/
def contains (table : CallTable) (name : String) : Bool :=
  table.calls.contains name

/-- Adds every call of `other`, in place of those with the same name. -/
def extend (table other : CallTable) : CallTable :=
  ⟨table.calls.union other.calls⟩

/-- The names of the calls, in ascending order. -/
def names (table : CallTable) : List String :=
  table.calls.names

/-- The number of calls. -/
def size (table : CallTable) : Nat :=
  table.calls.size

/-- Whether there is no call. -/
def isEmpty (table : CallTable) : Bool :=
  table.size == 0

/-- The text of a table: the set of its names. -/
def display (table : CallTable) : String :=
  "\x7b" ++ ", ".intercalate (table.names.map Text.quote) ++ "\x7d"

end CallTable

/-- The host calls that an evaluation can reach. -/
structure Host where
  defaults : CallTable
  overrides : Option CallTable
  lookups : Lookups
deriving Inhabited

namespace Host

/-- No host call at all. -/
def empty : Host := ⟨.empty, .none, .empty⟩

/-- The call with a name; the overrides come first. -/
def find? (host : Host) (name : String) : Option HostCall :=
  (host.overrides.bind (·.find? name)).or (host.defaults.find? name)

end Host

end OpTree
