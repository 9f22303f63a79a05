import OpTree.NameMap
import OpTree.Scalar

/-!
# Lookups

A lookup answers from a map of names to scalars that may change between evaluations. It is reached
through a handle: whoever holds the handle, a call table or the program that keeps the lookup up to
date, sees the same entries. A `Lookups` is the collection of all of them.
-/

namespace OpTree

/-- A map of names to the scalars that stand for them, all valid and none null. -/
structure Lookup where
  values : NameMap Scalar
deriving Inhabited

namespace Lookup

/-- The lookup without entries. -/
def empty : Lookup := ⟨.empty⟩

/-- Takes one entry over: a null or a number that is not finite removes the name. -/
def put (lookup : Lookup) (entry : String × Scalar) : Lookup :=
  if entry.2.isNull || !entry.2.isValid then
    ⟨lookup.values.erase entry.1⟩
  else
    ⟨lookup.values.insert entry.1 entry.2⟩

/-- Takes entries over, one after the other. -/
def append (lookup : Lookup) (entries : List (String × Scalar)) : Lookup :=
  entries.foldl put lookup

/-- The scalar of a name, null if there is none. -/
def get (lookup : Lookup) (name : String) : Scalar :=
  (lookup.values.find? name).getD .null

end Lookup

/-- What a lookup is reached through. -/
structure LookupHandle where
  index : Nat
deriving DecidableEq, Repr, Inhabited

/-- The lookups in existence, each at its handle. -/
structure Lookups where
  lookups : Array Lookup
deriving Inhabited

namespace Lookups

/-- No lookup. -/
def empty : Lookups := ⟨#[]⟩

/-- Creates a lookup with the given entries. -/
def create (all : Lookups) (entries : List (String × Scalar)) : LookupHandle × Lookups :=
  (⟨all.lookups.size⟩, ⟨all.lookups.push (Lookup.empty.append entries)⟩)

/-- The lookup behind a handle. -/
def lookup (all : Lookups) (handle : LookupHandle) : Lookup :=
  all.lookups.getD handle.index .empty

/-- Takes entries over into the lookup behind a handle. -/
def append (all : Lookups) (handle : LookupHandle) (entries : List (String × Scalar)) : Lookups :=
  ⟨all.lookups.setIfInBounds handle.index ((all.lookup handle).append entries)⟩

/-- Replaces all entries of the lookup behind a handle. -/
def set (all : Lookups) (handle : LookupHandle) (entries : List (String × Scalar)) : Lookups :=
  ⟨all.lookups.setIfInBounds handle.index (Lookup.empty.append entries)⟩

end Lookups

end OpTree
