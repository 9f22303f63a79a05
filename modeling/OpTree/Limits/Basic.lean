/-!
# Limits

An evaluation is bounded by counters, which count what it does, and by two time budgets, in
milliseconds: one for the whole evaluation and one for every single host call. Each of these
resources has a bound of its own or none.
-/

namespace OpTree

/-- What an evaluation counts. -/
inductive Counter where
  | opCount
  | scopeCount
  | scopeDepth
  | varCount
  | strCount
  | strChars
deriving DecidableEq, Repr

namespace Counter

/-- Every counter, in the order in which they are checked. -/
def all : List Counter :=
  [opCount, scopeCount, scopeDepth, varCount, strCount, strChars]

/-- The name of the counter in configurations and messages. -/
def name : Counter → String
  | opCount => "opCount"
  | scopeCount => "scopeCount"
  | scopeDepth => "scopeDepth"
  | varCount => "varCount"
  | strCount => "strCount"
  | strChars => "strChars"

/-- The counter with a name. -/
def ofName? (name : String) : Option Counter :=
  all.find? fun c => c.name = name

end Counter

/-- What can be bounded. -/
inductive Resource where
  | counter (counter : Counter)
  | evaluationTime
  | callTime
deriving DecidableEq, Repr

/-- The resource with a name. -/
def Resource.ofName? (name : String) : Option Resource :=
  if name = "evaluationTime" then some evaluationTime
  else if name = "callTime" then some callTime
  else (Counter.ofName? name).map counter

/-- A bound, or none. A bound of zero is a real bound. -/
abbrev Limit := Option Nat

/-- The limit that a configured number stands for: zero stands for no bound. -/
def Limit.ofNat (bound : Nat) : Limit :=
  if bound = 0 then none else some bound

/-- The bounds of an evaluation. -/
structure Limits where
  bound : Resource → Limit

namespace Limits

/-- No resource is bounded. -/
def unlimited : Limits := ⟨fun _ => none⟩

/-- The bounds in force unless others are configured. -/
def default : Limits where
  bound
    | .counter .opCount => some 1000
    | .counter .scopeCount => some 200
    | .counter .scopeDepth => some 100
    | .counter .varCount => some 200
    | .counter .strCount => none
    | .counter .strChars => some 10000
    | .evaluationTime => some 2000
    | .callTime => some 500

instance : Inhabited Limits := ⟨default⟩

/-- One limit for every counter; the time budgets are the default ones. -/
def global (bound : Nat) : Limits where
  bound
    | .counter _ => .ofNat bound
    | time => default.bound time

/-- Gives a resource another limit. -/
def set (limits : Limits) (resource : Resource) (limit : Limit) : Limits :=
  ⟨fun r => if r = resource then limit else limits.bound r⟩

@[simp]
theorem bound_set (limits : Limits) (resource other : Resource) (limit : Limit) :
    (limits.set resource limit).bound other =
      if other = resource then limit else limits.bound other := rfl

end Limits

end OpTree
