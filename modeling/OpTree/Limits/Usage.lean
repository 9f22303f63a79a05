import OpTree.Limits.Basic

/-!
# Metering

`Stats` is what an evaluation has used up, with the greatest scope depth it reached; a `Usage` also
knows the current depth, which is the one that the limit applies to. `Usage.exceeded?` finds the
first counter, in a fixed order, that is above its bound.
-/

namespace OpTree

/-- What an evaluation has used up. -/
structure Stats where
  opCount : Nat
  scopeCount : Nat
  scopeDepthMax : Nat
  varCount : Nat
  strCount : Nat
  strChars : Nat
deriving DecidableEq, Repr

namespace Stats

/-- Nothing is used up. -/
def zero : Stats := ⟨0, 0, 0, 0, 0, 0⟩

instance : Inhabited Stats := ⟨zero⟩

/-- The value of a counter; for the scope depth the greatest one reached. -/
def value (stats : Stats) : Counter → Nat
  | .opCount => stats.opCount
  | .scopeCount => stats.scopeCount
  | .scopeDepth => stats.scopeDepthMax
  | .varCount => stats.varCount
  | .strCount => stats.strCount
  | .strChars => stats.strChars

end Stats

/-- The counters of a running evaluation. -/
structure Usage where
  stats : Stats
  /-- The number of scopes being evaluated at the moment. -/
  scopeDepth : Nat
deriving DecidableEq, Repr

namespace Usage

/-- The usage at the start of an evaluation. -/
def zero : Usage := ⟨.zero, 0⟩

/-- The value of a counter; for the scope depth the current one. -/
def value (usage : Usage) : Counter → Nat
  | .scopeDepth => usage.scopeDepth
  | counter => usage.stats.value counter

/-- A counter above its bound. -/
structure Excess where
  counter : Counter
  value : Nat
  bound : Nat
deriving DecidableEq, Repr

/-- The excess of one counter, if it is above its bound. -/
def excess? (usage : Usage) (limits : Limits) (counter : Counter) : Option Excess :=
  match limits.bound (.counter counter) with
  | some bound =>
    if bound < usage.value counter then some ⟨counter, usage.value counter, bound⟩ else none
  | none => none

/-- The first counter that is above its bound. -/
def exceeded? (usage : Usage) (limits : Limits) : Option Excess :=
  Counter.all.findSome? (usage.excess? limits)

/-- Counts a node. -/
def countOp (usage : Usage) : Usage :=
  { usage with stats.opCount := usage.stats.opCount + 1 }

/-- Counts a variable. -/
def countVar (usage : Usage) : Usage :=
  { usage with stats.varCount := usage.stats.varCount + 1 }

/-- Counts a string of some length. -/
def countString (usage : Usage) (chars : Nat) : Usage :=
  { usage with
    stats.strCount := usage.stats.strCount + 1
    stats.strChars := usage.stats.strChars + chars }

/-- Counts a scope and enters it. -/
def openScope (usage : Usage) : Usage :=
  { stats :=
      { usage.stats with
        scopeCount := usage.stats.scopeCount + 1
        scopeDepthMax := max usage.stats.scopeDepthMax (usage.scopeDepth + 1) }
    scopeDepth := usage.scopeDepth + 1 }

/-- Leaves a scope. -/
def closeScope (usage : Usage) : Usage :=
  { usage with scopeDepth := usage.scopeDepth - 1 }

end Usage

end OpTree
