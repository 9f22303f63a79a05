import OpTree.Json.Reader
import OpTree.Limits.Basic
import OpTree.Text.Quoted

/-!
# Configured limits

A configuration is a JSON document: null lifts every bound, a whole number bounds every counter, and
an object sets the limits of the resources it names, the others keeping their defaults. A limit is
null or a whole number; null and zero stand for no bound.
-/

namespace OpTree

/-- Why a configuration was refused. -/
inductive ConfigError where
  | invalidLimits
  | invalidLimit (key : String)
  | notJson
  | invalidCallName (name : String)
deriving DecidableEq, Repr

/-- The text of the error. -/
def ConfigError.message : ConfigError → String
  | invalidLimits => "Invalid limits configuration"
  | invalidLimit key => s!"Invalid limits configuration ({key})"
  | notJson => "Invalid limits configuration: <json>"
  | invalidCallName name => s!"Invalid calls configuration (function name {Text.quote name})"

namespace Limits

/-- Reads one limit. -/
def limitOfJson? : Json → Option Limit
  | .null => some none
  | value => value.unsigned?.map .ofNat

/-- Sets the limit that one entry of a configuration names. -/
def setEntry (limits : Limits) (key : String) (value : Json) : Except ConfigError Limits :=
  match limitOfJson? value, Resource.ofName? key with
  | some limit, some resource => .ok (limits.set resource limit)
  | _, _ => .error (.invalidLimit key)

/-- Reads a configuration. -/
def ofJson (config : Json) : Except ConfigError Limits :=
  match config with
  | .null => .ok unlimited
  | .obj entries => entries.foldlM (fun limits (key, value) => limits.setEntry key value) default
  | value =>
    match value.unsigned? with
    | some bound => .ok (global bound)
    | none => .error .invalidLimits

/-- The limits that an environment sets: the defaults if it leaves the variable unset, else those
that the text of the variable configures. -/
def ofVariable (text : Option String) : Except ConfigError Limits :=
  match text with
  | none => .ok default
  | some text =>
    match Json.read? Json.maxDepth text with
    | none => .error .notJson
    | some config => ofJson config

end Limits

end OpTree
