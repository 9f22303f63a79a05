import OpTree.Host.Lookup

/-!
# Host calls

A host call is a function that the surrounding program lends to expressions. It replies to the
arguments of an invocation with a scalar or an error, after some time, or it never replies. A reply
may depend on what was invoked before in the same evaluation, so a call can have a memory.
-/

namespace OpTree

/-- Why a host call refused. -/
inductive CallError where
  | failed (message : String)
  | invalidArguments
deriving DecidableEq, Repr

/-- The text of the error. -/
def CallError.message : CallError → String
  | failed message => message
  | invalidArguments => "Invalid arguments"

/-- One invocation of a host call. -/
structure Invocation where
  name : String
  arguments : List Scalar
deriving DecidableEq

/-- The text of an invocation. -/
def Invocation.display (i : Invocation) : String :=
  i.name ++ "(" ++ ", ".intercalate (i.arguments.map Scalar.display) ++ ")"

/-- What comes back from an invocation. -/
inductive Reply where
  /-- A result, after some milliseconds. -/
  | answer (delay : Nat) (result : Except CallError Scalar)
  | never

/-- A host call. -/
inductive HostCall where
  /-- A constant, called without arguments. -/
  | constant (value : Scalar)
  /-- A lookup, called with the name to look up. -/
  | lookup (handle : LookupHandle)
  /-- Any other function of the arguments and of the earlier invocations, the latest first. -/
  | function (reply : List Invocation → List Scalar → Reply)
deriving Inhabited

namespace HostCall

/-- The function that answers at once, from its arguments alone. -/
def ofFunction (f : List Scalar → Except CallError Scalar) : HostCall :=
  .function fun _ args => .answer 0 (f args)

/-- What a lookup answers: anything but a string stands for nothing, and there has to be exactly
one argument. -/
def lookUp (lookup : Lookup) : List Scalar → Except CallError Scalar
  | [.str name] => .ok (lookup.get name)
  | [_] => .ok .null
  | _ => .error .invalidArguments

/-- The reply to an invocation. -/
def reply (call : HostCall) (lookups : Lookups) (history : List Invocation) (args : List Scalar) :
    Reply :=
  match call with
  | .constant value => .answer 0 (if args.isEmpty then .ok value else .error .invalidArguments)
  | .lookup handle => .answer 0 (lookUp (lookups.lookup handle) args)
  | .function f => f history args

end HostCall

end OpTree
