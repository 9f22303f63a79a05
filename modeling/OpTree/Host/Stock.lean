import OpTree.Host.Call

/-!
# Stock calls

Host calls that are useful in many programs and in tests of the evaluation.
-/

namespace OpTree.HostCall

/-- Answers the first argument, null if there is none. -/
def echo : HostCall :=
  ofFunction fun args => .ok (args.headD .null)

/-- Answers the number of arguments. -/
def argc : HostCall :=
  ofFunction fun args => .ok (.num (Number.ofInt args.length))

/-- Joins strings. -/
def concat : HostCall :=
  ofFunction fun args =>
    match args.mapM Scalar.str? with
    | some strings => .ok (.str (String.join strings))
    | none => .error .invalidArguments

/-- Answers the number of characters of one string. -/
def len : HostCall :=
  ofFunction fun
    | [.str s] => .ok (.num (Number.ofInt s.length))
    | _ => .error .invalidArguments

/-- Adds numbers, from zero and from left to right. The sum may be infinite. -/
def sum : HostCall :=
  ofFunction fun args =>
    match args.mapM Scalar.num? with
    | some numbers => .ok (.num (numbers.foldl (· + ·) (Number.ofInt 0)))
    | none => .error .invalidArguments

/-- Answers whether every argument is the boolean true. -/
def both : HostCall :=
  ofFunction fun args => .ok (.bool (args.all (· == .bool true)))

/-- Fails with a message. -/
def fail (message : String) : HostCall :=
  ofFunction fun _ => .error (.failed message)

/-- Refuses any arguments. -/
def reject : HostCall :=
  ofFunction fun _ => .error .invalidArguments

/-- Answers after some milliseconds. -/
def block (milliseconds : Nat) : HostCall :=
  .function fun _ _ => .answer milliseconds (.ok (.str "done"))

/-- Never answers. -/
def hang : HostCall :=
  .function fun _ _ => .never

end OpTree.HostCall
