/-!
# The text of a duration

A duration of some milliseconds is written in seconds from one second on, with as many places as it
needs, and in milliseconds below that.
-/

namespace OpTree

/-- The places after the point of a number of thousandths below one thousand. -/
private def thousandths (n : Nat) : List Char :=
  let digits := Nat.toDigits 10 n
  let padded := List.replicate (3 - digits.length) '0' ++ digits
  (padded.reverse.dropWhile (· == '0')).reverse

/-- The text of a duration in milliseconds. -/
def displayDuration (milliseconds : Nat) : String :=
  if milliseconds = 0 then
    "0ns"
  else if milliseconds < 1000 then
    s!"{milliseconds}ms"
  else
    match thousandths (milliseconds % 1000) with
    | [] => s!"{milliseconds / 1000}s"
    | places => s!"{milliseconds / 1000}.{String.ofList places}s"

end OpTree
