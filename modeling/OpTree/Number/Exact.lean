/-!
# Exact arithmetic on doubles

A finite double is `± m * 2 ^ e` with natural `m` and integral `e`. This module reads doubles in
that form and computes with the exact values: conversion to and from integers, and the remainder
of a division. Only the last step of each operation rounds, and where the exact result is itself a
double it is returned unchanged.
-/

namespace OpTree.Number

open Float.Model (UnpackedFloat)
open Float.Model.UnpackedFloat (Sign)

/-- The exact value of a double: infinite, not a number, a signed zero, or `± m * 2 ^ e`. -/
def unpack (x : Float) : UnpackedFloat :=
  x.toModel.unpack

/-- The double nearest to `± m * 2 ^ e`, ties to even; a zero keeps the sign. -/
def ofDyadic (sign : Sign) (m : Nat) (e : Int) : Float :=
  if m = 0 then
    .ofModel (.pack (.zero sign))
  else
    .ofModel (.pack (.round .binary64 sign m e))

/-- The double nearest to an integer, ties to even. -/
def ofInt (n : Int) : Float :=
  .ofModel (.ofInt n)

/-- The double nearest to `± m * 10 ^ e`, ties to even; infinite when that is out of range. -/
def ofDecimal (negative : Bool) (m : Nat) (e : Int) : Float :=
  let magnitude := Float.ofModel (.ofScientific m e)
  if negative then -magnitude else magnitude

/-- The integer that a double equals, if there is one. Both zeros equal `0`. -/
def toInt? (x : Float) : Option Int :=
  match unpack x with
  | .zero _ => some 0
  | .finite sign m e _ =>
    if 0 ≤ e then
      some (sign.apply (m * Nat.pow 2 e.toNat : Nat))
    else if m % Nat.pow 2 (-e).toNat = 0 then
      some (sign.apply (m / Nat.pow 2 (-e).toNat : Nat))
    else
      none
  | _ => none

/-- Whether a double is one of the two zeros. -/
def isZero (x : Float) : Bool :=
  match unpack x with
  | .zero _ => true
  | _ => false

/-- Whether a double is zero with the sign bit set. -/
def isNegativeZero (x : Float) : Bool :=
  match unpack x with
  | .zero .negative => true
  | _ => false

/-- The largest magnitude up to which every integer is a double. -/
def maxSafeInt : Nat := Nat.pow 2 53 - 1

/-- The integer that a double stands for without any loss: it equals the double, its magnitude is
at most `maxSafeInt`, and the double is not negative zero. -/
def toSafeInt? (x : Float) : Option Int :=
  (toInt? x).filter fun n => n.natAbs ≤ maxSafeInt && !isNegativeZero x

/-- The remainder of `x / y` truncated toward zero, computed exactly: it has the sign of `x` and a
magnitude below that of `y`. -/
def remainder (x y : Float) : Float :=
  match unpack x, unpack y with
  | .finite sign m e _, .finite _ n f _ =>
    -- as multiples of one power of two the operands are natural numbers
    let unit := min e f
    ofDyadic sign ((m <<< (e - unit).toNat) % (n <<< (f - unit).toNat)) unit
  | .zero _, .finite .. | .zero _, .infinity _ | .finite .., .infinity _ => x
  | _, _ => .ofModel (.pack .notANumber)

end OpTree.Number
