import OpTree.Number.Shortest

/-!
# The text of a number

A `Layout` holds the choices that the digits of a number leave open: from which magnitudes on an
exponent is written, and whether a whole number shows a fraction. Two layouts are in use, one for
messages and one for JSON documents.
-/

namespace OpTree.Number

open Float.Model (UnpackedFloat)

/-- How finite numbers are laid out. -/
structure Layout where
  /-- The least and the greatest magnitude written without an exponent, if there are bounds. -/
  positional : Option (Int × Int)
  /-- Whether a whole number ends in `.0`. -/
  wholeFraction : Bool

namespace Layout

/-- Messages never use an exponent, and whole numbers are plain digits. -/
def message : Layout := ⟨none, false⟩

/-- Documents write magnitudes from `-5` to `15` positionally, with a fraction. -/
def document : Layout := ⟨some (-5, 15), true⟩

/-- Whether a decimal is written without an exponent. -/
private def isPositional (layout : Layout) (d : Decimal) : Bool :=
  match layout.positional with
  | none => true
  | some (least, greatest) => least ≤ d.magnitude && d.magnitude ≤ greatest

/-- Digits with the point in its place, padded with zeros where the digits do not reach it. -/
private def pointed (layout : Layout) (d : Decimal) : List Char :=
  let digits := d.text
  if 0 ≤ d.exponent then
    let whole := digits ++ List.replicate d.exponent.toNat '0'
    if layout.wholeFraction then whole ++ ['.', '0'] else whole
  else
    let places := (-d.exponent).toNat
    let padded := List.replicate (places + 1 - digits.length) '0' ++ digits
    let (whole, fraction) := padded.splitAt (padded.length - places)
    whole ++ '.' :: fraction

/-- One digit, the fraction if there is one, and the magnitude with its sign. -/
private def scientific (d : Decimal) : List Char :=
  let significand :=
    match d.text with
    | lead :: [] => [lead]
    | lead :: fraction => lead :: '.' :: fraction
    | [] => []
  let sign := if d.magnitude < 0 then '-' else '+'
  significand ++ 'e' :: sign :: Nat.toDigits 10 d.magnitude.natAbs

/-- The text of a positive decimal. -/
def decimal (layout : Layout) (d : Decimal) : List Char :=
  if layout.isPositional d then layout.pointed d else scientific d

/-- The text of a number: the shortest decimal that reads back, with `-` for a negative sign, also
that of zero. -/
def render (layout : Layout) (x : Float) : String :=
  let signed (sign : UnpackedFloat.Sign) (text : List Char) : String :=
    match sign with
    | .positive => String.ofList text
    | .negative => String.ofList ('-' :: text)
  match unpack x with
  | .notANumber => "NaN"
  | .infinity sign => signed sign ['i', 'n', 'f']
  | .zero sign => signed sign (layout.decimal ⟨0, 0⟩)
  | .finite sign m e _ => signed sign (layout.decimal (shortest m e))

end Layout

end OpTree.Number
