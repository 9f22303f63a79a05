import OpTree.Number.Exact

/-!
# Shortest decimals

The shortest decimal of a double is the one with the fewest digits that rounds back to it. The
reals that round to `m * 2 ^ e` form an interval around it, half a unit in the last place on each
side, whose ends belong to it exactly when `m` is even. `shortest` tries one digit, then two, and
so on: on each grid of decimals only the two neighbours of the value can be nearest, and the first
grid with a neighbour in the interval gives the answer.
-/

namespace OpTree.Number

/-- A decimal `digits * 10 ^ exponent`. -/
structure Decimal where
  digits : Nat
  exponent : Int
deriving DecidableEq, Repr

namespace Decimal

/-- Drops up to `fuel` zeros at the end of the digits. -/
private def dropZeros : Nat → Decimal → Decimal
  | 0, d => d
  | fuel + 1, d =>
    if d.digits ≠ 0 ∧ d.digits % 10 = 0 then
      dropZeros fuel ⟨d.digits / 10, d.exponent + 1⟩
    else
      d

/-- The decimal digits, most significant first. -/
def text (d : Decimal) : List Char :=
  Nat.toDigits 10 d.digits

/-- The exponent of the leading digit: `d` is `x.yyy * 10 ^ d.magnitude`. -/
def magnitude (d : Decimal) : Int :=
  d.exponent + d.text.length - 1

end Decimal

/-- A positive double `m * 2 ^ e` beside the decimal grid of spacing `10 ^ q`, everything scaled by
one positive factor so that it is a natural number. -/
private structure Grid where
  /-- The double. -/
  value : Nat
  /-- The spacing of the grid. -/
  step : Nat
  /-- The least real that rounds to the double, or the bound just below them. -/
  low : Nat
  /-- The greatest real that rounds to the double, or the bound just above them. -/
  high : Nat
  /-- Whether the two bounds themselves round to the double. -/
  closed : Bool

/-- The grid of spacing `10 ^ q` around `m * 2 ^ e`. Below a power of two that is not the least
exponent the doubles are twice as dense, so the lower bound is twice as near. -/
private def Grid.around (m : Nat) (e q : Int) : Grid :=
  -- in quarters of a unit in the last place both bounds are whole
  let twos := Nat.pow 2 (e - 2).toNat * Nat.pow 10 (-q).toNat
  let below := if m = Nat.pow 2 52 ∧ -1074 < e then 1 else 2
  { value := 4 * m * twos
    step := Nat.pow 10 q.toNat * Nat.pow 2 (2 - e).toNat
    low := (4 * m - below) * twos
    high := (4 * m + 2) * twos
    closed := m % 2 = 0 }

/-- Whether the `k`-th point of the grid rounds to the double. -/
private def Grid.holds (g : Grid) (k : Nat) : Bool :=
  let x := k * g.step
  if g.closed then g.low ≤ x && x ≤ g.high else g.low < x && x < g.high

/-- The point of the grid nearest to the double, if it rounds to it; of two the upper one. -/
private def Grid.nearest? (g : Grid) : Option Nat :=
  let k := g.value / g.step
  let gap := g.value - k * g.step
  let upperFirst := g.step ≤ 2 * gap
  let first := if upperFirst then k + 1 else k
  let second := if upperFirst then k else k + 1
  if g.holds first then some first else if g.holds second then some second else none

/-- The exponent `p` with `10 ^ p ≤ m * 2 ^ e < 10 ^ (p + 1)`: an estimate from the binary
logarithm, which is at most one too small, and one correction. -/
private def leadingExponent (m : Nat) (e : Int) : Int :=
  let estimate := ((m.log2 : Int) + e) * 30103 / 100000
  let next := estimate + 1
  let below := Nat.pow 10 next.toNat * Nat.pow 2 (-e).toNat
  let double := m * Nat.pow 2 e.toNat * Nat.pow 10 (-next).toNat
  if below ≤ double then next else estimate

/-- Tries `count` digits and more, up to `fuel` grids. -/
private def search (m : Nat) (e leading : Int) : Nat → Int → Option Decimal
  | 0, _ => none
  | fuel + 1, count =>
    let q := leading + 1 - count
    match (Grid.around m e q).nearest? with
    | some k => some (Decimal.dropZeros 20 ⟨k, q⟩)
    | none => search m e leading fuel (count + 1)

/-- The shortest decimal that rounds to the positive double `m * 2 ^ e`, and of those with as few
digits the nearest, a tie going up. Seventeen digits always suffice. -/
def shortest (m : Nat) (e : Int) : Decimal :=
  (search m e (leadingExponent m e) 17 1).getD ⟨m * Nat.pow 2 e.toNat, 0⟩

end OpTree.Number
