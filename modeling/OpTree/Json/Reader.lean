import OpTree.Json.Basic
import OpTree.Number.Exact

/-!
# Reading JSON

`Json.read?` reads one document that fills the whole text, `Json.readFirst?` one that the text
starts with. Nesting is bounded by an explicit depth: a document at the bound may hold scalars only.
Two halves of a surrogate pair must stand together, and a number that rounds to infinity is refused.
Every reader takes characters from the front and returns the rest.
-/

namespace OpTree.Json

/-- Drops the blanks that may stand between two tokens. -/
def skipBlanks (input : List Char) : List Char :=
  input.dropWhile fun c => c == ' ' || c == '\t' || c == '\n' || c == '\r'

/-! ### Numbers -/

/-- Reads one or more digits. -/
private def readDigits (input : List Char) : Option (List Char × List Char) :=
  match input.span Char.isDigit with
  | ([], _) => none
  | (digits, rest) => some (digits, rest)

/-- The value of decimal digits. -/
private def digitsValue (digits : List Char) : Nat :=
  digits.foldl (fun n c => 10 * n + (c.toNat - '0'.toNat)) 0

/-- Reads the digits before the point: no zero in front of another digit. -/
private def readWhole (input : List Char) : Option (List Char × List Char) := do
  match ← readDigits input with
  | ('0' :: _ :: _, _) => none
  | whole => some whole

/-- Reads the fraction, if there is one. -/
private def readFraction : List Char → Option (Option (List Char) × List Char)
  | '.' :: rest => (readDigits rest).map fun (digits, rest) => (some digits, rest)
  | rest => some (none, rest)

/-- Reads the exponent, if there is one. -/
private def readExponent : List Char → Option (Option Int × List Char)
  | c :: rest =>
    if c = 'e' ∨ c = 'E' then
      let (negative, rest) :=
        match rest with
        | '-' :: rest => (true, rest)
        | '+' :: rest => (false, rest)
        | rest => (false, rest)
      (readDigits rest).map fun (digits, rest) =>
        let n : Int := digitsValue digits
        (some (if negative then -n else n), rest)
    else
      some (none, c :: rest)
  | [] => some (none, [])

/-- The double of a number with sign, digits and exponent, unless it is out of range. -/
private def floatOf (negative : Bool) (digits : Nat) (exponent : Int) : Option Json :=
  let x := Number.ofDecimal negative digits exponent
  if x.isFinite then some (.float x) else none

/-- The value of a number without fraction and exponent: whole where 64 bits suffice, except for
the negative zero. -/
private def wholeOf (negative : Bool) (n : Nat) : Option Json :=
  if negative then
    if 0 < n ∧ n ≤ Nat.pow 2 63 then some (.int (-n)) else floatOf true n 0
  else if n < UInt64.size then
    some (.int n)
  else
    floatOf false n 0

/-- Reads a number. -/
private def readNumber (input : List Char) : Option (Json × List Char) := do
  let (negative, rest) :=
    match input with
    | '-' :: rest => (true, rest)
    | rest => (false, rest)
  let (whole, rest) ← readWhole rest
  let (fraction, rest) ← readFraction rest
  let (exponent, rest) ← readExponent rest
  match fraction, exponent with
  | none, none => return (← wholeOf negative (digitsValue whole), rest)
  | _, _ =>
    let places := fraction.getD []
    let value ← floatOf negative (digitsValue (whole ++ places)) (exponent.getD 0 - places.length)
    return (value, rest)

/-! ### Strings -/

/-- The value of a hexadecimal digit. -/
private def hexValue (c : Char) : Option Nat :=
  if c.isDigit then some (c.toNat - '0'.toNat)
  else if 'a' ≤ c ∧ c ≤ 'f' then some (c.toNat - 'a'.toNat + 10)
  else if 'A' ≤ c ∧ c ≤ 'F' then some (c.toNat - 'A'.toNat + 10)
  else none

/-- Reads four hexadecimal digits. -/
private def readUnit : List Char → Option (Nat × List Char)
  | a :: b :: c :: d :: rest => do
    let high := (← hexValue a) * 16 + (← hexValue b)
    let low := (← hexValue c) * 16 + (← hexValue d)
    return (high * 256 + low, rest)
  | _ => none

/-- Reads the code units of an escaped character: one, or the two halves of a pair. -/
private def readEscapedUnits (input : List Char) : Option (Char × List Char) := do
  let (high, rest) ← readUnit input
  if 0xD800 ≤ high ∧ high < 0xDC00 then
    -- the first half of a pair is nothing without the second
    match rest with
    | '\\' :: 'u' :: rest =>
      let (low, rest) ← readUnit rest
      if 0xDC00 ≤ low ∧ low < 0xE000 then
        return (Char.ofNat (0x10000 + (high - 0xD800) * 0x400 + (low - 0xDC00)), rest)
      else
        none
    | _ => none
  else if 0xDC00 ≤ high ∧ high < 0xE000 then
    none
  else
    return (Char.ofNat high, rest)

/-- Reads one character of a string, escaped or not. -/
private def readChar : List Char → Option (Char × List Char)
  | '\\' :: '"' :: rest => some ('"', rest)
  | '\\' :: '\\' :: rest => some ('\\', rest)
  | '\\' :: '/' :: rest => some ('/', rest)
  | '\\' :: 'b' :: rest => some ('\x08', rest)
  | '\\' :: 'f' :: rest => some ('\x0c', rest)
  | '\\' :: 'n' :: rest => some ('\n', rest)
  | '\\' :: 'r' :: rest => some ('\r', rest)
  | '\\' :: 't' :: rest => some ('\t', rest)
  | '\\' :: 'u' :: rest => readEscapedUnits rest
  | '\\' :: _ => none
  | c :: rest => if c.toNat < 0x20 then none else some (c, rest)
  | [] => none

/-- Reads the rest of a string up to its closing quote, at most `fuel` characters. -/
private def readString : Nat → List Char → List Char → Option (String × List Char)
  | 0, _, _ => none
  | _ + 1, read, '"' :: rest => some (String.ofList read.reverse, rest)
  | fuel + 1, read, input => do
    let (c, rest) ← readChar input
    readString fuel (c :: read) rest

/-! ### Documents -/

/-- Reads the items of an array up to its closing bracket, at most `fuel` of them. -/
private def readItems (value : List Char → Option (Json × List Char)) :
    Nat → List Json → List Char → Option (List Json × List Char)
  | 0, _, _ => none
  | fuel + 1, read, input => do
    let (item, rest) ← value input
    match skipBlanks rest with
    | ',' :: rest => readItems value fuel (item :: read) rest
    | ']' :: rest => return ((item :: read).reverse, rest)
    | _ => none

/-- Reads the fields of an object up to its closing brace, at most `fuel` of them. -/
private def readFields (size : Nat) (value : List Char → Option (Json × List Char)) : Nat →
    List (String × Json) → List Char → Option (List (String × Json) × List Char)
  | 0, _, _ => none
  | fuel + 1, read, input => do
    let '"' :: rest := skipBlanks input | none
    let (name, rest) ← readString size [] rest
    let ':' :: rest := skipBlanks rest | none
    let (item, rest) ← value rest
    match skipBlanks rest with
    | ',' :: rest => readFields size value fuel ((name, item) :: read) rest
    | '\x7d' :: rest => return (((name, item) :: read).reverse, rest)
    | _ => none

/-- Reads a value whose arrays and objects are nested at most `depth` deep, in a text of less than
`size` characters. -/
private def readValue (size : Nat) : Nat → List Char → Option (Json × List Char)
  | depth, input =>
    match skipBlanks input, depth with
    | 'n' :: 'u' :: 'l' :: 'l' :: rest, _ => some (.null, rest)
    | 't' :: 'r' :: 'u' :: 'e' :: rest, _ => some (.bool true, rest)
    | 'f' :: 'a' :: 'l' :: 's' :: 'e' :: rest, _ => some (.bool false, rest)
    | '"' :: rest, _ => (readString size [] rest).map fun (s, rest) => (.str s, rest)
    | '[' :: _, 0 | '\x7b' :: _, 0 => none
    | '[' :: rest, depth + 1 =>
      match skipBlanks rest with
      | ']' :: rest => some (.arr [], rest)
      | rest => (readItems (readValue size depth) size [] rest).map fun (items, rest) =>
          (.arr items, rest)
    | '\x7b' :: rest, depth + 1 =>
      match skipBlanks rest with
      | '\x7d' :: rest => some (.obj [], rest)
      | rest => (readFields size (readValue size depth) size [] rest).map fun (fields, rest) =>
          (ofFields fields, rest)
    | rest, _ => readNumber rest

/-- The nesting that a document from outside may have. -/
def maxDepth : Nat := 127

/-- Reads the document that a text starts with, and returns what follows it. -/
def readFirst? (depth : Nat) (text : String) : Option (Json × List Char) :=
  let input := text.toList
  readValue (input.length + 1) depth input

/-- Reads a text that holds one document and nothing else. -/
def read? (depth : Nat) (text : String) : Option Json := do
  let (value, rest) ← readFirst? depth text
  if skipBlanks rest = [] then some value else none

end OpTree.Json
