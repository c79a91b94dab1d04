/-!
# Numerals

A numeral is an optional sign, digits with an optional point among, before or behind them, and an
optional power of ten: `12`, `-1.5`, `.5`, `7.`, `+2e10`, `1E-3`. It denotes the floating-point
number closest to the decimal it spells; beyond the largest of them lies infinity. Special numbers
have no spelling.

* `Numeral`, the parts of a numeral, and `Numeral.value`, the number it denotes;
* `Numeral.read?`, the numeral that a text spells.
-/

namespace StepLisp

/-- A numeral: its sign, its digits without the point, and the power of ten they are scaled by. -/
structure Numeral where
  negative : Bool
  digits : Nat
  exponent : Int
deriving DecidableEq, Repr, Inhabited

namespace Numeral

/-- The number a numeral denotes: the closest one to its decimal, with its sign. -/
def value (n : Numeral) : Float :=
  let magnitude := Float.ofModel (.ofScientific n.digits n.exponent)
  if n.negative then -magnitude else magnitude

/-- The number that ASCII digits spell. -/
def ofDigits (ds : List Char) : Nat := ds.foldl (fun n d => 10 * n + (d.toNat - '0'.toNat)) 0

/-- A sign at the head of a text, if there is one, and the rest. -/
def takeSign : List Char → Bool × List Char
  | '-' :: rest => (true, rest)
  | '+' :: rest => (false, rest)
  | cs => (false, cs)

/-- The digits behind a point at the head of a text, none if there is no point, and the rest. -/
def takeFraction : List Char → List Char × List Char
  | '.' :: rest => (rest.takeWhile Char.isDigit, rest.dropWhile Char.isDigit)
  | cs => ([], cs)

/-- The power of ten that a text spells: zero if it is empty, and otherwise an `e` with a signed
number behind it. -/
def readExponent? : List Char → Option Int
  | [] => some 0
  | c :: rest =>
    let (negative, digits) := takeSign rest
    if (c = 'e' || c = 'E') && !digits.isEmpty && digits.all Char.isDigit then
      let size : Int := ofDigits digits
      some (if negative then -size else size)
    else none

/-- The numeral that a text spells. -/
def readChars? (cs : List Char) : Option Numeral :=
  let (negative, unsigned) := takeSign cs
  let whole := unsigned.takeWhile Char.isDigit
  let (fraction, rest) := takeFraction (unsigned.dropWhile Char.isDigit)
  if whole.isEmpty && fraction.isEmpty then none
  else (readExponent? rest).map fun exponent =>
    ⟨negative, ofDigits (whole ++ fraction), exponent - fraction.length⟩

/-- The number that a text spells as a numeral. -/
def read? (text : String) : Option Float := (readChars? text.toList).map value

end Numeral

end StepLisp
