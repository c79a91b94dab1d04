import StepLisp.Number.Decimal

/-!
# The text of a number

Numbers are binary floating-point numbers of 64 bits, written with the fewest digits that read back.

* `NumberFormat`, the choices a format makes, and `NumberFormat.write`;
* `NumberFormat.plain`, the format of values and of source text, and `NumberFormat.detailed`, the
  format of inspections;
* `numberText`, the plain text of a number.
-/

namespace StepLisp

open Float.Model (UnpackedFloat)

/-- How numbers are written. -/
structure NumberFormat where
  /-- What stands behind a whole number in positional form. -/
  whole : String
  /-- Which places of the leading digit are written in positional form. -/
  isPositional : Int → Bool

namespace NumberFormat

/-- Always positional, and a whole number has no point. -/
def plain : NumberFormat := ⟨"", fun _ => true⟩

/-- Positional from one ten-thousandth up to below ten to the sixteenth; a whole number ends in
`.0`. -/
def detailed : NumberFormat := ⟨".0", fun place => -4 ≤ place && place < 16⟩

/-- The minus sign of a negative number. -/
def signText : UnpackedFloat.Sign → String
  | .negative => "-"
  | .positive => ""

/-- The text of a positive decimal. -/
def writeDecimal (f : NumberFormat) (d : Decimal) : String :=
  if f.isPositional d.magnitude then d.positional f.whole else d.scientific

/-- The text of an unpacked number. -/
def writeUnpacked (f : NumberFormat) : UnpackedFloat → String
  | .notANumber => "NaN"
  | .infinity s => signText s ++ "inf"
  | .zero s => signText s ++ "0" ++ f.whole
  | .finite s m e _ => signText s ++ f.writeDecimal (.shortest m e)

/-- The text of a number. What is not a number has no sign, and zero keeps its sign. -/
def write (f : NumberFormat) (x : Float) : String := f.writeUnpacked x.toModel.unpack

end NumberFormat

/-- The plain text of a number. -/
def numberText (x : Float) : String := NumberFormat.plain.write x

end StepLisp
