/-!
# Decimals

The number `digits * 10 ^ exponent`, and the way from a binary number `m * 2 ^ e` to the decimal
that is written for it: the fewest digits that read back as the same number.

* `Decimal.powerOfTwo` and `Decimal.exact`, the decimals equal to a binary number;
* `Decimal.neighbours`, the two decimals next to a decimal on a coarser grid, and
  `Decimal.roundsTo`, the test whether a decimal reads back as a binary number;
* `Decimal.shortest`, the first neighbour of the exact decimal that reads back;
* `Decimal.positional` and `Decimal.scientific`, the two ways to write a decimal.
-/

namespace StepLisp

open Float.Model (UnpackedFloat Format)

/-- The number `digits * 10 ^ exponent`. -/
structure Decimal where
  digits : Nat
  exponent : Int
deriving DecidableEq, Repr, Inhabited

namespace Decimal

/-- The decimal equal to `2 ^ e`. -/
def powerOfTwo : Int → Decimal
  | .ofNat k => ⟨Nat.pow 2 k, 0⟩
  | .negSucc k => ⟨Nat.pow 5 (k + 1), .negSucc k⟩

/-- The decimal equal to `m * 2 ^ e`, in units of which `2 ^ (e - 1)` is a whole number. -/
def exact (m : Nat) (e : Int) : Decimal :=
  let half := powerOfTwo (e - 1)
  ⟨2 * m * half.digits, half.exponent⟩

/-- The same number without zeros at the end of its digits. -/
def reduce (d : Decimal) : Decimal :=
  if d.digits ≠ 0 ∧ d.digits % 10 = 0 then reduce ⟨d.digits / 10, d.exponent + 1⟩ else d
termination_by d.digits
decreasing_by exact Nat.div_lt_self (by omega) (by omega)

def length (d : Decimal) : Nat := d.digits.repr.length

/-- The decimals next to `d` when its last `cut` digits are given up, the nearer one first, as far
as they are at most `reach` units of `d` away. A number halfway between them counts as nearer to the
larger. -/
def neighbours (d : Decimal) (reach cut : Nat) : List Decimal :=
  let unit := Nat.pow 10 cut
  let above := d.digits % unit
  let low : Nat × Decimal := (above, ⟨d.digits / unit, d.exponent + cut⟩)
  let high : Nat × Decimal := (unit - above, ⟨d.digits / unit + 1, d.exponent + cut⟩)
  let ordered := if 2 * above < unit then [low, high] else [high, low]
  (ordered.filter fun candidate => candidate.1 ≤ reach).map fun candidate => candidate.2

/-- Whether the binary number closest to `d` is `m * 2 ^ e`. -/
def roundsTo (d : Decimal) (m : Nat) (e : Int) : Bool :=
  match UnpackedFloat.ofScientific Format.binary64 d.digits d.exponent with
  | .finite _ m' e' _ => m' == m && e' == e
  | _ => false

/-- The decimal with the fewest digits that reads back as `m * 2 ^ e`. Only decimals within half the
distance to the next binary number, `2 ^ (e - 1)`, can do so. Seventeen digits are always enough;
with more than that the number itself is taken. -/
def shortest (m : Nat) (e : Int) : Decimal :=
  let d := exact m e
  let reach := (powerOfTwo (e - 1)).digits
  let length := d.length
  let found := (List.range 17).findSome? fun i =>
    ((d.neighbours reach (length - (i + 1))).map reduce).find? (·.roundsTo m e)
  found.getD d.reduce

/-- The place of the leading digit: zero for the units, one for the tens. -/
def magnitude (d : Decimal) : Int := d.exponent + d.length - 1

/-- A decimal in positional form, with `whole` behind it if it needs no point. -/
def positional (whole : String) (d : Decimal) : String :=
  match d.exponent with
  | .ofNat k => d.digits.repr ++ String.ofList (List.replicate k '0') ++ whole
  | .negSucc k =>
    let digits := d.digits.repr.toList
    let padded := List.replicate (k + 2 - digits.length) '0' ++ digits
    let point := padded.length - (k + 1)
    String.ofList (padded.take point) ++ "." ++ String.ofList (padded.drop point)

/-- A decimal with one digit before the point and a power of ten. -/
def scientific (d : Decimal) : String :=
  match d.digits.repr.toList with
  | [] => ""
  | c :: rest =>
    String.ofList (c :: if rest.isEmpty then [] else '.' :: rest) ++ "e" ++ d.magnitude.repr

end Decimal

end StepLisp
