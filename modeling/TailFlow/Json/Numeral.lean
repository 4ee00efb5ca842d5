import TailFlow.Numeric.Decimal

/-!
# Numerals

A number in a document is kept as it is written: the sign, the whole part, the digits after the
point and the exponent. What it is worth depends on who reads it. An identifier takes only whole
numerals of 64 bits. A float is first made a double, out of the leading digits that fit 64 bits and
a power of ten, and then rounded; a numeral whose double would be infinite is worth nothing.
-/

namespace TailFlow.Json

/-- A number as written. No digits after the point means that there is no point. -/
structure Numeral where
  negative : Bool
  whole : Nat
  fraction : List Nat
  exponent : Option Int
  deriving DecidableEq, Repr

namespace Numeral

def ofNat (n : Nat) : Numeral := ⟨false, n, [], none⟩

/-- The number that a list of digits spells. -/
def spell (digits : List Nat) : Nat := digits.foldl (fun value digit => value * 10 + digit) 0

/-- The least and the greatest exponent of a single that is written in positional notation. -/
def positionalExponents : Int × Int := (-6, 12)

/-- The numeral of a finite single: the shortest digits that read back, and always a point or an
exponent. -/
def ofFinite (number : Binary32.FiniteNumber) : Numeral :=
  let decimal := Decimal.shortest .toEven number
  if positionalExponents.1 ≤ decimal.exponent && decimal.exponent ≤ positionalExponents.2 then
    let (whole, fraction) := decimal.positional
    ⟨number.negative, spell whole, if fraction.isEmpty then [0] else fraction, none⟩
  else ⟨number.negative, spell (decimal.digits.take 1), decimal.digits.drop 1,
    some decimal.exponent⟩

def text (numeral : Numeral) : String :=
  (if numeral.negative then "-" else "") ++ toString numeral.whole
    ++ (if numeral.fraction.isEmpty then "" else "." ++ Decimal.digitText numeral.fraction)
    ++ match numeral.exponent with
      | none => ""
      | some exponent => (if exponent < 0 then "e-" else "e+") ++ toString exponent.natAbs

/-- Whether the numeral is written without a point and without an exponent. -/
def isWhole (numeral : Numeral) : Bool := numeral.fraction.isEmpty && numeral.exponent.isNone

/-- The natural below `2 ^ 64` that the numeral names. -/
def toNat? (numeral : Numeral) : Option Nat :=
  if numeral.isWhole && !numeral.negative && numeral.whole < wordCount then some numeral.whole
  else none

/-- Takes in digits as long as the number they spell fits 64 bits. Each digit lowers the power of
ten by one, and what does not fit is dropped. -/
def takeDigits : List Nat → Nat → Int → Nat × Int
  | [], significand, power => (significand, power)
  | digit :: rest, significand, power =>
    if significand * 10 + digit < wordCount then
      takeDigits rest (significand * 10 + digit) (power - 1)
    else (significand, power)

/-- The leading digits that fit 64 bits, and how many digits follow them. -/
def leadingDigits : Nat → Nat → Nat × Int
  | 0, whole => (whole, 0)
  | digits + 1, whole =>
    if whole < wordCount then (whole, 0)
    else
      let (leading, dropped) := leadingDigits digits (whole / 10)
      (leading, dropped + 1)

/-- The double of a number below `2 ^ 64`. -/
def doubleOfNat (n : Nat) : Float := Float.ofScientific n false 0

/-- The power of ten that is a double. -/
def powerOfTen (exponent : Nat) : Float := Float.ofScientific 1 false exponent

/-- The greatest power of ten that is a double has this exponent. -/
def greatestPower : Nat := 308

/-- Multiplies or divides by a power of ten in the arithmetic of doubles. A very small power takes
several divisions, of which a few leave nothing. -/
def scale : Nat → Float → Int → Option Float
  | 0, value, _ => some value
  | divisions + 1, value, power =>
    if power.natAbs ≤ greatestPower then
      if 0 ≤ power then
        let product := value * powerOfTen power.natAbs
        if product.isInf then none else some product
      else some (value / powerOfTen power.natAbs)
    else if value == 0 then some value
    else if 0 ≤ power then none
    else scale divisions (value / powerOfTen greatestPower) (power + greatestPower)

/-- The double that the numeral is worth, if it is finite. -/
def toDouble? (numeral : Numeral) : Option Float :=
  let (leading, dropped) := leadingDigits (Decimal.digitsOf numeral.whole).length numeral.whole
  let (significand, power) := takeDigits numeral.fraction leading dropped
  (scale 8 (doubleOfNat significand) (power + numeral.exponent.getD 0)).map fun magnitude =>
    if numeral.negative then -magnitude else magnitude

/-- The single that the numeral is worth. A whole numeral that a 64-bit integer holds is rounded
once, any other is rounded from its double. -/
def toSingle? (numeral : Numeral) : Option Float32 :=
  if numeral.isWhole && !numeral.negative && numeral.whole < wordCount then
    some (Binary32.ofNat numeral.whole)
  else if numeral.isWhole && numeral.whole != 0 && numeral.whole ≤ twoTo 63 then
    some (Binary32.nearest ⟨numeral.negative, numeral.whole, 0⟩)
  else numeral.toDouble?.map Binary32.ofDouble

end Numeral

end TailFlow.Json
