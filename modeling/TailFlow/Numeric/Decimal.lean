import TailFlow.Numeric.Binary32

/-!
# Decimal digits of a single

The reals that round to a finite single form an interval around it, and its shortest text is the
point of that interval with the fewest decimal digits, the nearest to the single where there are
several. If a decimal grid has a point in the interval then one of the two grid points next to the
single is in it, so the search looks at those two, from coarse grids to fine ones. Beside the
shortest digits there are the digits of a given count, rounded to even.
-/

namespace TailFlow

/-- The number written `d.ddd` times ten to the `exponent`, its digits the most significant
first. -/
structure Decimal where
  digits : List Nat
  exponent : Int
  deriving DecidableEq, Repr

/-- Which of two equally near candidates is taken. -/
inductive TieRule where
  | toEven
  | upward
  deriving DecidableEq, Repr

namespace Decimal

open Binary32

/-- The digits of a natural, the most significant first. -/
def digitsOf (n : Nat) : List Nat := (Nat.toDigits 10 n).map fun c => c.toNat - '0'.toNat

/-- Drops zeros at the end, but keeps the first digit. -/
def dropTrailingZeros : List Nat → List Nat
  | [] => []
  | digit :: rest =>
    match dropTrailingZeros rest with
    | [] => [digit]
    | [0] => [digit]
    | kept => digit :: kept

/-- The decimal `count * 10 ^ grid`. -/
def ofGrid (count : Nat) (grid : Int) : Decimal :=
  let digits := digitsOf count
  ⟨dropTrailingZeros digits, grid + digits.length - 1⟩

/-- The greatest power of ten that is not above `numerator / denominator`. -/
def leadingExponent (numerator denominator : Nat) : Int :=
  if denominator ≤ numerator then ((digitsOf (numerator / denominator)).length : Int) - 1
  else
    let places := (digitsOf (denominator / numerator)).length
    if denominator ≤ numerator * tenTo (places - 1) then -((places : Int) - 1) else -(places : Int)

/-- The numerator and denominator of `significand * 2 ^ exponent / 10 ^ grid`. -/
def scaled (significand : Nat) (exponent grid : Int) : Nat × Nat :=
  (significand * twoTo exponent.toNat * tenTo (-grid).toNat,
    twoTo (-exponent).toNat * tenTo grid.toNat)

/-- The interval of reals that round to a single, in quarters of its unit: its two ends, and
whether they belong to it. -/
def roundingInterval (number : FiniteNumber) : Nat × Nat × Bool :=
  let atPower := number.significand = twoTo 23 && number.exponent != leastExponent
  (4 * number.significand - (if atPower then 1 else 2), 4 * number.significand + 2,
    number.significand % 2 = 0)

/-- The one of the two neighbours of a positive single on a decimal grid that stands for it, if one
does. -/
def onGrid? (tie : TieRule) (number : FiniteNumber) (grid : Int) : Option Nat :=
  let (unit, spacing) := scaled 1 (number.exponent - 2) grid
  let (lower, upper, closed) := roundingInterval number
  let value := 4 * number.significand * unit
  let inside (count : Nat) : Bool :=
    if closed then lower * unit ≤ count * spacing && count * spacing ≤ upper * unit
    else lower * unit < count * spacing && count * spacing < upper * unit
  let below := value / spacing
  let above := below + 1
  if inside below then
    if inside above then
      let gapBelow := value - below * spacing
      let gapAbove := above * spacing - value
      if gapBelow < gapAbove then some below
      else if gapAbove < gapBelow then some above
      else match tie with
        | .upward => some above
        | .toEven => if below % 2 = 0 then some below else some above
    else some below
  else if inside above then some above
  else none

/-- Looks on finer and finer grids for the first point that stands for a positive single. -/
def searchGrids (tie : TieRule) (number : FiniteNumber) : Nat → Int → Decimal
  | 0, grid =>
    let (numerator, denominator) := scaled number.significand number.exponent grid
    ofGrid (divideToEven numerator denominator) grid
  | finer + 1, grid =>
    match onGrid? tie number grid with
    | some count => ofGrid count grid
    | none => searchGrids tie number finer (grid - 1)

/-- The shortest decimal that reads back as a finite single, its sign aside. Nine digits tell all
singles apart. -/
def shortest (tie : TieRule) (number : FiniteNumber) : Decimal :=
  if number.significand = 0 then ⟨[0], 0⟩
  else
    let (numerator, denominator) := scaled number.significand number.exponent 0
    searchGrids tie number 9 (leadingExponent numerator denominator)

/-- The decimal of a given number of digits nearest to a positive number, a half to the even
neighbour. Zeros at the end are kept. -/
def rounded (places : Nat) (number : FiniteNumber) : Decimal :=
  let (numerator, denominator) := scaled number.significand number.exponent 0
  let leading := leadingExponent numerator denominator
  let grid := leading - places + 1
  let (above, below) := scaled number.significand number.exponent grid
  let digits := digitsOf (divideToEven above below)
  ⟨digits.take places, grid + digits.length - 1⟩

def digitText (digits : List Nat) : String :=
  String.ofList (digits.map fun digit => Char.ofNat (digit + '0'.toNat))

/-- The digits before the point and those after it, in positional notation. -/
def positional (number : Decimal) : List Nat × List Nat :=
  if number.exponent < 0 then
    ([0], List.replicate (-number.exponent - 1).toNat 0 ++ number.digits)
  else
    let places := number.exponent.toNat + 1
    (number.digits.take places ++ List.replicate (places - number.digits.length) 0,
      number.digits.drop places)

/-- Positional text, without a point where nothing follows it. -/
def plainText (number : Decimal) : String :=
  match number.positional with
  | (whole, []) => digitText whole
  | (whole, fraction) => digitText whole ++ "." ++ digitText fraction

/-- Scientific text: one digit, a point, the other digits, `e` and the exponent. -/
def scientificText (number : Decimal) : String :=
  digitText (number.digits.take 1) ++ "." ++ digitText (number.digits.drop 1) ++ "e"
    ++ toString number.exponent

end Decimal

/-- A single as messages show it: the shortest digits in positional notation. -/
def singleText (x : Float32) : String :=
  match Binary32.meaning x with
  | .notANumber => "NaN"
  | .infinite negative => if negative then "-inf" else "inf"
  | .finite number =>
    (if number.negative then "-" else "") ++ (Decimal.shortest .upward number).plainText

/-- A single that is not negative, in scientific notation with four digits. -/
def singleScientific (x : Float32) : String :=
  match Binary32.meaning x with
  | .notANumber => "NaN"
  | .infinite _ => "inf"
  | .finite number =>
    if number.significand = 0 then "0.000e0" else (Decimal.rounded 4 number).scientificText

end TailFlow
