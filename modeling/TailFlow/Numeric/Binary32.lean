import TailFlow.Numeric.Power

/-!
# Single precision floats as numbers

Every finite single is a whole number times a power of two. Reading a single means taking these two
parts out of its bits, and making one means rounding such a product to the nearest single, ties to
an even last bit. Both directions are arithmetic on naturals, so nothing here depends on a float
operation.
-/

namespace TailFlow.Binary32

/-- The number `significand * 2 ^ exponent`, with its sign. -/
structure FiniteNumber where
  negative : Bool
  significand : Nat
  exponent : Int
  deriving DecidableEq, Repr

/-- What a float stands for. -/
inductive Meaning where
  | finite (number : FiniteNumber)
  | infinite (negative : Bool)
  | notANumber
  deriving DecidableEq, Repr

/-- The least exponent a single can have. -/
def leastExponent : Int := -149

/-- Reads a single. A normal single has its leading bit restored. -/
def meaning (x : Float32) : Meaning :=
  let bits := x.toBits.toNat
  let negative : Bool := twoTo 31 ≤ bits
  let field : Nat := bits / twoTo 23 % twoTo 8
  let fraction : Nat := bits % twoTo 23
  if field = 255 then if fraction = 0 then .infinite negative else .notANumber
  else if field = 0 then .finite ⟨negative, fraction, leastExponent⟩
  else .finite ⟨negative, twoTo 23 + fraction, leastExponent + field - 1⟩

/-- Divides, rounding to the nearest whole number and a half to the even neighbour. -/
def divideToEven (numerator denominator : Nat) : Nat :=
  let quotient := numerator / denominator
  let remainder := numerator % denominator
  if 2 * remainder < denominator then quotient
  else if denominator < 2 * remainder then quotient + 1
  else quotient + quotient % 2

/-- The single nearest to such a number; past the greatest one it is infinite. The bits of the
exponent and of the significand are added, so a significand that rounds up to the next power of two
carries into the exponent by itself. -/
def nearest (number : FiniteNumber) : Float32 :=
  let leading := (Nat.log2 number.significand : Int) + number.exponent
  let quantum := max (leading - 23) leastExponent
  let shift := quantum - number.exponent
  let rounded :=
    if shift ≤ 0 then number.significand * twoTo (-shift).toNat
    else divideToEven number.significand (twoTo shift.toNat)
  let magnitude :=
    if number.significand = 0 then 0
    else min ((quantum - leastExponent).toNat * twoTo 23 + rounded) 0x7f800000
  let sign := if number.negative then twoTo 31 else 0
  Float32.ofBits (UInt32.ofNat (sign + magnitude))

def ofNat (n : Nat) : Float32 := nearest ⟨false, n, 0⟩

def ofDouble (x : Float) : Float32 :=
  let bits := x.toBits.toNat
  let negative : Bool := twoTo 63 ≤ bits
  let field : Nat := bits / twoTo 52 % twoTo 11
  let fraction : Nat := bits % twoTo 52
  if field = 2047 then
    if fraction = 0 then Float32.ofBits (if negative then 0xff800000 else 0x7f800000)
    else Float32.ofBits 0x7fc00000
  else if field = 0 then nearest ⟨negative, fraction, -1074⟩
  else nearest ⟨negative, twoTo 52 + fraction, (field : Int) - 1075⟩

/-- The whole number a single stands for, if it is one and not below zero. -/
def toNat? (x : Float32) : Option Nat :=
  match meaning x with
  | .finite ⟨negative, significand, exponent⟩ =>
    if negative && significand != 0 then none
    else if 0 ≤ exponent then some (significand * twoTo exponent.toNat)
    else if significand % twoTo (-exponent).toNat = 0 then
      some (significand / twoTo (-exponent).toNat)
    else none
  | _ => none

end TailFlow.Binary32
