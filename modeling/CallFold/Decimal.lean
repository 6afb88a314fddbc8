/-!
# Decimal text of binary floating-point numbers

The text of a number is the shortest decimal that reads back as the same number, and of the
shortest ones the nearest; between two equally near ones it is the larger. It is written
positionally, whatever its size.

A number is given by its bits. Finite ones are `m · 2^q`; the reals that round to such a number
form an interval around it, and everything is compared in exact arithmetic on natural numbers.
-/

namespace CallFold.Decimal

/-- The layout of a binary format: sign, exponent and fraction bits, in this order. -/
structure BinaryFormat where
  exponentBits : Nat
  fractionBits : Nat

/-- The 32-bit format. -/
def binary32 : BinaryFormat := ⟨8, 23⟩

/-- The 64-bit format. -/
def binary64 : BinaryFormat := ⟨11, 52⟩

/-- The magnitude of a number. -/
inductive Magnitude where
  | notANumber
  | infinite
  | zero
  | finite (significand : Nat) (exponent : Int) (narrowBelow : Bool)

/-- Whether the sign bit is set. -/
def BinaryFormat.isNegative (f : BinaryFormat) (bits : Nat) : Bool :=
  bits.testBit (f.exponentBits + f.fractionBits)

/--
Reads the exponent and fraction bits. The neighbour below is at half the distance of the one above
exactly when the fraction is zero and the exponent is not the least one.
-/
def BinaryFormat.magnitude (f : BinaryFormat) (bits : Nat) : Magnitude :=
  let implicit := Nat.pow 2 f.fractionBits
  let fields := Nat.pow 2 f.exponentBits
  let fraction := bits % implicit
  let field := bits / implicit % fields
  let least : Int := 2 - (fields / 2 : Nat) - f.fractionBits
  if field = fields - 1 then
    if fraction = 0 then .infinite else .notANumber
  else if field = 0 then
    if fraction = 0 then .zero else .finite fraction least false
  else
    .finite (implicit + fraction) (least + (field - 1 : Nat)) (fraction = 0 && field ≠ 1)

/--
The interval of the reals that round to `m · 2^q`, in units of `2^(q - 2)`: the number itself is
`4 m`. Its ends belong to it exactly when `m` is even.
-/
structure Interval where
  low : Nat
  value : Nat
  high : Nat
  closed : Bool

/-- The interval around a finite number. -/
def intervalOf (significand : Nat) (narrowBelow : Bool) : Interval where
  low := 4 * significand - (if narrowBelow then 1 else 2)
  value := 4 * significand
  high := 4 * significand + 2
  closed := significand % 2 = 0

/-- Compares two bounds, strictly or not. -/
def below (closed : Bool) (a b : Nat) : Bool :=
  if closed then a ≤ b else a < b

/--
Looks for a multiple of `10^k` in the interval, whose unit is `2^q`. Only the two multiples next to
the value can be the nearest one; of two hits the nearer one wins, and a tie goes up.
-/
def nearestMultiple (i : Interval) (q k : Int) : Option Nat :=
  let scale (x : Nat) : Nat := x * Nat.pow 2 q.toNat * Nat.pow 10 (-k).toNat
  let unit : Nat := Nat.pow 2 (-q).toNat * Nat.pow 10 k.toNat
  let down := scale i.value / unit
  let downHit := below i.closed (scale i.low) (down * unit) && down ≠ 0
  let upHit := below i.closed ((down + 1) * unit) (scale i.high)
  if downHit && upHit then
    let gapDown := scale i.value - down * unit
    let gapUp := (down + 1) * unit - scale i.value
    some (if gapDown < gapUp then down else down + 1)
  else if downHit then some down
  else if upHit then some (down + 1)
  else none

/--
The shortest decimal `c · 10^k` for `m · 2^q`. The powers of ten are tried downwards from one above
the value; the first with a hit has the fewest digits. The number itself is a multiple of
`10^(min (q - 2) 0)`, so the search ends there at the latest.
-/
def shortest (significand : Nat) (exponent : Int) (narrowBelow : Bool) : Nat × Int :=
  let interval := intervalOf significand narrowBelow
  let q := exponent - 2
  let top : Int := (exponent + significand.log2 + 1).toNat
  let steps := (top - min q 0).toNat + 1
  let hit := (List.range steps).findSome? fun (step : Nat) =>
    let k := top - (step : Int)
    (nearestMultiple interval q k).map fun c => (c, k)
  hit.getD (significand, 0)

/-- Writes `c · 10^k` with a decimal point where one is needed, and no exponent. -/
def positional (c : Nat) (k : Int) : String :=
  let digits := Nat.toDigits 10 c
  if 0 ≤ k then
    String.ofList (digits ++ List.replicate k.toNat '0')
  else
    let places := (-k).toNat
    let padded := List.replicate (places + 1 - digits.length) '0' ++ digits
    let whole := padded.length - places
    String.ofList (padded.take whole ++ '.' :: padded.drop whole)

/-- The text of the number with the given bits. Only a number has a sign. -/
def render (f : BinaryFormat) (bits : Nat) : String :=
  let sign := if f.isNegative bits then "-" else ""
  match f.magnitude bits with
  | .notANumber => "NaN"
  | .infinite => sign ++ "inf"
  | .zero => sign ++ "0"
  | .finite significand exponent narrowBelow =>
    let (c, k) := shortest significand exponent narrowBelow
    sign ++ positional c k

end CallFold.Decimal
