/-! # Decimal numerals of floats

An integral float is written with all its digits. Any other finite float is written with the fewest
digits that only it rounds from; among several such numerals the nearest is taken, and the larger
one if two are equally near. There is never an exponent.
-/

namespace LispMachine.Decimal

/-- A positive real `mantissa * 2 ^ exponent`. The reals that round to it reach half a unit of the
mantissa up and down, or a quarter down if it is `narrow`, that is, if it is the least of its
binade. The ends belong to them if the mantissa is even. -/
structure Dyadic where
  mantissa : Nat
  exponent : Int
  narrow : Bool := false

/-- The power of `b` to the exponent `e`, or one if that is negative. -/
def power (b : Nat) (e : Int) : Nat := b.pow e.toNat

namespace Dyadic

variable (x : Dyadic)

def isIntegral : Bool := 0 ≤ x.exponent || x.mantissa % power 2 (-x.exponent) == 0

def floor : Nat := x.mantissa * power 2 x.exponent / power 2 (-x.exponent)

/-- What one unit of the decimal grid `10 ^ g` and one quarter of the mantissa's unit measure
against each other: `fst` quarters weigh as much as `snd` units of the grid. -/
def scale (g : Int) : Nat × Nat :=
  let e := x.exponent - 2
  (power 10 g * power 2 (-e), power 10 (-g) * power 2 e)

/-- Whether `d * 10 ^ g` rounds to `x`. -/
def covers (d : Nat) (g : Int) : Bool :=
  let (grid, quarter) := x.scale g
  let low := (4 * x.mantissa - if x.narrow then 1 else 2) * quarter
  let high := (4 * x.mantissa + 2) * quarter
  if x.mantissa % 2 = 0 then low ≤ d * grid && d * grid ≤ high
  else low < d * grid && d * grid < high

/-- The number of units `10 ^ g` that rounds to `x` and is nearest to it, if there is one: `x` lies
between two neighbours on the grid. -/
def onGrid? (g : Int) : Option Nat :=
  let (grid, quarter) := x.scale g
  let value := 4 * x.mantissa * quarter
  let d := value / grid
  match x.covers d g, x.covers (d + 1) g with
  | true, true => some (if 2 * value < (2 * d + 1) * grid then d else d + 1)
  | true, false => some d
  | false, true => some (d + 1)
  | false, false => none

/-- Tries `n` grids from `10 ^ g` down and then the one on which `x` itself lies. -/
def search : Nat → Int → Nat × Int
  | 0, _ => (x.mantissa * power 2 x.exponent * power 5 (-x.exponent), min x.exponent 0)
  | n + 1, g =>
    match x.onGrid? g with
    | some d => (d, g)
    | none => search n (g - 1)

/-- The digits and the power of ten of the shortest numeral. -/
def shortest : Nat × Int :=
  let top := (Nat.toDigits 10 x.floor).length
  x.search ((top : Int) - min x.exponent 0).toNat top

end Dyadic

def positional (d : Nat) (g : Int) : String :=
  let places := (-g).toNat
  let digits := Nat.toDigits 10 (d * power 10 g)
  let padded := List.replicate (places + 1 - digits.length) '0' ++ digits
  let (whole, fraction) := padded.splitAt (padded.length - places)
  String.ofList (if fraction.isEmpty then whole else whole ++ '.' :: fraction)

/-- The numeral of a float, by its sign, its 11 bits of exponent and its 52 bits of fraction. -/
def text (x : Float) : String :=
  let bits := x.toBits.toNat
  let sign := if bits / 0x8000000000000000 = 1 then "-" else ""
  let exponent : Nat := bits / 0x10000000000000 % 0x800
  let fraction := bits % 0x10000000000000
  if exponent = 0x7ff then
    if fraction = 0 then sign ++ "inf" else "NaN"
  else
    let y : Dyadic :=
      if exponent = 0 then ⟨fraction, -1074, false⟩
      else ⟨0x10000000000000 + fraction, (exponent : Int) - 1075, fraction = 0 && 1 < exponent⟩
    if y.isIntegral then sign ++ toString y.floor ++ ".0"
    else sign ++ positional y.shortest.1 y.shortest.2

end LispMachine.Decimal
