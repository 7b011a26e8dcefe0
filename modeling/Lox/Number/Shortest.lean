/-!
# The shortest decimal that reads back

A finite binary64 number is `m * 2 ^ q`. Every real between the midpoints to its two neighbours
rounds to it, the midpoints included when `m` is even. Among the decimals in that interval this
module picks the one with the fewest digits and, of those, the one nearest to the number; of two
equally near ones it picks the larger. All arithmetic is exact.
-/

namespace Lox

/-- The decimal `digits * 10 ^ exponent`. -/
structure Decimal where
  digits : Nat
  exponent : Int
  deriving DecidableEq, Repr

/-- What the bits of a number say: no number, an infinity, or `significand * 2 ^ exponent`. -/
inductive Magnitude
  | notANumber
  | infinite (negative : Bool)
  | finite (negative : Bool) (significand : Nat) (exponent : Int)
  deriving DecidableEq, Repr

namespace Magnitude

/-- Reads the sign, the eleven exponent bits and the fifty-two fraction bits of a number. -/
def ofBits (bits : Nat) : Magnitude :=
  let negative := bits / Nat.pow 2 63 % 2 == 1
  let exponent : Nat := bits / Nat.pow 2 52 % Nat.pow 2 11
  let fraction : Nat := bits % Nat.pow 2 52
  if exponent == Nat.pow 2 11 - 1 then
    if fraction == 0 then .infinite negative else .notANumber
  else if exponent == 0 then .finite negative fraction (-1074)
  else .finite negative (Nat.pow 2 52 + fraction) ((exponent : Int) - 1075)

end Magnitude

/-- The reals that round to one number, in quarters of its last binary place. -/
structure RoundingInterval where
  low : Nat
  value : Nat
  high : Nat
  /-- Both ends belong to the interval. -/
  closed : Bool
  /-- The quarter of the last binary place is `2 ^ exponent`. -/
  exponent : Int
  deriving DecidableEq, Repr

namespace RoundingInterval

/-- The interval of `significand * 2 ^ exponent`. Just above a power of two the gap to the
neighbour below is half as wide, except among the smallest numbers. -/
def ofFinite (significand : Nat) (exponent : Int) : RoundingInterval :=
  let narrow := significand == Nat.pow 2 52 && decide (-1074 < exponent)
  { low := 4 * significand - (if narrow then 1 else 2)
    value := 4 * significand
    high := 4 * significand + 2
    closed := significand % 2 == 0
    exponent := exponent - 2 }

/-- With `scale = (a, b)` the point `n` of the interval's scale stands at `n * a / b` on the grid of
the multiples of `10 ^ place`. -/
def scale (i : RoundingInterval) (place : Int) : Nat × Nat :=
  (Nat.pow 2 i.exponent.toNat * Nat.pow 10 (-place).toNat,
    Nat.pow 2 (-i.exponent).toNat * Nat.pow 10 place.toNat)

/-- The interval holds the grid point `n * 10 ^ place`, whose scale is given. -/
def holds (i : RoundingInterval) (scale : Nat × Nat) (n : Nat) : Bool :=
  let point := n * scale.2
  if i.closed then i.low * scale.1 ≤ point && point ≤ i.high * scale.1
  else i.low * scale.1 < point && point < i.high * scale.1

/-- The point of the grid of the multiples of `10 ^ place` in the interval that is nearest to the
value, if the interval holds a point of the grid. Only the two neighbours of the value matter. -/
def nearest? (i : RoundingInterval) (place : Int) : Option Nat :=
  let scale := i.scale place
  let below := i.value * scale.1 / scale.2
  let excess := i.value * scale.1 - below * scale.2
  match i.holds scale below, i.holds scale (below + 1) with
  | true, true => some (if scale.2 ≤ 2 * excess then below + 1 else below)
  | true, false => some below
  | false, true => some (below + 1)
  | false, false => none

/-- A power of ten above the whole interval. -/
def startPlace (i : RoundingInterval) : Int :=
  let bits : Int := i.exponent + (i.high.log2 + 1 : Nat)
  if 0 ≤ bits then bits * 31 / 100 + 1 else bits * 3 / 10 + 1

/-- Walks from coarse grids to fine ones and stops at the first with a point in the interval. -/
def search (i : RoundingInterval) : Nat → Int → Decimal
  | 0, place => ⟨i.value * (i.scale place).1 / (i.scale place).2, place⟩
  | steps + 1, place =>
      match i.nearest? place with
      | some n => ⟨n, place⟩
      | none => search i steps (place - 1)

end RoundingInterval

/-- The shortest decimal that reads back as `significand * 2 ^ exponent`. -/
def Decimal.shortest (significand : Nat) (exponent : Int) : Decimal :=
  let i := RoundingInterval.ofFinite significand exponent
  i.search 400 i.startPlace

end Lox
