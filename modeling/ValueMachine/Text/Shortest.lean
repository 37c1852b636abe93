import ValueMachine.Data.Flex

/-! The shortest decimal digits that stand for a number.

A finite number is read back from every decimal that lies closer to it than to
its neighbours, and from the midpoints when its own significand is even. Of all
decimals that are read back as the number, one with the fewest digits is taken,
and of those the nearest one; of two that are equally near, the upper one.
The test is made on integers, on one grid of decimals after the other, from one
digit up to the seventeen that always suffice. -/
namespace ValueMachine

/-- The number `digits * 10 ^ exponent`. -/
structure Decimal where
  digits : Nat
  exponent : Int
deriving DecidableEq

namespace Decimal

/-- Moves zeros at the end of the digits into the exponent, at most so many. -/
def trim : Nat → Decimal → Decimal
  | 0, d => d
  | n + 1, d => if d.digits % 10 = 0 then trim n ⟨d.digits / 10, d.exponent + 1⟩ else d

end Decimal

namespace Shortest

/-- A positive number as a quotient, with the bounds between which a decimal is read
back as the number, over the same denominator. -/
structure Interval where
  num : Nat
  low : Nat
  high : Nat
  den : Nat
  /-- Whether the bounds belong to the interval. -/
  closed : Bool

/-- The interval of `m * 2 ^ (scale - 1074)`. Below a power of two the next number is
only half as far away as above it. -/
def interval (m scale : Nat) : Interval :=
  let gap := if m = Flex.hiddenBit ∧ 0 < scale then 1 else 2
  let unit := 1 <<< scale
  { num := 4 * m * unit
    low := (4 * m - gap) * unit
    high := (4 * m + 2) * unit
    den := 1 <<< 1076
    closed := m % 2 = 0 }

/-- The least power of ten, of so many, that takes the quotient to one or more. -/
def leadingZeros : Nat → Nat → Nat → Nat
  | 0, _, _ => 0
  | n + 1, num, den => if den ≤ num then 0 else leadingZeros n (num * 10) den + 1

/-- The place `k` for which the number lies below `10 ^ k` and not below
`10 ^ (k - 1)`. -/
def magnitude (num den : Nat) : Int :=
  if den ≤ num then (Nat.toDigits 10 (num / den)).length
  else 1 - (leadingZeros 400 num den : Int)

/-- Whether the decimal `d * 10 ^ e` is read back as the number. -/
def Interval.contains (i : Interval) (d : Nat) (e : Int) : Bool :=
  -- Both sides are multiplied by `den * 10 ^ (-e)`.
  let value := d * i.den * Nat.pow 10 e.toNat
  let low := i.low * Nat.pow 10 (-e).toNat
  let high := i.high * Nat.pow 10 (-e).toNat
  if i.closed then low ≤ value && value ≤ high else low < value && value < high

/-- The decimal of exponent `e` that is read back as the number, if there is one: one
of the two neighbours of the number, the nearer if both will do. -/
def onGrid (i : Interval) (e : Int) : Option Decimal :=
  let num := i.num * Nat.pow 10 (-e).toNat
  let den := i.den * Nat.pow 10 e.toNat
  let below := num / den
  let above := below + 1
  match i.contains below e, i.contains above e with
  | true, true => some ⟨if 2 * (num % den) < den then below else above, e⟩
  | true, false => some ⟨below, e⟩
  | false, true => some ⟨above, e⟩
  | false, false => none

/-- Tries so many grids, each ten times finer than the one before. -/
def search : Nat → Interval → Int → Decimal
  | 0, i, e => ⟨i.num * Nat.pow 10 (-e).toNat / (i.den * Nat.pow 10 e.toNat), e⟩
  | n + 1, i, e => (onGrid i e).getD (search n i (e - 1))

end Shortest

/-- The shortest decimal of the magnitude of a finite number other than zero. -/
def Flex.shortest (x : Flex) : Decimal :=
  let i := Shortest.interval x.significand x.scale
  Decimal.trim 20 (Shortest.search 17 i (Shortest.magnitude i.num i.den - 1))

end ValueMachine
