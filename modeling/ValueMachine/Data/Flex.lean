import ValueMachine.Data.Ring

/-! Flex values: double-precision numbers with one bit pattern for each number.

Two patterns of a double may stand for the same thing: zero has two signs, and
there are many patterns that are not a number. A flex value keeps one of each, so
equal numbers have equal bits and a NaN equals itself as a stored value. The
remainder is computed exactly on the bits: it is the remainder of two integers
after both operands are written with the smaller exponent. -/
namespace ValueMachine

/-- The pattern that stands for the same number as `b`: the positive quiet NaN for
every NaN, and zero without its sign. -/
def canonicalBits (b : UInt64) : UInt64 :=
  if 0x7ff0000000000000 < b &&& 0x7fffffffffffffff then 0x7ff8000000000000
  else if b &&& 0x7fffffffffffffff = 0 then 0
  else b

theorem canonicalBits_idem (b : UInt64) : canonicalBits (canonicalBits b) = canonicalBits b := by
  simp only [canonicalBits]
  by_cases h : 0x7ff0000000000000 < b &&& 0x7fffffffffffffff
  · simp only [h, if_true]
    decide
  · by_cases h0 : b &&& 0x7fffffffffffffff = 0
    · simp only [h0, if_true]
      decide
    · simp only [h, h0, if_false]

/-- A double in its one canonical pattern. -/
@[ext] structure Flex where
  bits : UInt64
  canonical : canonicalBits bits = bits

namespace Flex

instance : DecidableEq Flex := fun x y =>
  if h : x.bits = y.bits then isTrue (Flex.ext h) else isFalse fun e => h (e ▸ rfl)

instance : Hashable Flex := ⟨fun x => hash x.bits⟩

def ofBits (b : UInt64) : Flex := ⟨canonicalBits b, canonicalBits_idem b⟩

def ofFloat (x : Float) : Flex := ofBits x.toBits

def toFloat (x : Flex) : Float := Float.ofBits x.bits

/-! ### The parts of a number -/

def isNegative (x : Flex) : Bool := 0x8000000000000000 ≤ x.bits

/-- The eleven bits of the exponent. -/
def exponentField (x : Flex) : Nat := (x.bits >>> 52 &&& 0x7ff).toNat

/-- The fifty-two bits of the fraction. -/
def fractionField (x : Flex) : Nat := (x.bits &&& 0xfffffffffffff).toNat

def isFinite (x : Flex) : Bool := x.exponentField < 0x7ff

def isNaN (x : Flex) : Bool := !x.isFinite && x.fractionField != 0

/-- The weight of the leading bit, which the fields leave out. -/
def hiddenBit : Nat := 1 <<< 52

/-- The integer `m` for which a finite number is `± m * 2 ^ (scale - 1074)`. -/
def significand (x : Flex) : Nat :=
  if x.exponentField = 0 then x.fractionField else x.fractionField + hiddenBit

/-- The scale that belongs to `significand`. -/
def scale (x : Flex) : Nat := x.exponentField - 1

def isZero (x : Flex) : Bool := x.isFinite && x.significand == 0

/-- The number not a number. -/
def nan : Flex := ofBits 0x7ff8000000000000

/-- The number `± m * 2 ^ (scale - 1074)`, for `m` below `2 ^ 53`. -/
def pack (negative : Bool) (m scale : Nat) : Flex :=
  -- The leading bit moves up to place 52, as far as the scale can go down.
  let lift := min (52 - m.log2) scale
  let m := m <<< lift
  let field := if m < hiddenBit then m else m - hiddenBit + (scale - lift + 1) * hiddenBit
  ofBits (field.toUInt64 ||| if negative then 0x8000000000000000 else 0)

/-- The remainder of a division toward zero; it has the sign of the dividend. -/
def rem (x y : Flex) : Flex :=
  if x.isNaN || y.isNaN || !x.isFinite || y.isZero then nan
  else if !y.isFinite then x
  else
    let low := min x.scale y.scale
    let aligned (z : Flex) := z.significand <<< (z.scale - low)
    pack x.isNegative (aligned x % aligned y) low

def apply (op : ArithOp) (x y : Flex) : Flex :=
  match op with
  | .add => ofFloat (x.toFloat + y.toFloat)
  | .sub => ofFloat (x.toFloat - y.toFloat)
  | .mul => ofFloat (x.toFloat * y.toFloat)
  | .div => ofFloat (x.toFloat / y.toFloat)
  | .rem => rem x y

/-- Strict order; false when an operand is NaN. -/
def lt (x y : Flex) : Bool := x.toFloat < y.toFloat

/-- Weak order; false when an operand is NaN. -/
def le (x y : Flex) : Bool := x.toFloat ≤ y.toFloat

end Flex

end ValueMachine
