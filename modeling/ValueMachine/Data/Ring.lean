/-! Ring values: the integers below a power of two.

A value of width `bits` lies below `2 ^ bits`. Arithmetic is computed on 64 bits,
which loses nothing, and cut back to the width. -/
namespace ValueMachine

/-- The five operators on numbers. -/
inductive ArithOp
  | add
  | sub
  | mul
  | div
  | rem
deriving DecidableEq

namespace Ring

/-- The widths that a ring may have. -/
def IsWidth (bits : UInt8) : Prop := 1 ≤ bits ∧ bits ≤ 64

instance (bits : UInt8) : Decidable (IsWidth bits) := inferInstanceAs (Decidable (_ ∧ _))

/-- Keeps the low `bits` bits. -/
def truncate (bits : UInt8) (x : UInt64) : UInt64 :=
  if 64 ≤ bits then x else x % (1 <<< bits.toUInt64)

/-- Applies an operator at width `bits`. Only division and remainder by zero have
no result. -/
def arith? (op : ArithOp) (bits : UInt8) (x y : UInt64) : Option UInt64 :=
  match op with
  | .add => some (truncate bits (x + y))
  | .sub => some (truncate bits (x - y))
  | .mul => some (truncate bits (x * y))
  | .div => if y = 0 then none else some (truncate bits (x / y))
  | .rem => if y = 0 then none else some (truncate bits (x % y))

end Ring

end ValueMachine
