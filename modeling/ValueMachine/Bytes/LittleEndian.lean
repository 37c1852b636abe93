/-! Numbers as bytes, the least significant byte first. -/
namespace ValueMachine

namespace LittleEndian

/-- The low `width` bytes of a number. -/
def encode : Nat → Nat → List UInt8
  | 0, _ => []
  | width + 1, n => n.toUInt8 :: encode width (n / 256)

/-- The number with the given bytes. -/
def decode : List UInt8 → Nat
  | [] => 0
  | b :: rest => b.toNat + 256 * decode rest

theorem length_encode (width n : Nat) : (encode width n).length = width := by
  induction width generalizing n with
  | zero => rfl
  | succ width ih => simp [encode, ih]

end LittleEndian

/-- Four bytes. -/
def encodeWord (x : UInt32) : List UInt8 := LittleEndian.encode 4 x.toNat

/-- Eight bytes. -/
def encodeLong (x : UInt64) : List UInt8 := LittleEndian.encode 8 x.toNat

/-- A count and then the items, four bytes each. -/
def encodeWords (xs : List UInt32) : List UInt8 :=
  LittleEndian.encode 4 xs.length ++ xs.flatMap encodeWord

end ValueMachine
