import ValueMachine.Bytes.LittleEndian

/-! Reading bytes front to back.

A read that fails leaves the reader where the failing part began, so parts read
before it stay read. Counts are checked against the bytes that are left before
any item is read. -/
namespace ValueMachine

/-- The tables whose entries are written with a tag. -/
inductive TagTable
  | shape
  | value
  | charWidth
deriving DecidableEq

def TagTable.label : TagTable → String
  | shape => "shape"
  | value => "value"
  | charWidth => "char width"

/-- Why bytes could not be read. -/
inductive DecodeError
  | unexpectedEnd
  /-- A length that cannot be satisfied by what is left. -/
  | outOfBounds
  | invalidText
  | invalidChar (code : UInt32)
  | unknownOpcode (byte : UInt8)
  | unknownTag (table : TagTable) (tag : UInt8)
deriving DecidableEq

namespace DecodeError

/-- Lower-case hexadecimal digits, at least so many. -/
def hex (width n : Nat) : String :=
  let digits := Nat.toDigits 16 n
  "0x" ++ String.ofList (List.replicate (width - digits.length) '0' ++ digits)

def message : DecodeError → String
  | unexpectedEnd => "unexpected end of input"
  | outOfBounds => "out of bounds"
  | invalidText => "invalid UTF-8"
  | invalidChar code => "invalid char " ++ hex 1 code.toNat
  | unknownOpcode byte => "unknown opcode " ++ hex 2 byte.toNat
  | unknownTag table tag => "unknown " ++ table.label ++ " tag " ++ toString tag.toNat

end DecodeError

/-- Bytes that are being read. -/
structure Reader where
  /-- How many bytes have been read. -/
  offset : Nat
  rest : List UInt8
  /-- How many bytes are left, kept so that it need not be counted again. -/
  left : Nat
  left_eq : left = rest.length

def Reader.ofBytes (bytes : List UInt8) : Reader := ⟨0, bytes, bytes.length, rfl⟩

/-- A computation that reads bytes. -/
abbrev Read := EStateM DecodeError Reader

namespace Read

/-- The next `n` bytes. -/
def take (n : Nat) : Read (List UInt8) := fun r =>
  if n ≤ r.left then
    .ok (r.rest.take n)
      ⟨r.offset + n, r.rest.drop n, r.left - n, by rw [List.length_drop, r.left_eq]⟩
  else .error .unexpectedEnd r

def byte : Read UInt8 := return (LittleEndian.decode (← take 1)).toUInt8

/-- A number of four bytes. -/
def word : Read UInt32 := return (LittleEndian.decode (← take 4)).toUInt32

/-- A number of eight bytes. -/
def long : Read UInt64 := return (LittleEndian.decode (← take 8)).toUInt64

/-- The same read several times over. -/
def times {α : Type} (n : Nat) (read : Read α) : Read (List α) :=
  (List.replicate n ()).mapM fun _ => read

/-- A count of items that take at least so many bytes each. -/
def count (itemSize : Nat) : Read Nat := do
  let n ← word
  if n.toNat * itemSize ≤ (← get).left then return n.toNat
  throw .outOfBounds

/-- A count and then so many numbers of four bytes. -/
def words : Read (List UInt32) := do times (← count 4) word

/-- A text of so many bytes. -/
def text (len : Nat) : Read String := do
  match String.fromUTF8? (← take len).toByteArray with
  | some s => return s
  | none => throw .invalidText

/-- Offsets are counted in 64 bits; a length that would take the offset beyond
them is out of bounds. -/
def checkEnd (len : Nat) : Read Unit := do
  if UInt64.size ≤ (← get).offset + len then throw .outOfBounds

/-- Any number of bytes, of which there may be far too few. -/
def bytesChecked (len : Nat) : Read (List UInt8) := do
  checkEnd len
  take len

/-- A text of any length, for which there may be far too few bytes. -/
def textChecked (len : Nat) : Read String := do
  checkEnd len
  text len

end Read

end ValueMachine
