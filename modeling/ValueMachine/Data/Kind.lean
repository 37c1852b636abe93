/-! Kinds of value, and the widths of characters.

A kind is what can be told of a value without looking at its children. -/
namespace ValueMachine

/-- What sort of thing a value is. -/
inductive Kind
  | empty
  | ring
  | flex
  | char
  | text
  | tuple
  | cotuple
  | function
  | list
  | identity
  | universal
  | existential
  | concrete
deriving DecidableEq

def Kind.label : Kind → String
  | empty => "empty"
  | ring => "ring"
  | flex => "flex"
  | char => "utf8 char"
  | text => "utf8 string"
  | tuple => "tuple"
  | cotuple => "cotuple"
  | function => "function"
  | list => "list"
  | identity => "identity"
  | universal => "forall"
  | existential => "exists"
  | concrete => "concrete"

/-- The number of bytes that a character takes in UTF-8. -/
inductive CharWidth
  | one
  | two
  | three
  | four
deriving DecidableEq, Hashable

namespace CharWidth

def size : CharWidth → UInt8
  | one => 1
  | two => 2
  | three => 3
  | four => 4

def ofSize? (n : UInt8) : Option CharWidth :=
  [one, two, three, four].find? (·.size == n)

def ofChar (c : Char) : CharWidth :=
  if c.val ≤ 0x7f then one
  else if c.val ≤ 0x7ff then two
  else if c.val ≤ 0xffff then three
  else four

/-- The least code point of this width. -/
def least : CharWidth → Nat
  | one => 0
  | two => 0x80
  | three => 0x800
  | four => 0x10000

/-- One more than the greatest code point of this width. -/
def bound : CharWidth → Nat
  | one => 0x80
  | two => 0x800
  | three => 0x10000
  | four => 0x110000

/-- The characters of this width, in order; surrogates are not characters. -/
def chars (w : CharWidth) : List Char :=
  (List.range' w.least (w.bound - w.least)).filterMap fun n =>
    if h : n.isValidChar then some (Char.ofNatAux n h) else none

/-- The number of characters of this width. -/
def count : CharWidth → Nat
  | one => 0x80
  | two => 0x780
  | three => 0xf000
  | four => 0x100000

end CharWidth

end ValueMachine
