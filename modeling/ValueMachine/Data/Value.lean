import ValueMachine.Data.Flex
import ValueMachine.Data.Ident
import ValueMachine.Data.Kind

/-! Values: the contents of a store.

A value names its children by their places, never holds them inline. Once every
child has one place for its content, two values are equal all the way down as
soon as their fields are equal. -/
namespace ValueMachine

/-- A character is hashed as its code point. -/
instance hashableChar : Hashable Char := ⟨fun c => hash c.val⟩

inductive Value
  /-- An integer below `2 ^ bits`. -/
  | ring (bits : UInt8) (value : UInt64)
  | flex (x : Flex)
  | char (c : Char)
  | text (s : String)
  | tuple (items : Array Addr)
  /-- The alternative `tag` of a cotuple shape. -/
  | cotuple (shape : ShapeId) (tag : UInt32) (payload : Addr)
  /-- A function body with the values it has captured. -/
  | function (func : FuncId) (captures : Array Addr)
  | nil (elem : ShapeId)
  | cons (elem : ShapeId) (head tail : Addr)
  /-- Evidence that a value equals itself. -/
  | identity (of : Addr)
  /-- The statement that the predicate holds of every value of the domain. -/
  | universal (domain : ShapeId) (predicate : Addr)
  /-- The statement that the predicate holds of some value of the domain. -/
  | existential (domain : ShapeId) (predicate : Addr)
  /-- A number that stands for data kept outside the store; two of them are never
  the same value. -/
  | concrete (shape : ShapeId) (external : UInt64)
deriving DecidableEq, Hashable, Inhabited

namespace Value

def kind : Value → Kind
  | ring _ _ => .ring
  | flex _ => .flex
  | char _ => .char
  | text _ => .text
  | tuple _ => .tuple
  | cotuple _ _ _ => .cotuple
  | function _ _ => .function
  | nil _ | cons _ _ _ => .list
  | identity _ => .identity
  | universal _ _ => .universal
  | existential _ _ => .existential
  | concrete _ _ => .concrete

/-- Whether the value is its content, and no more. -/
def isAbstract : Value → Bool
  | concrete _ _ => false
  | _ => true

/-- The places that the value names, in order. -/
def children : Value → List Addr
  | tuple items => items.toList
  | function _ captures => captures.toList
  | cotuple _ _ payload => [payload]
  | cons _ head tail => [head, tail]
  | identity of => [of]
  | universal _ predicate | existential _ predicate => [predicate]
  | ring _ _ | flex _ | char _ | text _ | nil _ | concrete _ _ => []

/-- The number of items, captures or bytes of text. -/
def size : Value → Nat
  | tuple items => items.size
  | function _ captures => captures.size
  | text s => s.utf8ByteSize
  | _ => 0

/-- The values at the first places of every store. -/
def prelude : List Value :=
  [tuple #[], cotuple ShapeId.truth 0 Addr.unit, cotuple ShapeId.truth 1 Addr.unit]

end Value

end ValueMachine
