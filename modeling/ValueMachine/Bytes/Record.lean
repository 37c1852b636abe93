import ValueMachine.Code.Encoding
import ValueMachine.Store.Basic

/-! Shapes, values and function bodies as records of bytes.

A record starts with a tag, except that of a body. Lists have their length in
front. Reading a record does not look at any other record. -/
namespace ValueMachine

/-- A list of places, of shapes or values, with its length in front. -/
def encodeIds {α : Type} (place : α → UInt32) (ids : List α) : List UInt8 :=
  encodeWords (ids.map place)

namespace Shape

def tag : Shape → UInt8
  | any => 0
  | empty => 1
  | ring _ => 2
  | flex => 3
  | char _ => 4
  | text => 5
  | tuple _ => 6
  | cotuple _ => 7
  | function _ _ => 8
  | list _ => 9
  | identity _ => 10
  | universal _ => 11
  | existential _ => 12

/-- The record without its tag. -/
def encodeFields : Shape → List UInt8
  | ring bits => [bits]
  | char width => [width.size]
  | tuple items => encodeIds ShapeId.val items
  | cotuple alternatives => encodeIds ShapeId.val alternatives.toList
  | function params result => encodeIds ShapeId.val params ++ encodeWord result.val
  | list t | identity t | universal t | existential t => encodeWord t.val
  | any | empty | flex | text => []

def encode (shape : Shape) : List UInt8 := shape.tag :: shape.encodeFields

/-- The number of bytes of the record. -/
def encodedLength (shape : Shape) : Nat :=
  1 + match shape with
    | ring _ | char _ => 1
    | tuple items => 4 + 4 * items.length
    | cotuple alternatives => 4 + 4 * alternatives.size
    | function params _ => 4 + 4 * params.length + 4
    | list _ | identity _ | universal _ | existential _ => 4
    | any | empty | flex | text => 0

end Shape

namespace Value

def tag : Value → UInt8
  | ring _ _ => 1
  | flex _ => 2
  | char _ => 3
  | text _ => 4
  | tuple _ => 5
  | cotuple _ _ _ => 6
  | function _ _ => 7
  | nil _ => 8
  | cons _ _ _ => 9
  | identity _ => 10
  | universal _ _ => 11
  | existential _ _ => 12
  | concrete _ _ => 13

/-- The record without its tag. -/
def encodeFields : Value → List UInt8
  | ring bits x => bits :: encodeLong x
  | flex x => encodeLong x.bits
  | char c => encodeWord c.val
  | text s => encodeWord s.utf8ByteSize.toUInt32 ++ s.toUTF8.toList
  | tuple items => encodeIds Addr.val items.toList
  | cotuple t tag payload => encodeWord t.val ++ encodeWord tag ++ encodeWord payload.val
  | function f captures => encodeWord f.val ++ encodeIds Addr.val captures.toList
  | nil elem => encodeWord elem.val
  | cons elem head tail => encodeWord elem.val ++ encodeWord head.val ++ encodeWord tail.val
  | identity of => encodeWord of.val
  | universal domain predicate | existential domain predicate =>
    encodeWord domain.val ++ encodeWord predicate.val
  | concrete t external => encodeWord t.val ++ encodeLong external

def encode (v : Value) : List UInt8 := v.tag :: v.encodeFields

/-- The number of bytes of the record. -/
def encodedLength (v : Value) : Nat :=
  1 + match v with
    | ring _ _ => 9
    | flex _ => 8
    | char _ | nil _ | identity _ => 4
    | text s => 4 + s.utf8ByteSize
    | tuple items => 4 + 4 * items.size
    | cotuple _ _ _ | cons _ _ _ | concrete _ _ => 12
    | function _ captures => 8 + 4 * captures.size
    | universal _ _ | existential _ _ => 8

end Value

/-- The length of records that stand one after the other. -/
def totalLength {α : Type} (length : α → Nat) (xs : List α) : Nat :=
  xs.foldl (fun total x => total + length x) 0

namespace Body

def encode (b : Body) : List UInt8 :=
  encodeIds ShapeId.val b.params ++ encodeWord b.result.val ++ encodeWord b.registers ++
    encodeWord b.code.size.toUInt32 ++ encodeCode b.code.toList

/-- The number of bytes of the record. -/
def encodedLength (b : Body) : Nat :=
  4 + 4 * b.params.length + 4 + 4 + 4 + totalLength Instr.encodedLength b.code.toList

end Body

namespace Read

def addr : Read Addr := return ⟨← word⟩

def shapeId : Read ShapeId := return ⟨← word⟩

def funcId : Read FuncId := return ⟨← word⟩

def addrs : Read (List Addr) := return (← words).map Addr.mk

def shapeIds : Read (List ShapeId) := return (← words).map ShapeId.mk

def charWidth : Read CharWidth := do
  let tag ← byte
  match CharWidth.ofSize? tag with
  | some width => return width
  | none => throw (.unknownTag .charWidth tag)

def char : Read Char := do
  let code ← word
  if h : code.isValidChar then return ⟨code, h⟩
  else throw (.invalidChar code)

def shape : Read Shape := do
  match ← byte with
  | 0 => return .any
  | 1 => return .empty
  | 2 => return .ring (← byte)
  | 3 => return .flex
  | 4 => return .char (← charWidth)
  | 5 => return .text
  | 6 => return .tuple (← shapeIds)
  | 7 => return .cotuple (← shapeIds).toArray
  | 8 => return .function (← shapeIds) (← shapeId)
  | 9 => return .list (← shapeId)
  | 10 => return .identity (← shapeId)
  | 11 => return .universal (← shapeId)
  | 12 => return .existential (← shapeId)
  | tag => throw (.unknownTag .shape tag)

/-- Floating-point bits are taken to their canonical form. -/
def value : Read Value := do
  match ← byte with
  | 1 => return .ring (← byte) (← long)
  | 2 => return .flex (Flex.ofBits (← long))
  | 3 => return .char (← char)
  | 4 => return .text (← text (← count 1))
  | 5 => return .tuple (← addrs).toArray
  | 6 => return .cotuple (← shapeId) (← word) (← addr)
  | 7 => return .function (← funcId) (← addrs).toArray
  | 8 => return .nil (← shapeId)
  | 9 => return .cons (← shapeId) (← addr) (← addr)
  | 10 => return .identity (← addr)
  | 11 => return .universal (← shapeId) (← addr)
  | 12 => return .existential (← shapeId) (← addr)
  | 13 => return .concrete (← shapeId) (← long)
  | tag => throw (.unknownTag .value tag)

def body : Read Body := do
  let params ← shapeIds
  let result ← shapeId
  let registers ← word
  let code ← times (← count 1) Instr.read
  return ⟨params, result, registers, code.toArray⟩

end Read

end ValueMachine
