import ValueMachine.Data.Ident
import ValueMachine.Data.Kind

/-! Shapes: what a value may be required to look like.

A shape names the shapes of its parts by their place in the table of shapes, where
equal shapes have equal places. -/
namespace ValueMachine

inductive Shape
  /-- Every value. -/
  | any
  /-- No value. -/
  | empty
  | ring (bits : UInt8)
  | flex
  | char (width : CharWidth)
  | text
  | tuple (items : List ShapeId)
  /-- One of several alternatives; the tag is the place among them. -/
  | cotuple (alternatives : Array ShapeId)
  | function (params : List ShapeId) (result : ShapeId)
  | list (elem : ShapeId)
  /-- Evidence that a value of the shape equals itself. -/
  | identity (of : ShapeId)
  /-- Statements about every value of the domain. -/
  | universal (domain : ShapeId)
  /-- Statements about some value of the domain. -/
  | existential (domain : ShapeId)
deriving DecidableEq, Hashable, Inhabited

namespace Shape

/-- The kind of the values that have the shape; `any` has none. -/
def kind? : Shape → Option Kind
  | any => none
  | empty => some .empty
  | ring _ => some .ring
  | flex => some .flex
  | char _ => some .char
  | text => some .text
  | tuple _ => some .tuple
  | cotuple _ => some .cotuple
  | function _ _ => some .function
  | list _ => some .list
  | identity _ => some .identity
  | universal _ => some .universal
  | existential _ => some .existential

/-- The shapes that the shape names, in order. -/
def children : Shape → List ShapeId
  | tuple items => items
  | cotuple alternatives => alternatives.toList
  | function params result => params ++ [result]
  | list t | identity t | universal t | existential t => [t]
  | any | empty | ring _ | flex | char _ | text => []

def labels (ids : List ShapeId) : String := ", ".intercalate (ids.map ShapeId.label)

/-- The shape as it is shown to a reader. -/
def render : Shape → String
  | any => "any"
  | empty => "empty"
  | ring bits => "ring" ++ toString bits.toNat
  | flex => "flex"
  | char width => "char" ++ toString width.size.toNat
  | text => "text"
  | tuple items => "(" ++ labels items ++ ")"
  | cotuple alternatives => "<" ++ labels alternatives.toList ++ ">"
  | function params result => "fn(" ++ labels params ++ ") -> " ++ result.label
  | list t => "list " ++ t.label
  | identity t => "id " ++ t.label
  | universal t => "forall " ++ t.label
  | existential t => "exists " ++ t.label

/-- The shapes at the first places of every table. -/
def prelude : List Shape :=
  [any, empty, tuple [], cotuple #[ShapeId.unit, ShapeId.unit], text]

end Shape

end ValueMachine
