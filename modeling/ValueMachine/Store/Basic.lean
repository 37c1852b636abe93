import ValueMachine.Code.Body
import ValueMachine.Data.Shape
import ValueMachine.Data.Value
import ValueMachine.Store.Error
import ValueMachine.Store.Interner

/-! The store: values, the shapes that classify them, and function bodies.

A store only grows. Shapes and abstract values are stored once for each content,
so their places stand for the contents. Concrete values are never looked up by
content, and every one gets a place of its own. -/
namespace ValueMachine

/-- The shapes that a store knows. -/
abbrev ShapeTable := Interner Shape

namespace ShapeTable

@[inline] def lookup (shapes : ShapeTable) (t : ShapeId) : Except Mismatch Shape :=
  match shapes.get? t.index with
  | some shape => .ok shape
  | none => .error (.unknownShape t)

/-- The alternatives of a cotuple shape. -/
def alternatives (shapes : ShapeTable) (t : ShapeId) : Except Mismatch (Array ShapeId) := do
  match ← shapes.lookup t with
  | .cotuple alternatives => .ok alternatives
  | _ => .error (.shapeKind t .cotuple)

def find? (shapes : ShapeTable) (shape : Shape) : Option ShapeId :=
  (Interner.find? shapes shape).map ShapeId.ofIndex

/-- What a shape must satisfy before it is stored. -/
def check (shapes : ShapeTable) (shape : Shape) : Except Mismatch Unit := do
  shape.children.forM fun t => discard (shapes.lookup t)
  match shape with
  | .ring bits => if Ring.IsWidth bits then .ok () else .error (.ringRange bits 0)
  | .cotuple alternatives =>
    if alternatives.isEmpty then .error .emptyCotuple else checkLength alternatives.size
  | .tuple items => checkLength items.length
  | .function params _ => checkLength params.length
  | _ => .ok ()

/-- The table that every store starts with. -/
def initial : ShapeTable := Interner.ofList Shape.prelude

end ShapeTable

structure Store where
  values : Interner Value
  shapes : ShapeTable
  functions : Array Body

/-- Operations that may add to a store. A store keeps what a failing operation has
added before it failed. -/
abbrev StoreM := EStateM StoreError Store

namespace Store

/-- The store that holds the first shapes and values only. -/
def initial : Store := ⟨Interner.ofList Value.prelude, ShapeTable.initial, #[]⟩

/-- The number of values. -/
def size (s : Store) : Nat := s.values.size

/-! ### Looking up -/

@[inline] def value? (s : Store) (a : Addr) : Option Value := s.values.get? a.index

@[inline] def shape? (s : Store) (t : ShapeId) : Option Shape := s.shapes.get? t.index

@[inline] def body? (s : Store) (f : FuncId) : Option Body := s.functions[f.index]?

@[inline] def resolve (s : Store) (a : Addr) : Except Dangling Value :=
  match s.value? a with
  | some v => .ok v
  | none => .error ⟨a, s.size⟩

@[inline] def body (s : Store) (f : FuncId) : Except Mismatch Body :=
  match s.body? f with
  | some b => .ok b
  | none => .error (.unknownFunction f)

/-- The place of an abstract value, if the store holds it. -/
def find? (s : Store) (v : Value) : Option Addr :=
  if v.isAbstract then (s.values.find? v).map Addr.ofIndex else none

/-- The complaint that the value at a place is not of the expected kind. -/
def notOfKind (s : Store) (a : Addr) (expected : Kind) : StoreError :=
  match s.value? a with
  | some v => .mismatch (.kind expected v.kind)
  | none => .dangling ⟨a, s.size⟩

def bodyId (s : Store) (a : Addr) : Except StoreError FuncId :=
  match s.value? a with
  | some (.function f _) => .ok f
  | _ => .error (s.notOfKind a .function)

def text? (s : Store) (a : Addr) : Option String :=
  match s.value? a with
  | some (.text t) => some t
  | _ => none

/-- The kind of a value and the length of its variable part. -/
def descriptor (s : Store) (a : Addr) : Except Dangling (Kind × Nat) :=
  (s.resolve a).map fun v => (v.kind, v.size)

/-! ### Adding -/

/-- The number of values that a store can hold. -/
def maxValues : Nat := UInt32.size - 1

/-- The number of shapes, and of functions, that a store can hold. -/
def maxEntries : Nat := UInt32.size

/-- Asks the store a question that does not change it. -/
@[inline] def ask {α : Type} (question : Store → Except StoreError α) : StoreM α := fun s =>
  match question s with
  | .ok x => .ok x s
  | .error e => .error e s

/-- The place of an abstract value; a new one if the value is new. Nothing is
checked. -/
def place (v : Value) : StoreM Addr := fun s =>
  match s.find? v with
  | some a => .ok a s
  | none =>
    let n := s.values.size
    if n < maxValues then .ok (Addr.ofIndex n) { s with values := s.values.insert v }
    else .error .exhausted s

/-- A new place for a value that is not to be found by content. -/
def placeConcrete (v : Value) : StoreM Addr := fun s =>
  let n := s.values.size
  if n < maxValues then .ok (Addr.ofIndex n) { s with values := s.values.append v }
  else .error .exhausted s

/-- The place of a shape; a new one if the shape is new and sound. -/
def shape (shape : Shape) : StoreM ShapeId := fun s =>
  match s.shapes.find? shape with
  | some t => .ok t s
  | none =>
    match s.shapes.check shape with
    | .error m => .error (.mismatch m) s
    | .ok () =>
      let n := s.shapes.size
      if n < maxEntries then .ok (ShapeId.ofIndex n) { s with shapes := s.shapes.insert shape }
      else .error .exhausted s

/-- A new place for a function body. Nothing is checked. -/
def placeBody (b : Body) : StoreM FuncId := fun s =>
  let n := s.functions.size
  if n < maxEntries then .ok (FuncId.ofIndex n) { s with functions := s.functions.push b }
  else .error .exhausted s

end Store

end ValueMachine
