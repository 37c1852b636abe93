import ValueMachine.Store.Typing

/-! Putting values into a store, and taking lists out of it.

`intern` is the only way in for a value: it is validated first, and a value that
is there already keeps its place. -/
namespace ValueMachine

namespace Store

/-- A reference to data outside the store; always at a new place. -/
def concrete (t : ShapeId) (external : UInt64) : StoreM Addr := do
  ask fun s => discard (s.shapes.lookup t)
  placeConcrete (.concrete t external)

/-- Validates a value and gives its place. -/
def intern (v : Value) : StoreM Addr := do
  match v with
  | .concrete t external => concrete t external
  | v =>
    ask (·.validate v)
    place v

def ring (bits : UInt8) (x : UInt64) : StoreM Addr := intern (.ring bits x)

def flex (x : Flex) : StoreM Addr := intern (.flex x)

def char (c : Char) : StoreM Addr := intern (.char c)

def text (s : String) : StoreM Addr := intern (.text s)

def tuple (items : List Addr) : StoreM Addr := intern (.tuple items.toArray)

def cotuple (t : ShapeId) (tag : UInt32) (payload : Addr) : StoreM Addr :=
  intern (.cotuple t tag payload)

def nil (elem : ShapeId) : StoreM Addr := intern (.nil elem)

/-- A list cell; the shape of its elements is that of the tail. -/
def cons (head tail : Addr) : StoreM Addr := do
  let elem ← ask (·.elemShape tail)
  intern (.cons elem head tail)

/-- The list of the items, in order. -/
def list (elem : ShapeId) (items : List Addr) : StoreM Addr := do
  let empty ← nil elem
  items.reverse.foldlM (fun rest item => cons item rest) empty

/-- Evidence that two places are one. -/
def identity (a b : Addr) : StoreM Addr := do
  ask fun s => discard (s.resolve a)
  ask fun s => discard (s.resolve b)
  if a = b then intern (.identity a)
  else throw (.mismatch (.notEqual a b))

/-- A function value with further captures behind those it has. -/
def closure (func : Addr) (captures : List Addr) : StoreM Addr := do
  match ← ask fun s => s.resolve func with
  | .function f existing => intern (.function f (existing ++ captures))
  | other => throw (.mismatch (.kind .function other.kind))

def universal (domain : ShapeId) (predicate : Addr) : StoreM Addr :=
  intern (.universal domain predicate)

def existential (domain : ShapeId) (predicate : Addr) : StoreM Addr :=
  intern (.existential domain predicate)

/-! ### Reading lists -/

/-- The items of a list seen for so many cells, added to those before, which are in
reverse order. -/
def itemsWithin (s : Store) : Nat → List Addr → Addr → Except StoreError (List Addr)
  | 0, _, a => .error (s.notOfKind a .list)
  | depth + 1, before, a =>
    match s.value? a with
    | some (.nil _) => .ok before.reverse
    | some (.cons _ head tail) => s.itemsWithin depth (head :: before) tail
    | _ => .error (s.notOfKind a .list)

/-- The items of a list, in order. A list has fewer cells than its place tells. -/
def items (s : Store) (a : Addr) : Except StoreError (List Addr) :=
  s.itemsWithin (a.index + 1) [] a

/-! ### The shape of a value -/

/-- The shape of a value seen down to a depth. -/
def shapeOfWithin : Nat → Addr → StoreM ShapeId
  | 0, a => fun s => .error (.dangling ⟨a, s.size⟩) s
  | depth + 1, a => do
    match ← ask fun s => s.resolve a with
    | .ring bits _ => shape (.ring bits)
    | .flex _ => shape .flex
    | .char c => shape (.char (CharWidth.ofChar c))
    | .text _ => shape .text
    | .tuple items => do
      let shapes ← items.toList.mapM (shapeOfWithin depth)
      shape (.tuple shapes)
    | .cotuple t _ _ | .concrete t _ => return t
    | .function f _ => do
      let b ← ask fun s => s.body f
      shape (.function b.params b.result)
    | .nil elem | .cons elem _ _ => shape (.list elem)
    | .identity x => do
      let t ← shapeOfWithin depth x
      shape (.identity t)
    | .universal domain _ => shape (.universal domain)
    | .existential domain _ => shape (.existential domain)

/-- The most precise shape of the value at a place; shapes are added as needed. -/
def shapeOf (a : Addr) : StoreM ShapeId := shapeOfWithin (a.index + 1) a

end Store

end ValueMachine
