import ValueMachine.Store.Basic

/-! Which values have which shapes, and which values a store accepts.

Conformance looks at the declared shape of a cotuple, a list, a function or a
statement, and goes into the items of tuples and evidence only. Of a tuple the last
items are looked at first. Children lie below their parents, so the depth of a value
is at most its place, and `fitsWithin` with a depth above the place sees all of it. -/
namespace ValueMachine

namespace Store

/-- Whether the value at a place has a shape, seen down to a depth. -/
def fitsWithin (s : Store) : Nat → Addr → ShapeId → Bool
  | 0, _, _ => false
  | depth + 1, a, t =>
    match s.value? a, s.shape? t with
    | some v, some shape =>
      t == ShapeId.any ||
      match v, shape with
      | .concrete own _, _ => own == t
      | _, .any => true
      | .ring bits _, .ring want => bits == want
      | .flex _, .flex => true
      | .char c, .char width => CharWidth.ofChar c == width
      | .text _, .text => true
      | .tuple items, .tuple shapes =>
        items.size == shapes.length &&
          (items.toList.zip shapes).reverse.all fun (item, want) => s.fitsWithin depth item want
      | .cotuple own _ _, .cotuple _ => own == t
      | .function f _, .function params result =>
        match s.body? f with
        | some b => b.params == params && b.result == result
        | none => false
      | .nil elem, .list want | .cons elem _ _, .list want => elem == want || want == ShapeId.any
      | .identity x, .identity want => s.fitsWithin depth x want
      | .universal domain _, .universal want => domain == want
      | .existential domain _, .existential want => domain == want
      | _, _ => false
    | _, _ => false

def fits (s : Store) (a : Addr) (t : ShapeId) : Bool := s.fitsWithin (a.index + 1) a t

/-- Whether the value at a place has a shape; both must exist. -/
def conforms (s : Store) (a : Addr) (t : ShapeId) : Except StoreError Bool := do
  discard (s.resolve a)
  discard (s.shapes.lookup t)
  return s.fits a t

def checkConforms (s : Store) (a : Addr) (t : ShapeId) : Except StoreError Unit := do
  if ← s.conforms a t then return ()
  throw (.mismatch (.nonconforming a t))

/-- The predicate of a statement tests its domain and nothing else. -/
def checkPredicate (s : Store) (predicate : Addr) (domain : ShapeId) : Except StoreError Unit := do
  match ← s.resolve predicate with
  | .function f _ =>
    let b ← s.body f
    if b.params == [domain] && b.result == ShapeId.truth then return ()
    throw (.mismatch (.predicate predicate domain))
  | _ => throw (.mismatch (.predicate predicate domain))

/-- The declared shape of the elements of a list. -/
def elemShape (s : Store) (a : Addr) : Except StoreError ShapeId := do
  match ← s.resolve a with
  | .nil elem | .cons elem _ _ => return elem
  | other => throw (.mismatch (.kind .list other.kind))

/-- What a value must satisfy before it is stored. -/
def validate (s : Store) (v : Value) : Except StoreError Unit := do
  v.children.forM fun a => discard (s.resolve a)
  match v with
  | .ring bits x =>
    if Ring.IsWidth bits ∧ Ring.truncate bits x = x then return ()
    throw (.mismatch (.ringRange bits x))
  | .cotuple t tag payload =>
    let alternatives ← s.shapes.alternatives t
    match alternatives[tag.toNat]? with
    | some want => s.checkConforms payload want
    | none => throw (.mismatch (.tagOutOfRange tag alternatives.size))
  | .text _ | .tuple _ => checkLength v.size
  | .function f _ =>
    checkLength v.size
    discard (s.body f)
  | .nil elem => discard (s.shapes.lookup elem)
  | .cons elem head tail =>
    let rest ← s.elemShape tail
    if rest = elem then s.checkConforms head elem
    else throw (.mismatch (.listElem elem rest))
  | .universal domain predicate | .existential domain predicate =>
    discard (s.shapes.lookup domain)
    s.checkPredicate predicate domain
  | .flex _ | .char _ | .identity _ | .concrete _ _ => return ()

end Store

end ValueMachine
