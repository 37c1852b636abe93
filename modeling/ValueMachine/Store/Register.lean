import ValueMachine.Store.Typing

/-! Accepting function bodies.

A body that passes `verify` never reads a register, an argument or a constant
that does not exist and never leaves its code. What depends on the values of a
run is checked during the run. -/
namespace ValueMachine

namespace Body

/-- What an instruction at a place must satisfy. -/
def verifyInstr (b : Body) (shapes : ShapeTable) (values : Nat) (place : Nat) (i : Instr) :
    Except StoreError Unit := do
  checkLength i.items.length
  match i.regs.find? (b.registers ≤ ·) with
  | some r => throw (.mismatch (.regOutOfRange r b.registers))
  | none => pure ()
  match i.targets.find? (b.code.size ≤ ·.toNat) with
  | some target => throw (.mismatch (.jumpOutOfRange place target))
  | none => pure ()
  match i with
  | .arg _ index =>
    if index.toNat < b.arity then return ()
    throw (.mismatch (.argOutOfRange index b.arity))
  | .const _ addr =>
    if addr.index < values then return ()
    throw (.dangling ⟨addr, values⟩)
  | .cotupleNew _ t tag _ =>
    let alternatives ← shapes.alternatives t
    if tag.toNat < alternatives.size then return ()
    throw (.mismatch (.tagOutOfRange tag alternatives.size))
  | .nil _ elem => discard (shapes.lookup elem)
  | _ => return ()

/-- What a body must satisfy beside shapes and so many values. -/
def verify (b : Body) (shapes : ShapeTable) (values : Nat) : Except StoreError Unit := do
  checkLength b.params.length
  checkLength b.code.size
  b.params.forM fun t => discard (shapes.lookup t)
  discard (shapes.lookup b.result)
  match b.code.back? with
  | none => throw (.mismatch .emptyBody)
  | some last =>
    if last.isTerminator then
      b.code.toList.zipIdx.forM fun (i, place) => b.verifyInstr shapes values place i
    else throw (.mismatch .missingTerminator)

end Body

/-- Verifies a body and gives the function value that captures nothing. -/
def Store.register (b : Body) : StoreM Addr := do
  Store.ask fun s => b.verify s.shapes s.size
  let f ← Store.placeBody b
  Store.place (.function f #[])

end ValueMachine
