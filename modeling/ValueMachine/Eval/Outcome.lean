import ValueMachine.Eval.Machine

/-! Outcomes: what an evaluation gives back as a value.

The outcome of a function of result shape `R` is a cotuple of the alternatives `R`
and text. Alternative 0 holds the returned value, alternative 1 the report of a
fault. `conduct` is the frame around every evaluation: it checks the entry, leaves
the rest to a way of running code, and turns the result into an outcome. -/
namespace ValueMachine

/-- A decoded outcome. -/
inductive Outcome
  | ok (payload : Addr)
  /-- The place of the error text. -/
  | err (text : Addr)
deriving DecidableEq

namespace Outcome

/-- The shape of the outcomes of functions with the given result. -/
def shape (result : ShapeId) : StoreM ShapeId := Store.shape (.cotuple #[result, ShapeId.text])

/-- Reads an outcome value. -/
def decode (s : Store) (a : Addr) : Except StoreError Outcome := do
  match ← s.resolve a with
  | .cotuple t tag payload =>
    match (← s.shapes.alternatives t).toList with
    | [_, second] =>
      if second = ShapeId.text then return if tag = 0 then ok payload else err payload
      else throw (.mismatch (.shapeKind t .cotuple))
    | _ => throw (.mismatch (.shapeKind t .cotuple))
  | other => throw (.mismatch (.kind .cotuple other.kind))

/-- The payload of a success. -/
def success? : Outcome → Option Addr
  | ok payload => some payload
  | err _ => none

end Outcome

/-- The result shape of a function value; any shape if it is none. -/
def Store.resultShape (s : Store) (entry : Addr) : ShapeId :=
  match s.value? entry with
  | some (.function f _) =>
    match s.body? f with
    | some b => b.result
    | none => ShapeId.any
  | _ => ShapeId.any

/-- A computation that has an outcome unless it stops for good. -/
abbrev Evaluation := EStateM EvalError RunState

instance : MonadLift StoreM (EStateM EvalError Store) := ⟨fun op s =>
  match op s with
  | .ok x s => .ok x s
  | .error e s => .error (.store e) s⟩

namespace Evaluation

/-- Checks the entry function and its argument. -/
def prepareEntry (entry arg : Addr) : Work Activation := do
  match ← Work.value entry with
  | .function f _ =>
    let body ← Work.ask fun s => s.body f
    let args ← Work.unpack body.arity arg
    Work.prepare entry args none
  | other => Work.mismatch (.kind .function other.kind)

/-- The entry activation, run in one way or another. -/
def runEntry (way : Activation → Exec Addr) (entry arg : Addr) : Exec Addr
  | ⟨store, fuel, trace⟩ =>
    match prepareEntry entry arg store with
    | .error h store => .error (h.at none) ⟨store, fuel, trace⟩
    | .ok act store => way act ⟨store, fuel, trace⟩

/-- The outcome value of a result, and the fault that it reports. -/
def outcomeOf (shape : ShapeId) : Except Stop Addr → EStateM EvalError Store (Addr × Option Fault)
  | .ok value => return (← Store.cotuple shape 0 value, none)
  | .error (.fatal e) => throw e
  | .error (.fault f site) => do
    let text ← Store.text (f.report site)
    return (← Store.cotuple shape 1 text, some f)

/-- The event at the end of a run with an outcome. -/
def endEvent (s : Store) (outcome : Addr) : Option Fault → TraceEvent
  | none => .runOk outcome
  | some fault =>
    match Outcome.decode s outcome with
    | .ok (.err text) => .runFault fault text
    | _ => .runFault fault outcome

/-- Turns the result of a run into an outcome and tells of the end of the run. -/
def settle (shape : ShapeId) (result : Except Stop Addr) : Evaluation Addr
  | ⟨store, fuel, trace⟩ =>
    match outcomeOf shape result store with
    | .ok (outcome, fault) store =>
      let event := endEvent store outcome fault
      .ok outcome ⟨store, fuel, trace.emit event⟩
    | .error e store => .error e ⟨store, fuel, trace.emit .runFatal⟩

/-- An evaluation of `entry` on `arg`. -/
def conduct (way : Activation → Exec Addr) (entry arg : Addr) : Evaluation Addr
  | ⟨store, fuel, trace⟩ =>
    let trace := trace.emit (.runStart entry arg)
    match Outcome.shape (store.resultShape entry) store with
    | .error e store => .error (.store e) ⟨store, fuel, trace.emit .runFatal⟩
    | .ok shape store =>
      match runEntry way entry arg ⟨store, fuel, trace⟩ with
      | .ok value state => settle shape (.ok value) state
      | .error stop state => settle shape (.error stop) state

end Evaluation

end ValueMachine
