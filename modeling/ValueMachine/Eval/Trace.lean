import ValueMachine.Code.Instr
import ValueMachine.Eval.Fault

/-! What can be told about an evaluation while it runs.

Events are of three sorts: the ends of a run, instructions, and calls. A mask
names the sorts that are wanted; a trace collects the events of those sorts in
the order in which they happen. -/
namespace ValueMachine

/-- The sorts of event that are wanted. -/
structure TraceMask where
  run : Bool
  instr : Bool
  call : Bool
deriving DecidableEq

namespace TraceMask

def none : TraceMask := ⟨false, false, false⟩

def union (a b : TraceMask) : TraceMask := ⟨a.run || b.run, a.instr || b.instr, a.call || b.call⟩

/-- Whether a mask wants all that another one wants. -/
def contains (a b : TraceMask) : Bool :=
  (a.run || !b.run) && (a.instr || !b.instr) && (a.call || !b.call)

end TraceMask

/-- What a frame was entered for. -/
inductive Scope
  | frame (func : FuncId)
  /-- A branch of a deferral, in place of the frame that deferred. -/
  | deferral (func : FuncId) (proved : Bool)
deriving DecidableEq

inductive TraceEvent
  | runStart (entry arg : Addr)
  | instr (func : FuncId) (place : Nat) (opcode : Opcode)
  /-- A scope is entered; the depth counts it. -/
  | enter (scope : Scope) (depth : Nat)
  /-- A scope is left in the regular way; the depth still counts it. -/
  | exit (scope : Scope) (depth : Nat)
  | runOk (outcome : Addr)
  /-- The run ended with a fault, whose text is the value at `error`. -/
  | runFault (fault : Fault) (error : Addr)
  | runFatal
deriving DecidableEq

@[inline] def TraceMask.wants (mask : TraceMask) : TraceEvent → Bool
  | .runStart _ _ | .runOk _ | .runFault _ _ | .runFatal => mask.run
  | .instr _ _ _ => mask.instr
  | .enter _ _ | .exit _ _ => mask.call

structure Trace where
  mask : TraceMask
  events : Array TraceEvent

namespace Trace

def start (mask : TraceMask) : Trace := ⟨mask, #[]⟩

/-- Adds an event if it is wanted. -/
@[inline] def emit (t : Trace) (e : TraceEvent) : Trace :=
  if t.mask.wants e then { t with events := t.events.push e } else t

end Trace

end ValueMachine
