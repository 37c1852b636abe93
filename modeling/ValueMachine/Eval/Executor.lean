import ValueMachine.Eval.Composed
import ValueMachine.Eval.Outcome

/-! The two ways of running code, behind one interface.

An executor is a machine that interprets the functions of the store it is given,
or a program composed earlier. Both come with limits of their own, which a caller
may replace by a budget. -/
namespace ValueMachine

inductive Executor
  | machine (limits : Limits)
  | composed (program : Program) (limits : Limits)
deriving DecidableEq

namespace Executor

def limits : Executor → Limits
  | machine limits | composed _ limits => limits

/-- Runs an activation as the entry frame. -/
def way : Executor → Activation → Exec Addr
  | machine limits => Machine.evaluate limits.maxCallDepth
  | composed program limits => program.evaluate limits.maxCallDepth

/-- Evaluates `entry` on `arg`. The fuel and the trace are those of the run state. -/
def evaluate (e : Executor) (entry arg : Addr) : Evaluation Addr :=
  Evaluation.conduct e.way entry arg

/-- Evaluates with a budget of steps and tells nothing. -/
def evaluateWith (e : Executor) (steps : Nat) (entry arg : Addr) (s : Store) :
    EStateM.Result EvalError RunState Addr :=
  e.evaluate entry arg ⟨s, steps, .start .none⟩

/-- Evaluates with the executor's own budget and tells what the mask wants. -/
def run (e : Executor) (entry arg : Addr) (mask : TraceMask) (s : Store) :
    EStateM.Result EvalError RunState Addr :=
  e.evaluate entry arg ⟨s, e.limits.steps, .start mask⟩

end Executor

def Limits.render (l : Limits) : String :=
  "Limits \x7b steps: " ++ toString l.steps ++ ", max_call_depth: " ++ toString l.maxCallDepth ++
    " \x7d"

/-- The executor as it is shown to a reader. -/
def Executor.render : Executor → String
  | machine limits => "Vm \x7b limits: " ++ limits.render ++ ", .. \x7d"
  | composed program limits =>
    "Cce \x7b program: ComposedProgram \x7b functions: " ++ toString program.functionCount ++
      ", blocks: " ++ toString program.chunkCount ++ " \x7d, limits: " ++ limits.render ++ " \x7d"

end ValueMachine
