import ValueMachine.Eval.Effect

/-! Running code one instruction at a time.

A machine has the frame that is running and the callers that wait for results,
the innermost first. A step does one instruction of the running frame; a call
makes it a caller, a return takes the innermost caller back, and a call in place
of the running function changes the frame only. A run makes one step for each
unit of fuel. -/
namespace ValueMachine

/-- Bounds on an evaluation. -/
structure Limits where
  steps : Nat
  /-- The number of frames that may live at a time. -/
  maxCallDepth : Nat
deriving DecidableEq

def Limits.standard : Limits := ⟨1000000, 256⟩

/-- What an evaluation works on: the store, the steps that are left, and what has
been told. -/
structure RunState where
  store : Store
  fuel : Nat
  trace : Trace

/-- A computation that may end early, and leaves a state in any case. -/
abbrev Exec := EStateM Stop RunState

structure Frame where
  act : Activation
  regs : Regs
  /-- The place of the next instruction. -/
  pc : UInt32
  scope : Scope
deriving DecidableEq

def Frame.enter (act : Activation) (scope : Scope) : Frame := ⟨act, act.freshRegs, 0, scope⟩

/-- A frame that waits for the result of a call in a register. -/
structure Caller where
  frame : Frame
  dst : Reg
deriving DecidableEq

/-- The frame goes on with the result. -/
def Caller.resume (c : Caller) (value : Addr) : Frame :=
  match c with
  | ⟨⟨act, regs, pc, scope⟩, dst⟩ => ⟨act, regs.set dst value, pc, scope⟩

structure Machine where
  frame : Frame
  callers : List Caller
  /-- The number of frames, kept so that it need not be counted again. -/
  depth : Nat
  depth_eq : depth = callers.length + 1
  store : Store
  trace : Trace

/-- The result of a step. -/
inductive Step
  | more (m : Machine)
  | done (value : Addr) (store : Store) (trace : Trace)
  | stop (s : Stop) (store : Store) (trace : Trace)

namespace Machine

/-- The place of the next instruction of the running frame. -/
def site (m : Machine) : Site := ⟨m.frame.act.func, m.frame.pc.toNat⟩

@[inline] def fetch (m : Machine) : Option Instr := m.frame.act.body.code[m.frame.pc.toNat]?

/-- Does one instruction, with at most so many frames. -/
def step (maxDepth : Nat) (i : Instr) : Machine → Step
  | ⟨⟨act, regs, pc, scope⟩, callers, depth, depth_eq, store, trace⟩ =>
    let trace := trace.emit (.instr act.func pc.toNat i.opcode)
    match i.exec act regs store with
    | .error h store => .stop (h.at (some ⟨act.func, pc.toNat⟩)) store trace
    | .ok (regs, effect) store =>
      match effect with
      | .next => .more ⟨⟨act, regs, pc + 1, scope⟩, callers, depth, depth_eq, store, trace⟩
      | .goto target => .more ⟨⟨act, regs, target, scope⟩, callers, depth, depth_eq, store, trace⟩
      | .call dst callee =>
        if maxDepth ≤ depth then
          .stop (.fault .callDepth (some ⟨act.func, pc.toNat⟩)) store trace
        else
          let inner := Scope.frame callee.func
          .more ⟨.enter callee inner, ⟨⟨act, regs, pc + 1, scope⟩, dst⟩ :: callers, depth + 1,
            congrArg (· + 1) depth_eq, store, trace.emit (.enter inner (depth + 1))⟩
      | .replace callee inner =>
        .more ⟨.enter callee inner, callers, depth, depth_eq, store,
          (trace.emit (.exit scope depth)).emit (.enter inner depth)⟩
      | .finish value =>
        let trace := trace.emit (.exit scope depth)
        match callers, depth_eq with
        | [], _ => .done value store trace
        | caller :: callers, depth_eq =>
          .more ⟨caller.resume value, callers, depth - 1, by simp [depth_eq], store, trace⟩

/-- Makes steps until the entry frame returns, an instruction stops the run, or the
fuel is used up. -/
def run (maxDepth : Nat) : Nat → Machine → EStateM.Result Stop RunState Addr
  | fuel, m =>
    match m.fetch with
    | none => .error (.fault (.mismatch .missingTerminator) (some m.site)) ⟨m.store, fuel, m.trace⟩
    | some i =>
      match fuel with
      | 0 => .error (.fatal .stepBudgetExceeded) ⟨m.store, 0, m.trace⟩
      | fuel + 1 =>
        match m.step maxDepth i with
        | .more m => run maxDepth fuel m
        | .done value store trace => .ok value ⟨store, fuel, trace⟩
        | .stop s store trace => .error s ⟨store, fuel, trace⟩

/-- A machine before its first step. -/
def entry (act : Activation) (r : RunState) : Machine :=
  let scope := Scope.frame act.func
  ⟨.enter act scope, [], 1, rfl, r.store, r.trace.emit (.enter scope 1)⟩

/-- Runs an activation as the entry frame. -/
def evaluate (maxDepth : Nat) (act : Activation) : Exec Addr := fun r =>
  run maxDepth r.fuel (entry act r)

end Machine

end ValueMachine
