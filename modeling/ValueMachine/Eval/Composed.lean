import ValueMachine.Eval.Machine

/-! Running code block by block.

A program is composed from the function bodies of a store. Basic blocks are cut
into chunks of at most sixteen instructions, and the targets of branches are
replaced by the numbers of chunks. A chunk is done from its first instruction to
its last; it then tells where control goes. A call runs the whole function that
is called before the chunk goes on, so the frames that wait are not kept in a
list but in the calls of `runFrame` itself, at most one inside the other for each
level of call depth. -/
namespace ValueMachine

/-- A run of instructions with branch targets that are chunk numbers. -/
structure Chunk where
  /-- The place of the first instruction in the body. -/
  start : Nat
  code : List Instr
deriving DecidableEq

namespace Chunk

/-- The greatest number of instructions in a chunk. -/
def maxLength : Nat := 16

/-- The places from `start` on, `maxLength` apart, before `stop`. -/
def cut (start stop : Nat) : List Nat :=
  (List.range ((stop - start + maxLength - 1) / maxLength)).map fun k => start + k * maxLength

/-- The stretches of code between the given starts. -/
def stretches (code : Array Instr) (starts : List Nat) : List (Nat × Nat) :=
  starts.zip (starts.drop 1 ++ [code.size])

/-- The places at which chunks start, in order. -/
def starts (code : Array Instr) : List Nat :=
  (stretches code (Body.blockStarts code)).flatMap fun (start, stop) => cut start stop

/-- For every place, the number of the stretch that it lies in. -/
def numbers (stretches : List (Nat × Nat)) : Array Nat :=
  (stretches.zipIdx.flatMap fun ((start, stop), number) =>
    List.replicate (stop - start) number).toArray

/-- The chunks of a body, in order. -/
def ofCode (code : Array Instr) : Array Chunk :=
  let stretches := stretches code (starts code)
  let numbers := numbers stretches
  let number (target : UInt32) : UInt32 := (numbers.getD target.toNat 0).toUInt32
  (stretches.map fun (start, stop) =>
    ⟨start, (code.extract start stop).toList.map (·.retarget number)⟩).toArray

end Chunk

/-- The chunks of every function, by the number of the function. -/
structure Program where
  functions : Array (Array Chunk)
deriving DecidableEq

namespace Program

/-- Every function that the store has now. -/
def compose (s : Store) : Program := ⟨s.functions.map fun b => Chunk.ofCode b.code⟩

def functionCount (p : Program) : Nat := p.functions.size

def chunkCount (p : Program) : Nat := p.functions.foldl (fun total chunks => total + chunks.size) 0

end Program

/-- How a chunk ends. -/
inductive ChunkEnd
  /-- Another chunk of the same function, with the registers as they are. -/
  | jump (chunk : Nat) (regs : Regs)
  | finish (value : Addr)
  | replace (act : Activation) (scope : Scope)
deriving DecidableEq

namespace Exec

/-- Pays for one instruction. -/
def tick : Exec Unit
  | ⟨store, 0, trace⟩ => .error (.fatal .stepBudgetExceeded) ⟨store, 0, trace⟩
  | ⟨store, fuel + 1, trace⟩ => .ok () ⟨store, fuel, trace⟩

/-- The work of an instruction; what stops it is reported at its site. -/
def work {α : Type} (site : Site) (w : Work α) : Exec α
  | ⟨store, fuel, trace⟩ =>
    match w store with
    | .ok x store => .ok x ⟨store, fuel, trace⟩
    | .error h store => .error (h.at (some site)) ⟨store, fuel, trace⟩

def emit (e : TraceEvent) : Exec Unit
  | ⟨store, fuel, trace⟩ => .ok () ⟨store, fuel, trace.emit e⟩

/-- A way to run a function for the instruction at a site. -/
abbrev Runner := Site → Activation → Exec Addr

/-- The runner where no further frame is allowed. -/
def tooDeep : Runner := fun site _ => throw (.fault .callDepth (some site))

/-- Does the instructions of a chunk, of which the first stands at `place`. Past the
last one control falls through to the chunk `following`. -/
def runCode (runner : Runner) (act : Activation) (following : Nat) :
    List Instr → Nat → Regs → Exec ChunkEnd
  | [], _, regs => return .jump following regs
  | i :: rest, place, regs => do
    tick
    let site : Site := ⟨act.func, place⟩
    let (regs, effect) ← work site (i.exec act regs)
    match effect with
    | .next => runCode runner act following rest (place + 1) regs
    | .goto target => return .jump target.toNat regs
    | .call dst callee =>
      let value ← runner site callee
      runCode runner act following rest (place + 1) (regs.set dst value)
    | .replace callee scope => return .replace callee scope
    | .finish value => return .finish value

/-- Follows control from chunk to chunk, for at most so many chunks. -/
def runChunks (runner : Runner) (p : Program) (depth : Nat) :
    Nat → Activation → Scope → Nat → Regs → Exec Addr
  | 0, _, _, _, _ => throw (.fatal .stepBudgetExceeded)
  | n + 1, act, scope, number, regs => do
    match p.functions[act.func.index]? with
    | none => throw (.fatal (.notComposed act.func))
    | some chunks =>
      match chunks[number]? with
      | none => throw (.fault (.mismatch .missingTerminator) (some ⟨act.func, 0⟩))
      | some chunk =>
        match ← runCode runner act (number + 1) chunk.code chunk.start regs with
        | .jump number regs => runChunks runner p depth n act scope number regs
        | .finish value =>
          emit (.exit scope depth)
          return value
        | .replace callee inner =>
          emit (.exit scope depth)
          emit (.enter inner depth)
          runChunks runner p depth n callee inner 0 callee.freshRegs

/-- Runs a function in a frame of its own, under which so many more may be opened.
Every chunk pays for an instruction, so there are no more chunks than steps. -/
def runFrame (p : Program) : Nat → Nat → Activation → Exec Addr
  | deeper, depth, act => do
    let scope := Scope.frame act.func
    emit (.enter scope depth)
    let runner : Runner :=
      match deeper with
      | 0 => tooDeep
      | deeper + 1 => fun _ callee => runFrame p deeper (depth + 1) callee
    runChunks runner p depth ((← get).fuel + 1) act scope 0 act.freshRegs

end Exec

/-- Runs an activation as the entry frame. -/
def Program.evaluate (p : Program) (maxDepth : Nat) (act : Activation) : Exec Addr :=
  Exec.runFrame p (maxDepth - 1) 1 act

end ValueMachine
