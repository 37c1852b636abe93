import ValueMachine.Code.Instr

/-! Function bodies and their division into blocks.

A basic block is a run of instructions that is entered only at its first one. A
block starts at the beginning of the body, at every branch target and after every
terminator. -/
namespace ValueMachine

/-- A function body with its signature. -/
structure Body where
  params : List ShapeId
  result : ShapeId
  /-- The number of registers of a frame. -/
  registers : UInt32
  code : Array Instr
deriving DecidableEq, Inhabited

namespace Body

def arity (f : Body) : Nat := f.params.length

/-- Whether a basic block starts at a place. -/
def startsBlock (code : Array Instr) (branched : Array Bool) (place : Nat) : Bool :=
  place == 0 || branched.getD place false || (code[place - 1]?).any (·.isTerminator)

/-- For every place, whether some instruction may branch to it. -/
def branched (code : Array Instr) : Array Bool :=
  let mark (marks : Array Bool) (t : UInt32) := marks.setIfInBounds t.toNat true
  code.foldl (fun marks i => i.targets.foldl mark marks) (Array.replicate code.size false)

/-- The places at which basic blocks start, in order. -/
def blockStarts (code : Array Instr) : List Nat :=
  let marks := branched code
  (List.range code.size).filter (startsBlock code marks)

end Body

end ValueMachine
