import ValueMachine.Code.Body

/-! Building code with labels for branch targets.

An instruction is added as it stands. A branch to labels is added with placeholders for
its targets, and of each it is kept which label belongs there. A label is placed at the
next instruction, and may be placed again; the last place counts. The places are put
into the branches when the code is finished. -/
namespace ValueMachine

/-- A label by its number; labels are numbered in the order in which they are
made. -/
structure Label where
  number : UInt32
deriving DecidableEq

/-- A label was used or placed that has no place in the program. -/
structure UnresolvedLabel where
deriving DecidableEq

def UnresolvedLabel.message (_ : UnresolvedLabel) : String :=
  "label was referenced but never placed"

/-- A branch target that the place of a label is to be put into. -/
structure Fixup where
  /-- The place of the branch. -/
  place : Nat
  /-- The number of the target among those of the branch. -/
  slot : Nat
  label : Label
deriving DecidableEq

structure Assembler where
  code : Array Instr
  /-- The places of the labels that have been made. -/
  labels : Array (Option UInt32)
  fixups : Array Fixup

/-- Stands for a branch target until the code is finished. -/
def placeholder : UInt32 := 0xffffffff

/-- Puts a target into a slot of the instruction, if it has the slot. -/
def Instr.setTarget? (slot : Nat) (target : UInt32) : Instr → Option Instr
  | jmp _ => if slot = 0 then some (jmp target) else none
  | branch scrutinee payload targets =>
    if slot < targets.size then
      some (branch scrutinee payload (targets.setIfInBounds slot target))
    else none
  | _ => none

namespace Assembler

def empty : Assembler := ⟨#[], #[], #[]⟩

/-- The place of the next instruction. -/
def next (a : Assembler) : UInt32 := a.code.size.toUInt32

/-- Adds an instruction as it stands. -/
def emit (a : Assembler) (i : Instr) : Assembler := { a with code := a.code.push i }

def emitAll (a : Assembler) (code : List Instr) : Assembler := code.foldl emit a

/-- Keeps which label belongs into a slot of the last instruction. -/
def fixup (a : Assembler) (slot : Nat) (label : Label) : Assembler :=
  { a with fixups := a.fixups.push ⟨a.code.size - 1, slot, label⟩ }

def jump (a : Assembler) (label : Label) : Assembler := (a.emit (.jmp placeholder)).fixup 0 label

def branch (a : Assembler) (scrutinee payload : Reg) (labels : List Label) : Assembler :=
  labels.zipIdx.foldl (fun a (label, slot) => a.fixup slot label)
    (a.emit (.branch scrutinee payload (Array.replicate labels.length placeholder)))

/-- The label that is made next. -/
def nextLabel (a : Assembler) : Label := ⟨a.labels.size.toUInt32⟩

/-- Makes a label; it is the one that `nextLabel` tells. -/
def addLabel (a : Assembler) : Assembler := { a with labels := a.labels.push none }

/-- Places a label at the next instruction. -/
def place (a : Assembler) (label : Label) : Except UnresolvedLabel Assembler :=
  if label.number.toNat < a.labels.size then
    .ok { a with labels := a.labels.setIfInBounds label.number.toNat (some a.next) }
  else .error ⟨⟩

/-- The place of a label. -/
def target (a : Assembler) (label : Label) : Except UnresolvedLabel UInt32 :=
  match a.labels[label.number.toNat]? with
  | some (some place) => .ok place
  | _ => .error ⟨⟩

/-- Puts the place of a label into the code. -/
def patch (a : Assembler) (code : Array Instr) (f : Fixup) :
    Except UnresolvedLabel (Array Instr) := do
  let target ← a.target f.label
  match code[f.place]?.bind (·.setTarget? f.slot target) with
  | some i => .ok (code.setIfInBounds f.place i)
  | none => .error ⟨⟩

/-- The finished code. -/
def finish (a : Assembler) : Except UnresolvedLabel (Array Instr) := a.fixups.foldlM a.patch a.code

/-- The finished code as the body of a function. -/
def finishBody (a : Assembler) (params : List ShapeId) (result : ShapeId) (registers : UInt32) :
    Except UnresolvedLabel Body :=
  return ⟨params, result, registers, ← a.finish⟩

end Assembler

end ValueMachine
