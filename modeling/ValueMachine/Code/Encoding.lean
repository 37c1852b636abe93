import ValueMachine.Bytes.Reader
import ValueMachine.Code.Instr

/-! Instructions as bytes.

An instruction is its opcode byte, its single operands and, if the opcode takes a
list, the list with its length in front. -/
namespace ValueMachine

namespace Instr

def encode (i : Instr) : List UInt8 :=
  i.opcode.byte :: (i.words.flatMap encodeWord ++
    if i.opcode.hasList then encodeWords i.items else [])

/-- The number of bytes of the encoded instruction. -/
def encodedLength (i : Instr) : Nat :=
  1 + 4 * i.opcode.wordCount + if i.opcode.hasList then 4 + 4 * i.items.length else 0

def read : Read Instr := do
  let b ← Read.byte
  match Opcode.ofByte? b with
  | none => throw (.unknownOpcode b)
  | some op =>
    let words ← Read.times op.wordCount Read.word
    let items ← if op.hasList then Read.words else pure []
    match ofOperands? op words items with
    | some i => return i
    | none => throw (.unknownOpcode b)

/-- Reads instructions until no byte is left, at most so many. -/
def readAll : Nat → Array Instr → Read (Array Instr)
  | 0, code => return code
  | n + 1, code => do
    if (← get).left = 0 then return code
    let i ← read
    readAll n (code.push i)

end Instr

/-- A whole body as bytes. -/
def encodeCode (code : List Instr) : List UInt8 := code.flatMap Instr.encode

/-- The body that the bytes are. Every instruction takes at least one byte. -/
def decodeCode (bytes : List UInt8) : Except DecodeError (Array Instr) :=
  match Instr.readAll bytes.length #[] (Reader.ofBytes bytes) with
  | .ok code _ => .ok code
  | .error e _ => .error e

end ValueMachine
