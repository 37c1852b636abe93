import ValueMachine.Data.Ring

/-! The instruction set, one opcode for each instruction.

The bytes are part of the encoded form of function bodies and snapshots. -/
namespace ValueMachine

/-- Comparisons; each gives a truth value. -/
inductive CmpOp
  /-- Equality of places, which is equality of contents. -/
  | eq
  | lt
  | le
deriving DecidableEq

inductive Opcode
  | nop
  | trap
  | const
  | arg
  | capture
  | mov
  | arith (op : ArithOp)
  | cmp (op : CmpOp)
  | tupleNew
  | tupleGet
  | cotupleNew
  | branch
  | nil
  | cons
  | head
  | tail
  | isNil
  | refl
  | jmp
  | closure
  | call
  | tailCall
  | defer
  | ret
deriving DecidableEq

namespace Opcode

def byte : Opcode → UInt8
  | nop => 0x00
  | trap => 0x01
  | const => 0x10
  | arg => 0x11
  | capture => 0x12
  | mov => 0x13
  | arith .add => 0x20
  | arith .sub => 0x21
  | arith .mul => 0x22
  | arith .div => 0x23
  | arith .rem => 0x24
  | cmp .eq => 0x28
  | cmp .lt => 0x29
  | cmp .le => 0x2a
  | tupleNew => 0x30
  | tupleGet => 0x31
  | cotupleNew => 0x34
  | branch => 0x35
  | nil => 0x38
  | cons => 0x39
  | head => 0x3a
  | tail => 0x3b
  | isNil => 0x3c
  | refl => 0x40
  | jmp => 0x48
  | closure => 0x50
  | call => 0x51
  | tailCall => 0x52
  | defer => 0x53
  | ret => 0x58

def mnemonic : Opcode → String
  | nop => "nop"
  | trap => "trap"
  | const => "const"
  | arg => "arg"
  | capture => "capture"
  | mov => "mov"
  | arith .add => "add"
  | arith .sub => "sub"
  | arith .mul => "mul"
  | arith .div => "div"
  | arith .rem => "rem"
  | cmp .eq => "eq"
  | cmp .lt => "lt"
  | cmp .le => "le"
  | tupleNew => "tuple.new"
  | tupleGet => "tuple.get"
  | cotupleNew => "cotuple.new"
  | branch => "match"
  | nil => "list.nil"
  | cons => "list.cons"
  | head => "list.head"
  | tail => "list.tail"
  | isNil => "list.is_nil"
  | refl => "refl"
  | jmp => "jmp"
  | closure => "closure"
  | call => "call"
  | tailCall => "tail_call"
  | defer => "defer"
  | ret => "ret"

def all : List Opcode :=
  [nop, trap, const, arg, capture, mov, arith .add, arith .sub, arith .mul, arith .div, arith .rem,
    cmp .eq, cmp .lt, cmp .le, tupleNew, tupleGet, cotupleNew, branch, nil, cons, head, tail, isNil,
    refl, jmp, closure, call, tailCall, defer, ret]

def ofByte? (b : UInt8) : Option Opcode := all.find? (·.byte == b)

theorem mem_all (op : Opcode) : op ∈ all := by
  cases op with
  | arith op => cases op <;> decide
  | cmp op => cases op <;> decide
  | _ => decide

/-- Whether control never runs on to the next instruction. -/
def isTerminator : Opcode → Bool
  | trap | branch | jmp | tailCall | defer | ret => true
  | _ => false

/-- The number of single operands. -/
def wordCount : Opcode → Nat
  | nop => 0
  | trap | jmp | ret | tupleNew | tailCall => 1
  | const | arg | capture | mov | nil | head | tail | isNil | branch | closure | call => 2
  | arith _ | cmp _ | refl | tupleGet | cons | defer => 3
  | cotupleNew => 4

/-- Whether a list of operands follows the single ones. -/
def hasList : Opcode → Bool
  | tupleNew | branch | closure | call | tailCall | defer => true
  | _ => false

end Opcode

end ValueMachine
