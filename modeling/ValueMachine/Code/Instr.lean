import ValueMachine.Code.Opcode
import ValueMachine.Data.Ident

/-! Instructions of a register machine.

Operands are registers of the running frame unless they are named otherwise.
Branch targets are places in the same function body. An instruction is given by
its opcode, a fixed number of single operands and, for some opcodes, one list of
operands; `ofOperands?` puts these together again. -/
namespace ValueMachine

/-- A register of a frame. -/
abbrev Reg := UInt32

inductive Instr
  | nop
  /-- Stops with a fault that carries the code. -/
  | trap (code : UInt32)
  | const (dst : Reg) (addr : Addr)
  | arg (dst : Reg) (index : UInt32)
  | capture (dst : Reg) (index : UInt32)
  | mov (dst src : Reg)
  | arith (op : ArithOp) (dst a b : Reg)
  | cmp (op : CmpOp) (dst a b : Reg)
  | tupleNew (dst : Reg) (items : List Reg)
  | tupleGet (dst tuple : Reg) (index : UInt32)
  | cotupleNew (dst : Reg) (shape : ShapeId) (tag : UInt32) (payload : Reg)
  /-- Puts the payload of a cotuple into a register and goes to the target at the
  place of its tag. -/
  | branch (scrutinee payload : Reg) (targets : Array UInt32)
  | nil (dst : Reg) (elem : ShapeId)
  | cons (dst first rest : Reg)
  | head (dst list : Reg)
  | tail (dst list : Reg)
  | isNil (dst list : Reg)
  /-- Evidence that two equal values are equal. -/
  | refl (dst a b : Reg)
  | jmp (target : UInt32)
  /-- A function value with more captures. -/
  | closure (dst func : Reg) (captures : List Reg)
  | call (dst func : Reg) (args : List Reg)
  | tailCall (func : Reg) (args : List Reg)
  /-- Calls one of two functions in place of the running one, as a truth value
  decides. -/
  | defer (cond onProved onDisproved : Reg) (args : List Reg)
  | ret (src : Reg)
deriving DecidableEq, Inhabited

namespace Instr

def opcode : Instr → Opcode
  | nop => .nop
  | trap _ => .trap
  | const _ _ => .const
  | arg _ _ => .arg
  | capture _ _ => .capture
  | mov _ _ => .mov
  | arith op _ _ _ => .arith op
  | cmp op _ _ _ => .cmp op
  | tupleNew _ _ => .tupleNew
  | tupleGet _ _ _ => .tupleGet
  | cotupleNew _ _ _ _ => .cotupleNew
  | branch _ _ _ => .branch
  | nil _ _ => .nil
  | cons _ _ _ => .cons
  | head _ _ => .head
  | tail _ _ => .tail
  | isNil _ _ => .isNil
  | refl _ _ _ => .refl
  | jmp _ => .jmp
  | closure _ _ _ => .closure
  | call _ _ _ => .call
  | tailCall _ _ => .tailCall
  | defer _ _ _ _ => .defer
  | ret _ => .ret

def isTerminator (i : Instr) : Bool := i.opcode.isTerminator

/-- The places that the instruction may go to. -/
def targets : Instr → List UInt32
  | branch _ _ targets => targets.toList
  | jmp target => [target]
  | _ => []

/-- The registers that the instruction reads or writes. -/
def regs : Instr → List Reg
  | nop | jmp _ | trap _ => []
  | const dst _ | arg dst _ | capture dst _ | nil dst _ => [dst]
  | mov dst src => [dst, src]
  | arith _ dst a b | cmp _ dst a b | refl dst a b => [dst, a, b]
  | tupleNew dst items => dst :: items
  | tupleGet dst tuple _ => [dst, tuple]
  | cotupleNew dst _ _ payload => [dst, payload]
  | branch scrutinee payload _ => [scrutinee, payload]
  | cons dst first rest => [dst, first, rest]
  | head dst list | tail dst list | isNil dst list => [dst, list]
  | closure dst func captures => dst :: func :: captures
  | call dst func args => dst :: func :: args
  | tailCall func args => func :: args
  | defer cond onProved onDisproved args => cond :: onProved :: onDisproved :: args
  | ret src => [src]

/-! ### Operands -/

/-- The single operands, in the order in which they are written down. -/
def words : Instr → List UInt32
  | nop => []
  | trap code => [code]
  | const dst addr => [dst, addr.val]
  | arg dst index | capture dst index => [dst, index]
  | mov dst src => [dst, src]
  | arith _ dst a b | cmp _ dst a b | refl dst a b => [dst, a, b]
  | tupleNew dst _ => [dst]
  | tupleGet dst tuple index => [dst, tuple, index]
  | cotupleNew dst shape tag payload => [dst, shape.val, tag, payload]
  | branch scrutinee payload _ => [scrutinee, payload]
  | nil dst elem => [dst, elem.val]
  | cons dst first rest => [dst, first, rest]
  | head dst list | tail dst list | isNil dst list => [dst, list]
  | jmp target => [target]
  | closure dst func _ | call dst func _ => [dst, func]
  | tailCall func _ => [func]
  | defer cond onProved onDisproved _ => [cond, onProved, onDisproved]
  | ret src => [src]

/-- The list of operands; empty for an instruction that takes none. -/
def items : Instr → List UInt32
  | tupleNew _ items => items
  | branch _ _ targets => targets.toList
  | closure _ _ captures => captures
  | call _ _ args | tailCall _ args | defer _ _ _ args => args
  | _ => []

/-- The instruction with the given opcode and operands, if their numbers fit. -/
def ofOperands? : Opcode → List UInt32 → List UInt32 → Option Instr
  | .nop, [], [] => some nop
  | .trap, [code], [] => some (trap code)
  | .const, [dst, addr], [] => some (const dst ⟨addr⟩)
  | .arg, [dst, index], [] => some (arg dst index)
  | .capture, [dst, index], [] => some (capture dst index)
  | .mov, [dst, src], [] => some (mov dst src)
  | .arith op, [dst, a, b], [] => some (arith op dst a b)
  | .cmp op, [dst, a, b], [] => some (cmp op dst a b)
  | .tupleNew, [dst], items => some (tupleNew dst items)
  | .tupleGet, [dst, tuple, index], [] => some (tupleGet dst tuple index)
  | .cotupleNew, [dst, shape, tag, payload], [] => some (cotupleNew dst ⟨shape⟩ tag payload)
  | .branch, [scrutinee, payload], targets => some (branch scrutinee payload targets.toArray)
  | .nil, [dst, elem], [] => some (nil dst ⟨elem⟩)
  | .cons, [dst, first, rest], [] => some (cons dst first rest)
  | .head, [dst, list], [] => some (head dst list)
  | .tail, [dst, list], [] => some (tail dst list)
  | .isNil, [dst, list], [] => some (isNil dst list)
  | .refl, [dst, a, b], [] => some (refl dst a b)
  | .jmp, [target], [] => some (jmp target)
  | .closure, [dst, func], captures => some (closure dst func captures)
  | .call, [dst, func], args => some (call dst func args)
  | .tailCall, [func], args => some (tailCall func args)
  | .defer, [cond, onProved, onDisproved], args => some (defer cond onProved onDisproved args)
  | .ret, [src], [] => some (ret src)
  | _, _, _ => none

theorem ofOperands?_self (i : Instr) : ofOperands? i.opcode i.words i.items = some i := by
  cases i <;> rfl

/-- The instruction with every branch target replaced. -/
def retarget (f : UInt32 → UInt32) : Instr → Instr
  | branch scrutinee payload targets => branch scrutinee payload (targets.map f)
  | jmp target => jmp (f target)
  | i => i

end Instr

end ValueMachine
