import ValueMachine.Eval.Trace
import ValueMachine.Store.Construct

/-! What one instruction does.

An instruction works on the registers of one frame and on the store. Whatever
leaves the frame or jumps inside it is not done here but returned as an effect, so
that every way of running code gives instructions the same meaning. -/
namespace ValueMachine

/-- The registers of a frame; a register that was never written holds nothing. -/
abbrev Regs := Array (Option Addr)

/-- A function that is being run: its body, what it has captured, its arguments, and
the shape that its result owes to whoever waits for it. -/
structure Activation where
  func : FuncId
  body : Body
  captures : Array Addr
  args : Array Addr
  owed : ShapeId
deriving DecidableEq

/-- The registers at the start of a function. -/
def Activation.freshRegs (act : Activation) : Regs :=
  Array.replicate act.body.registers.toNat none

/-- What remains to be done after an instruction has worked on its frame. -/
inductive Effect
  /-- Go on with the next instruction. -/
  | next
  /-- Go on elsewhere in the same code. -/
  | goto (target : UInt32)
  /-- Run a function and put its result into a register. -/
  | call (dst : Reg) (act : Activation)
  /-- Run a function in place of this one. -/
  | replace (act : Activation) (scope : Scope)
  | finish (value : Addr)
deriving DecidableEq

/-- Work on a store for one instruction. -/
abbrev Work := EStateM Halt Store

@[always_inline] instance : MonadLift StoreM Work := ⟨fun op s =>
  match op s with
  | .ok x s => .ok x s
  | .error e s => .error (Halt.ofStoreError e) s⟩

namespace Work

@[inline] def fault {α : Type} (f : Fault) : Work α := throw (.fault f)

@[inline] def mismatch {α : Type} (m : Mismatch) : Work α := fault (.mismatch m)

/-- Asks the store a question that does not change it. -/
@[inline] def ask {α : Type} (question : Store → Except StoreError α) : Work α :=
  liftM (Store.ask question)

def value (a : Addr) : Work Value := ask fun s => s.resolve a

/-! ### Registers -/

def readReg (regs : Regs) (r : Reg) : Work Addr :=
  match regs[r.toNat]? with
  | some (some a) => return a
  | _ => fault (.uninitialized r)

def readRegs (regs : Regs) (rs : List Reg) : Work (List Addr) := rs.mapM (readReg regs)

/-! ### Operations on values -/

def arith (op : ArithOp) (a b : Addr) : Work Addr := do
  match ← value a, ← value b with
  | .ring bits x, .ring right y =>
    if bits ≠ right then mismatch (.ringWidth bits right)
    else
      match Ring.arith? op bits x y with
      | some z => Store.ring bits z
      | none => fault .divisionByZero
  | .flex x, .flex y => Store.flex (Flex.apply op x y)
  | .ring _ _, other => mismatch (.kind .ring other.kind)
  | .flex _, other => mismatch (.kind .flex other.kind)
  | other, _ => mismatch (.kind .ring other.kind)

/-- Whether the comparison holds. -/
def compare (op : CmpOp) (a b : Addr) : Work Bool := do
  match op, ← value a, ← value b with
  | .eq, _, _ => return a == b
  | op, .ring bits x, .ring right y =>
    if bits ≠ right then mismatch (.ringWidth bits right)
    else return if op = .lt then x < y else x ≤ y
  | op, .flex x, .flex y => return if op = .lt then x.lt y else x.le y
  | _, .ring _ _, other => mismatch (.kind .ring other.kind)
  | _, .flex _, other => mismatch (.kind .flex other.kind)
  | _, other, _ => mismatch (.kind .ring other.kind)

def project (tuple : Addr) (index : UInt32) : Work Addr := do
  match ← value tuple with
  | .tuple items =>
    match items[index.toNat]? with
    | some a => return a
    | none => mismatch (.indexOutOfRange index items.size)
  | other => mismatch (.kind .tuple other.kind)

/-- The tag and the payload of a cotuple. -/
def untag (a : Addr) : Work (UInt32 × Addr) := do
  match ← value a with
  | .cotuple _ tag payload => return (tag, payload)
  | other => mismatch (.kind .cotuple other.kind)

/-- The target at the place of a tag. -/
def targetFor (targets : Array UInt32) (tag : UInt32) : Work UInt32 :=
  match targets[tag.toNat]? with
  | some target => return target
  | none => mismatch (.tagOutOfRange tag targets.size)

def head (list : Addr) : Work Addr := do
  match ← value list with
  | .cons _ head _ => return head
  | .nil _ => fault .emptyList
  | other => mismatch (.kind .list other.kind)

def tail (list : Addr) : Work Addr := do
  match ← value list with
  | .cons _ _ tail => return tail
  | .nil _ => fault .emptyList
  | other => mismatch (.kind .list other.kind)

def isNil (list : Addr) : Work Bool := do
  match ← value list with
  | .nil _ => return true
  | .cons _ _ _ => return false
  | other => mismatch (.kind .list other.kind)

/-- What a truth value says. -/
def readTruth (cond : Addr) : Work Bool := do
  match ← value cond with
  | .cotuple t tag _ =>
    if t = ShapeId.truth then return tag == 0
    else mismatch (.nonconforming cond ShapeId.truth)
  | other => mismatch (.kind .cotuple other.kind)

/-! ### Calls -/

/-- Every argument has the shape of its parameter. -/
def checkArgs : List Addr → List ShapeId → Work Unit
  | arg :: args, param :: params => do
    ask (·.checkConforms arg param)
    checkArgs args params
  | _, _ => return ()

/-- The activation of a function value on arguments. In place of another function
the result is still owed to the one that waits for that function. -/
def prepare (callee : Addr) (args : List Addr) (owed : Option ShapeId) : Work Activation := do
  match ← value callee with
  | .function f captures =>
    let body ← ask fun s => s.body f
    if args.length ≠ body.arity then mismatch (.arity body.arity args.length)
    else
      checkArgs args body.params
      return ⟨f, body, captures, args.toArray, owed.getD body.result⟩
  | other => mismatch (.kind .function other.kind)

/-- The returned value has the shape of the function's result and the owed shape. -/
def checkResult (act : Activation) (value : Addr) : Work Unit := do
  ask (·.checkConforms value act.body.result)
  if act.owed ≠ act.body.result then ask (·.checkConforms value act.owed)

/-- The arguments that an argument value stands for: itself for a function of one
parameter, the items of a tuple otherwise. -/
def unpack (arity : Nat) (arg : Addr) : Work (List Addr) := do
  match arity, ← value arg with
  | 1, _ => return [arg]
  | arity, .tuple items =>
    if items.size = arity then return items.toList else mismatch (.arity arity items.size)
  | _, other => mismatch (.kind .tuple other.kind)

end Work

/-! ### Instructions -/

/-- Writes a register; there is no effect if it does not exist. -/
def Regs.set (regs : Regs) (dst : Reg) (a : Addr) : Regs := regs.setIfInBounds dst.toNat (some a)

/-- Puts a computed value into a register and goes on. -/
@[inline] def Work.into (regs : Regs) (dst : Reg) (x : Work Addr) : Work (Regs × Effect) := do
  let a ← x
  return (regs.set dst a, .next)

open Work in
/-- Does an instruction on the registers of a frame. -/
def Instr.exec (act : Activation) (regs : Regs) : Instr → Work (Regs × Effect)
  | nop => return (regs, .next)
  | trap code => fault (.trap code)
  | const dst addr => into regs dst do
    discard (value addr)
    return addr
  | arg dst index => into regs dst do
    match act.args[index.toNat]? with
    | some a => return a
    | none => mismatch (.argOutOfRange index act.args.size)
  | capture dst index => into regs dst do
    match act.captures[index.toNat]? with
    | some a => return a
    | none => mismatch (.indexOutOfRange index act.captures.size)
  | mov dst src => into regs dst (readReg regs src)
  | arith op dst a b => into regs dst do
    let x ← readReg regs a
    let y ← readReg regs b
    Work.arith op x y
  | cmp op dst a b => into regs dst do
    let x ← readReg regs a
    let y ← readReg regs b
    return Addr.truth (← compare op x y)
  | tupleNew dst items => into regs dst do
    let items ← readRegs regs items
    Store.tuple items
  | tupleGet dst tuple index => into regs dst do
    let t ← readReg regs tuple
    project t index
  | cotupleNew dst t tag payload => into regs dst do
    let x ← readReg regs payload
    Store.cotuple t tag x
  | branch scrutinee payload targets => do
    let x ← readReg regs scrutinee
    let (tag, inner) ← untag x
    let target ← targetFor targets tag
    return (regs.set payload inner, .goto target)
  | nil dst elem => into regs dst (Store.nil elem)
  | cons dst first rest => into regs dst do
    let x ← readReg regs first
    let xs ← readReg regs rest
    Store.cons x xs
  | head dst list => into regs dst do
    let xs ← readReg regs list
    Work.head xs
  | tail dst list => into regs dst do
    let xs ← readReg regs list
    Work.tail xs
  | isNil dst list => into regs dst do
    let xs ← readReg regs list
    return Addr.truth (← Work.isNil xs)
  | refl dst a b => into regs dst do
    let x ← readReg regs a
    let y ← readReg regs b
    Store.identity x y
  | closure dst func captures => into regs dst do
    let captures ← readRegs regs captures
    let f ← readReg regs func
    Store.closure f captures
  | call dst func args => do
    let f ← readReg regs func
    let args ← readRegs regs args
    let callee ← prepare f args none
    return (regs, .call dst callee)
  | tailCall func args => do
    let f ← readReg regs func
    let args ← readRegs regs args
    let callee ← prepare f args (some act.owed)
    return (regs, .replace callee (.frame callee.func))
  | defer cond onProved onDisproved args => do
    let truth ← readReg regs cond
    let proved ← readTruth truth
    let f ← readReg regs (if proved then onProved else onDisproved)
    let args ← readRegs regs args
    let callee ← prepare f args (some act.owed)
    return (regs, .replace callee (.deferral callee.func proved))
  | jmp target => return (regs, .goto target)
  | ret src => do
    let value ← readReg regs src
    checkResult act value
    return (regs, .finish value)

end ValueMachine
