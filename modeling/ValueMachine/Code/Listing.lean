import Std.Data.HashMap
import ValueMachine.Store.Basic
import ValueMachine.Text.Number
import ValueMachine.Text.Quoted

/-! Function bodies as text.

A listing has a line for the signature, a line for the start of every basic block
and a line for every instruction, which gives its place. Branch targets are shown
by the number of their block, and a constant is followed by a short form of the
value that it names. -/
namespace ValueMachine

/-- A decimal number of at least six digits. -/
def sixDigits (n : Nat) : String :=
  let digits := toString n
  String.ofList (List.replicate (6 - digits.length) '0') ++ digits

/-- The numbers of blocks by the places at which they start. -/
abbrev BlockNumbers := Std.HashMap Nat Nat

/-- Blocks are numbered in the order of their starts. -/
def BlockNumbers.ofStarts (starts : List Nat) : BlockNumbers := .ofList starts.zipIdx

/-- A branch target: the number of its block, or the place if no block starts
there. -/
def renderTarget (blocks : BlockNumbers) (target : UInt32) : String :=
  match blocks[target.toNat]? with
  | some block => "@L" ++ toString block
  | none => "@" ++ sixDigits target.toNat

def renderReg (r : Reg) : String := "r" ++ toString r.toNat

def renderRegs (rs : List Reg) : String := "[" ++ ", ".intercalate (rs.map renderReg) ++ "]"

namespace Instr

/-- The operands as text, separated by commas. -/
def operands (blocks : BlockNumbers) : Instr → List String
  | nop => []
  | trap code => [toString code.toNat]
  | const dst addr => [renderReg dst, addr.label]
  | arg dst index | capture dst index => [renderReg dst, toString index.toNat]
  | mov dst src => [renderReg dst, renderReg src]
  | arith _ dst a b | cmp _ dst a b | refl dst a b => [renderReg dst, renderReg a, renderReg b]
  | tupleNew dst items => [renderReg dst, renderRegs items]
  | tupleGet dst tuple index => [renderReg dst, renderReg tuple, toString index.toNat]
  | cotupleNew dst t tag payload =>
    [renderReg dst, t.label ++ "::" ++ toString tag.toNat, renderReg payload]
  | branch scrutinee payload targets =>
    [renderReg scrutinee, renderReg payload,
      "[" ++ ", ".intercalate (targets.toList.map (renderTarget blocks)) ++ "]"]
  | nil dst elem => [renderReg dst, elem.label]
  | cons dst first rest => [renderReg dst, renderReg first, renderReg rest]
  | head dst list | tail dst list | isNil dst list => [renderReg dst, renderReg list]
  | closure dst func captures => [renderReg dst, renderReg func, renderRegs captures]
  | call dst func args => [renderReg dst, renderReg func, renderRegs args]
  | tailCall func args => [renderReg func, renderRegs args]
  | defer cond onProved onDisproved args =>
    [renderReg cond, renderReg onProved, renderReg onDisproved, renderRegs args]
  | jmp target => [renderTarget blocks target]
  | ret src => [renderReg src]

/-- The instruction on one line, with its targets shown as the given blocks. -/
def renderWith (blocks : BlockNumbers) (i : Instr) : String :=
  match i.operands blocks with
  | [] => i.opcode.mnemonic
  | operands => i.opcode.mnemonic ++ " " ++ ", ".intercalate operands

/-- The instruction on one line, with its targets shown as places. -/
def render (i : Instr) : String := i.renderWith ∅

end Instr

namespace Store

/-- A short form of the value at a place. -/
def brief (s : Store) (a : Addr) : String :=
  match s.value? a with
  | none => "<out of range>"
  | some v =>
    match v with
    | .ring bits x => "ring" ++ toString bits.toNat ++ " " ++ toString x.toNat
    | .flex x => "flex " ++ x.render
    | .char c => Quoted.char c
    | .text t => Quoted.text t
    | .tuple items => if items.isEmpty then "()" else v.kind.label
    | .cotuple t tag payload =>
      t.label ++ "::" ++ toString tag.toNat ++ "(" ++ payload.label ++ ")"
    | .function f captures =>
      if captures.isEmpty then f.label
      else f.label ++ " +" ++ toString captures.size ++ " captures"
    | .nil elem => "[] of " ++ elem.label
    | v => v.kind.label

/-- The line of an instruction, with its block line in front if a block starts
there. -/
def listingLine (s : Store) (blocks : BlockNumbers) (place : Nat) (i : Instr) : String :=
  let block :=
    match blocks[place]? with
    | some n => "  @L" ++ toString n ++ ":\n"
    | none => ""
  let value :=
    match i with
    | .const _ a => " ; " ++ s.brief a
    | _ => ""
  block ++ "  " ++ sixDigits place ++ ": " ++ i.renderWith blocks ++ value ++ "\n"

/-- A function body as text. -/
def listingOf (s : Store) (f : FuncId) (b : Body) : String :=
  let blocks := BlockNumbers.ofStarts (Body.blockStarts b.code)
  let head :=
    "func " ++ f.label ++ "(" ++ Shape.labels b.params ++ ") -> " ++ b.result.label ++
      " regs=" ++ toString b.registers.toNat ++ ":\n"
  head ++ String.join (b.code.toList.zipIdx.map fun (i, place) => s.listingLine blocks place i)

/-- A registered function as text. -/
def listing (s : Store) (f : FuncId) : Except Mismatch String :=
  (s.body f).map (s.listingOf f)

end Store

end ValueMachine
