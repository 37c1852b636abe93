import ValueMachine.Store.Error

/-! How an evaluation can end without a value.

A fault is the fault of the program or its argument; it becomes an error text, a
value like any other. A fatal error has no value at all. -/
namespace ValueMachine

inductive Fault
  | mismatch (m : Mismatch)
  | dangling (d : Dangling)
  | divisionByZero
  /-- The head or the tail of an empty list. -/
  | emptyList
  /-- A register read before it was written. -/
  | uninitialized (reg : UInt32)
  /-- Too many frames at a time. -/
  | callDepth
  | trap (code : UInt32)
deriving DecidableEq

def Fault.message : Fault → String
  | mismatch m => "type mismatch: " ++ m.message
  | dangling d => d.message
  | divisionByZero => "division by zero"
  | emptyList => "empty list"
  | uninitialized reg => "register r" ++ toString reg.toNat ++ " read before write"
  | callDepth => "call depth exceeded"
  | trap code => "trap " ++ toString code.toNat

/-- Why an evaluation has no outcome. -/
inductive EvalError
  | stepBudgetExceeded
  /-- The function was not there when the program was composed. -/
  | notComposed (func : FuncId)
  | store (e : StoreError)
deriving DecidableEq

def EvalError.message : EvalError → String
  | stepBudgetExceeded => "step budget exceeded"
  | notComposed func => "function " ++ func.label ++ " was not composed"
  | store e => "store error: " ++ e.message

/-- The instruction at which a fault was raised. -/
structure Site where
  func : FuncId
  place : Nat
deriving DecidableEq

/-- Why the work on one instruction ended early. -/
inductive Halt
  | fault (f : Fault)
  | fatal (e : EvalError)
deriving DecidableEq

/-- A refusal of the store is the fault of the program, unless the store is full. -/
def Halt.ofStoreError : StoreError → Halt
  | .dangling d => .fault (.dangling d)
  | .mismatch m => .fault (.mismatch m)
  | e => .fatal (.store e)

/-- Why an evaluation ended early. A fault without a site was raised before the first
instruction. -/
inductive Stop
  | fault (f : Fault) (site : Option Site)
  | fatal (e : EvalError)
deriving DecidableEq

def Halt.at (h : Halt) (site : Option Site) : Stop :=
  match h with
  | .fault f => .fault f site
  | .fatal e => .fatal e

/-- The text that a fault becomes. -/
def Fault.report (f : Fault) (site : Option Site) : String :=
  f.message ++ " at " ++
    match site with
    | some site => site.func.label ++ ":" ++ toString site.place
    | none => "entry"

end ValueMachine
