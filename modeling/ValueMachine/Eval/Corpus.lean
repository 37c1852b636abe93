import ValueMachine.Code.Assembler
import ValueMachine.Store.Construct
import ValueMachine.Store.Register

/-! Small programs on which every way of running code must agree.

Together they use calls, calls in place, deferral, branches on truth values and
lists, and the faults that a program can cause. -/
namespace ValueMachine

/-- A function and an argument to try it on. -/
structure Case where
  name : String
  entry : Addr
  arg : Addr
deriving DecidableEq

structure Corpus where
  store : Store
  ring8 : ShapeId
  ring16 : ShapeId
  /-- The square of a number of eight bits. -/
  square : Addr
  /-- Whether a number of eight bits is even. -/
  isEven : Addr
  cases : List Case

namespace Corpus

/-- Registers assembled code. A body whose labels are not placed is refused like an
empty one. -/
def define (params : List ShapeId) (result : ShapeId) (registers : UInt32) (a : Assembler) :
    StoreM Addr :=
  match a.finishBody params result registers with
  | .ok body => Store.register body
  | .error _ => throw (.mismatch .emptyBody)

/-- Registers code without labels. -/
def defineCode (params : List ShapeId) (result : ShapeId) (registers : UInt32)
    (code : List Instr) : StoreM Addr :=
  define params result registers (Assembler.empty.emitAll code)

/-- Two branches on a truth value: code in front, the code for `proved`, and the code
for `disproved`. -/
def branching (front : List Instr) (scrutinee payload : Reg) (proved disproved : List Instr) :
    Except UnresolvedLabel Assembler := do
  let a := Assembler.empty
  let first := a.nextLabel
  let a := a.addLabel
  let second := a.nextLabel
  let a := (a.addLabel.emitAll front).branch scrutinee payload [first, second]
  let a ← a.place first
  let a ← (a.emitAll proved).place second
  return a.emitAll disproved

/-- Registers code that branches on a truth value. -/
def defineBranching (params : List ShapeId) (result : ShapeId) (registers : UInt32)
    (a : Except UnresolvedLabel Assembler) : StoreM Addr :=
  match a with
  | .ok a => define params result registers a
  | .error _ => throw (.mismatch .emptyBody)

/-- A function of any value of the domain that returns a text. -/
def constantText (domain : ShapeId) (s : String) : StoreM Addr := do
  let value ← Store.text s
  defineCode [domain] ShapeId.text 1 [.const 0 value, .ret 0]

/-- Adds the programs and their arguments to a store. -/
def define? : StoreM (Store → Corpus) := do
  let ring8 ← Store.shape (.ring 8)
  let ring16 ← Store.shape (.ring 16)
  let list8 ← Store.shape (.list ring8)
  let zero8 ← Store.ring 8 0
  let one8 ← Store.ring 8 1
  let two8 ← Store.ring 8 2
  let ten8 ← Store.ring 8 10
  let zero16 ← Store.ring 16 0
  let one16 ← Store.ring 16 1
  let square ← defineCode [ring8] ring8 2 [.arg 0 0, .arith .mul 1 0 0, .ret 1]
  let fourthPower ← defineCode [ring8] ring8 4
    [.arg 0 0, .const 1 square, .call 2 1 [0], .call 3 1 [2], .ret 3]
  let isEven ← defineCode [ring8] ShapeId.truth 4
    [.arg 0 0, .const 1 two8, .arith .rem 2 0 1, .const 3 zero8, .cmp .eq 2 2 3, .ret 2]
  let small ← constantText ring8 "small"
  let big ← constantText ring8 "big"
  let classify ← defineCode [ring8] ShapeId.text 5
    [.arg 0 0, .const 1 ten8, .cmp .lt 2 0 1, .const 3 small, .const 4 big, .defer 2 3 4 [0]]
  -- The sum of the numbers up to `n`, added to an accumulator.
  let sumTo ← defineBranching [ShapeId.any, ring16, ring16] ring16 9 <| branching
    [.arg 0 0, .arg 1 1, .arg 2 2, .const 3 zero16, .cmp .eq 4 1 3] 4 5
    [.ret 2]
    [.const 6 one16, .arith .sub 7 1 6, .arith .add 8 2 1, .tailCall 0 [0, 7, 8]]
  -- The length of a list, added to an accumulator.
  let length ← defineBranching [ShapeId.any, list8, ring8] ring8 8 <| branching
    [.arg 0 0, .arg 1 1, .arg 2 2, .isNil 3 1] 3 4
    [.ret 2]
    [.tail 5 1, .const 6 one8, .arith .add 7 2 6, .tailCall 0 [0, 5, 7]]
  let first ← defineCode [list8] ring8 2 [.arg 0 0, .head 1 0, .ret 1]
  let divide ← defineCode [ring8, ring8] ring8 3 [.arg 0 0, .arg 1 1, .arith .div 2 0 1, .ret 2]
  let trap ← defineCode [ring8] ring8 1 [.trap 7]
  let forever ← defineCode [ShapeId.any] ShapeId.any 1 [.arg 0 0, .tailCall 0 [0]]
  let three ← Store.ring 8 3
  let seven ← Store.ring 8 7
  let twelve ← Store.ring 8 12
  let ten16 ← Store.ring 16 10
  let half ← Store.flex (Flex.ofBits 0x3fe0000000000000)
  let items ← Store.list ring8 [one8, two8, three]
  let empty ← Store.nil ring8
  let sumArg ← Store.tuple [sumTo, ten16, zero16]
  let lengthArg ← Store.tuple [length, items, zero8]
  let divideOk ← Store.tuple [twelve, three]
  let divideZero ← Store.tuple [seven, zero8]
  let wrongArity ← Store.tuple [seven]
  return fun store =>
    { store, ring8, ring16, square, isEven
      cases :=
        [ ⟨"square", square, seven⟩,
          ⟨"square_kind_mismatch", square, half⟩,
          ⟨"fourth_power", fourthPower, three⟩,
          ⟨"is_even", isEven, twelve⟩,
          ⟨"classify_small", classify, three⟩,
          ⟨"classify_big", classify, twelve⟩,
          ⟨"sum_to", sumTo, sumArg⟩,
          ⟨"length", length, lengthArg⟩,
          ⟨"first", first, items⟩,
          ⟨"first_of_empty", first, empty⟩,
          ⟨"divide", divide, divideOk⟩,
          ⟨"divide_by_zero", divide, divideZero⟩,
          ⟨"divide_wrong_arity", divide, wrongArity⟩,
          ⟨"trap", trap, seven⟩,
          ⟨"not_a_function", seven, seven⟩,
          ⟨"forever", forever, forever⟩ ] }

/-- The programs in a store of their own. -/
def build : Except StoreError Corpus :=
  match define? Store.initial with
  | .ok corpus store => .ok (corpus store)
  | .error e _ => .error e

/-- A case by its name. -/
def case? (c : Corpus) (name : String) : Option Case := c.cases.find? (·.name == name)

end Corpus

end ValueMachine
