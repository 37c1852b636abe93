import ValueMachine.Data.Ident
import ValueMachine.Data.Kind

/-! What can be wrong with a request to a store.

Every cause has a constructor with what it takes to word it; the wording is in
one `message` for each type. -/
namespace ValueMachine

/-- A place where there is no value. -/
structure Dangling where
  addr : Addr
  /-- How many values the store had. -/
  size : Nat
deriving DecidableEq

def Dangling.message (d : Dangling) : String :=
  "address " ++ d.addr.label ++ " out of range (len " ++ toString d.size ++ ")"

/-- Two places with one content, which a sound store never has. -/
structure Duplicate where
  first : Addr
  second : Addr
deriving DecidableEq

def Duplicate.message (d : Duplicate) : String :=
  "uniqueness violation: " ++ d.second.label ++ " duplicates " ++ d.first.label

/-- A shape, a count or a place that does not fit its use. -/
inductive Mismatch
  | kind (expected actual : Kind)
  | ringWidth (left right : UInt8)
  | ringRange (bits : UInt8) (value : UInt64)
  | arity (expected actual : Nat)
  | tagOutOfRange (tag : UInt32) (alternatives : Nat)
  | indexOutOfRange (index : UInt32) (len : Nat)
  | nonconforming (addr : Addr) (shape : ShapeId)
  | shapeKind (shape : ShapeId) (expected : Kind)
  /-- A list cell and its tail disagree on the shape of the elements. -/
  | listElem (expected actual : ShapeId)
  /-- A statement about a domain whose predicate does not test that domain. -/
  | predicate (addr : Addr) (domain : ShapeId)
  | notEqual (left right : Addr)
  | unknownShape (shape : ShapeId)
  | unknownFunction (func : FuncId)
  | argOutOfRange (index : UInt32) (count : Nat)
  | regOutOfRange (reg count : UInt32)
  | jumpOutOfRange (place : Nat) (target : UInt32)
  | emptyBody
  /-- Control would run past the last instruction. -/
  | missingTerminator
  | emptyCotuple
  | tooLong (len : Nat)
deriving DecidableEq

def Mismatch.message : Mismatch → String
  | kind expected actual => "expected " ++ expected.label ++ ", found " ++ actual.label
  | ringWidth left right =>
    "ring width mismatch: " ++ toString left.toNat ++ " vs " ++ toString right.toNat
  | ringRange bits value => toString value.toNat ++ " does not fit ring" ++ toString bits.toNat
  | arity expected actual =>
    "expected " ++ toString expected ++ " arguments, found " ++ toString actual
  | tagOutOfRange tag alternatives =>
    "tag " ++ toString tag.toNat ++ " outside " ++ toString alternatives ++ " alternatives"
  | indexOutOfRange index len =>
    "index " ++ toString index.toNat ++ " outside tuple of length " ++ toString len
  | nonconforming addr shape =>
    "value " ++ addr.label ++ " does not conform to " ++ shape.label
  | shapeKind shape expected =>
    "shape " ++ shape.label ++ " is not a " ++ expected.label ++ " shape"
  | listElem expected actual =>
    "list element shape " ++ expected.label ++ " does not match tail element shape " ++ actual.label
  | predicate addr domain =>
    "predicate " ++ addr.label ++ " is not a function from " ++ domain.label ++ " to truth"
  | notEqual left right => left.label ++ " and " ++ right.label ++ " are not equal"
  | unknownShape shape => "unknown shape " ++ shape.label
  | unknownFunction func => "unknown function " ++ func.label
  | argOutOfRange index count =>
    "argument " ++ toString index.toNat ++ " past arity " ++ toString count
  | regOutOfRange reg count =>
    "register r" ++ toString reg.toNat ++ " past register count " ++ toString count.toNat
  | jumpOutOfRange place target =>
    "branch at " ++ toString place ++ " targets " ++ toString target.toNat ++ " outside the body"
  | emptyBody => "function body is empty"
  | missingTerminator => "function body falls off the end"
  | emptyCotuple => "cotuple shape has no alternatives"
  | tooLong len => "length " ++ toString len ++ " exceeds u32::MAX"

/-- Why a store refused a request. -/
inductive StoreError
  | dangling (d : Dangling)
  | mismatch (m : Mismatch)
  | duplicate (d : Duplicate)
  /-- Every place is taken. -/
  | exhausted
deriving DecidableEq

def StoreError.message : StoreError → String
  | dangling d => d.message
  | mismatch m => "type mismatch: " ++ m.message
  | duplicate d => d.message
  | exhausted => "store address space exhausted"

@[always_inline] instance : MonadLift (Except Dangling) (Except StoreError) :=
  ⟨Except.mapError .dangling⟩

@[always_inline] instance : MonadLift (Except Mismatch) (Except StoreError) :=
  ⟨Except.mapError .mismatch⟩

/-- Lists and texts are counted in 32 bits wherever they are written down. -/
def checkLength (len : Nat) : Except Mismatch Unit :=
  if len < UInt32.size then .ok () else .error (.tooLong len)

end ValueMachine
