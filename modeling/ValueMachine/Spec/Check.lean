import ValueMachine.Eval.Executor
import ValueMachine.Spec.Verdict
import ValueMachine.Store.Enumerate

/-! Checking a proof of a statement.

A statement says that a predicate holds of every value of a domain, or of some
value. What it says is decided by running the predicate, and a proof is accepted
by running it too.

* Some value: the proof is a witness with evidence, and the predicate holds of the
  witness.
* Every value of a domain that is small enough: the proof is a function of the
  domain, and at every value the predicate holds and the proof gives evidence.
* Every list over an element shape that is small enough: the proof function has
  captured a base and a step, and agrees with the induction that they define on
  every list up to a length.

Everything else is not decided. All runs draw on one budget of steps. -/
namespace ValueMachine

/-- How much work a check may do. -/
structure CheckConfig where
  /-- The largest domain that is gone through. -/
  maxDomain : Nat
  /-- The greatest length of the lists that an induction is checked on. -/
  inductionDepth : Nat
deriving DecidableEq

def CheckConfig.standard : CheckConfig := ⟨0x10000, 3⟩

/-- What a check works on: a store and the steps that are left. -/
structure Budget where
  store : Store
  fuel : Nat

/-- A computation that checks something. -/
abbrev Check := EStateM CheckError Budget

instance : MonadLift StoreM Check := ⟨fun op budget =>
  match budget with
  | ⟨store, fuel⟩ =>
    match op store with
    | .ok x store => .ok x ⟨store, fuel⟩
    | .error e store => .error (CheckError.ofStoreError e) ⟨store, fuel⟩⟩

/-- The result of applying a function. -/
inductive Answer
  | value (a : Addr)
  | failed (message : String)
deriving DecidableEq

namespace Check

/-- Asks the store a question that does not change it. -/
def ask {α : Type} (question : Store → Except StoreError α) : Check α :=
  liftM (Store.ask question)

/-- Runs an executor on the budget. -/
def evaluate (e : Executor) (func arg : Addr) : Check Addr
  | ⟨store, fuel⟩ =>
    match e.evaluateWith fuel func arg store with
    | .ok outcome ⟨store, fuel, _⟩ => .ok outcome ⟨store, fuel⟩
    | .error error ⟨store, fuel, _⟩ => .error (.eval error) ⟨store, fuel⟩

/-- Applies a function value and decodes the outcome. -/
def apply (e : Executor) (func arg : Addr) : Check Answer := do
  let outcome ← evaluate e func arg
  match ← ask fun s => Outcome.decode s outcome with
  | .ok value => return .value value
  | .err text => return .failed ((← ask fun s => .ok (s.text? text)).getD "")

/-- Why the predicate does not hold of a value, if it does not. -/
def refutation? (e : Executor) (predicate x : Addr) : Check (Option ProofInvalid) := do
  match ← apply e predicate x with
  | .value truth =>
    if truth = Addr.proved then return none else return some (.predicateDisproved x)
  | .failed message => return some (.predicateFailed x message)

/-- Whether a value is evidence that something is proved. -/
def isEvidence (s : Store) (a : Addr) : Bool :=
  a = Addr.proved || s.value? a = some (.identity Addr.proved)

/-- The evidence that the proof function gives at a value. -/
def evidence (e : Executor) (proof x : Addr) : Check (Except ProofInvalid Addr) := do
  match ← apply e proof x with
  | .value a =>
    if ← ask fun s => .ok (isEvidence s a) then return .ok a
    else return .error (.evidenceMismatch x a)
  | .failed message => return .error (.proofFailed x message)

/-! ### Some value -/

/-- The witness and the evidence that a proof of existence consists of. -/
def witnessOf? : Value → Option (Addr × Addr)
  | .tuple items =>
    match items.toList with
    | [witness, given] => some (witness, given)
    | _ => none
  | _ => none

def checkExistential (e : Executor) (domain : ShapeId) (predicate proof : Addr) :
    Check Checked := do
  match witnessOf? (← ask fun s => s.resolve proof) with
  | some (witness, given) =>
    if !(← ask fun s => s.conforms witness domain) then
      return .disproved (.witnessNonconforming witness domain)
    match ← refutation? e predicate witness with
    | some reason => return .disproved reason
    | none =>
      if ← ask fun s => .ok (isEvidence s given) then return .proved
      else return .disproved (.evidenceMismatch witness given)
  | none => return .disproved (.proofShape proof .tuple)

/-! ### Every value of a small domain -/

/-- The predicate holds and the proof gives evidence at each of the values. -/
def checkEach (e : Executor) (predicate proof : Addr) : List Addr → Check Checked
  | [] => return .proved
  | x :: rest => do
    match ← refutation? e predicate x with
    | some reason => return .disproved reason
    | none =>
      match ← evidence e proof x with
      | .error reason => return .disproved reason
      | .ok _ => checkEach e predicate proof rest

/-! ### Every list, by induction -/

/-- A proof by induction on lists. -/
structure Induction where
  predicate : Addr
  proof : Addr
  /-- The evidence for the empty list. -/
  base : Addr
  /-- Takes a head and the evidence for a tail to the evidence for the list. -/
  step : Addr
  elems : List Addr

/-- Evidence for the lists that have been checked. -/
abbrev Proven := Std.HashMap Addr Addr

/-- The evidence that the induction defines for a list, from that of its tail. -/
def expected (e : Executor) (ind : Induction) (proven : Proven) (list : Addr) :
    Check (Except Checked Addr) := do
  match ← ask fun s => s.resolve list with
  | .cons _ head tail =>
    match proven[tail]? with
    | none => return .error .inconclusive
    | some previous =>
      let pair ← Store.tuple [head, previous]
      match ← apply e ind.step pair with
      | .value a => return .ok a
      | .failed message => return .error (.disproved (.proofFailed list message))
  | _ => return .ok ind.base

/-- Checks one list, and gives its evidence. -/
def checkList (e : Executor) (ind : Induction) (proven : Proven) (list : Addr) :
    Check (Except Checked Addr) := do
  match ← refutation? e ind.predicate list with
  | some reason => return .error (.disproved reason)
  | none =>
    match ← evidence e ind.proof list with
    | .error reason => return .error (.disproved reason)
    | .ok given =>
      match ← expected e ind proven list with
      | .error early => return .error early
      | .ok wanted =>
        if wanted = given then return .ok given
        else return .error (.disproved (.stepInconsistent list))

/-- Checks lists of one length; unless this is the last length, `longer` collects the
lists that are one longer, in reverse order. -/
def checkLevel (e : Executor) (ind : Induction) (last : Bool) :
    List Addr → List Addr → Proven → Check (Except Checked (List Addr × Proven))
  | [], longer, proven => return .ok (longer.reverse, proven)
  | list :: rest, longer, proven => do
    match ← checkList e ind proven list with
    | .error early => return .error early
    | .ok given =>
      let next ← if last then pure [] else ind.elems.mapM fun head => Store.cons head list
      checkLevel e ind last rest (next.reverse ++ longer) (proven.insert list given)

/-- Checks the lists of one length and then those of so many lengths more. Where there
are no lists of a length, there are no longer ones. -/
def checkLevels (e : Executor) (ind : Induction) : Nat → List Addr → Proven → Check Checked
  | _, [], _ => return .proved
  | more, lists, proven => do
    match ← checkLevel e ind (more == 0) lists [] proven with
    | .error early => return early
    | .ok (longer, proven) =>
      match more with
      | 0 => return .proved
      | more + 1 => checkLevels e ind more longer proven

/-- Adds the numbers of lists of so many successive lengths over `n` elements, of
which `level` have the first length. Counts beyond 64 bits are taken for the
greatest one, to which nothing is added. -/
def countLists (n : Nat) : Nat → Nat → Nat → Nat
  | 0, _, total => total
  | lengths + 1, level, total =>
    if level = 0 ∨ total = Store.maxCount then total
    else
      countLists n lengths (min (level * n) Store.maxCount) (min (total + level) Store.maxCount)

/-- The number of lists of a length up to `depth` over `n` elements; over one element
there is one of each length. -/
def listCount (n depth : Nat) : Nat :=
  if n = 1 then min (depth + 1) Store.maxCount else countLists n (depth + 1) 1 0

def checkInduction (e : Executor) (config : CheckConfig) (elem : ShapeId)
    (predicate proof base step : Addr) : Check Checked := do
  match ← liftM (Store.enumerate elem config.maxDomain) with
  | none => return .inconclusive
  | some elems =>
    if config.maxDomain < listCount elems.length config.inductionDepth then return .inconclusive
    let empty ← Store.nil elem
    checkLevels e ⟨predicate, proof, base, step, elems⟩ config.inductionDepth [empty] ∅

/-! ### Statements -/

/-- The number of parameters of a function value. -/
def arity? (s : Store) (a : Addr) : Option Nat :=
  match s.value? a with
  | some (.function f _) => (s.body? f).map Body.arity
  | _ => none

/-- Whether the captures of a proof are a base and a step on lists. -/
def inductionOf? (s : Store) (domain : ShapeId) : List Addr → Option (ShapeId × Addr × Addr)
  | [base, step] =>
    match s.shape? domain with
    | some (.list elem) => if arity? s step = some 2 then some (elem, base, step) else none
    | _ => none
  | _ => none

def checkUniversal (e : Executor) (config : CheckConfig) (domain : ShapeId)
    (predicate proof : Addr) : Check Checked := do
  match ← ask fun s => s.resolve proof with
  | .function f captures =>
    let body ← ask fun s => s.body f
    if body.params ≠ [domain] then return .disproved (.proofSignature proof domain)
    match ← liftM (Store.enumerate domain config.maxDomain) with
    | some values => checkEach e predicate proof values
    | none =>
      match ← ask fun s => .ok (inductionOf? s domain captures.toList) with
      | some (elem, base, step) => checkInduction e config elem predicate proof base step
      | none => return .inconclusive
  | _ => return .disproved (.proofShape proof .function)

/-- Checks a proof of a statement. -/
def check (e : Executor) (config : CheckConfig) (spec proof : Addr) : Check Checked := do
  discard <| ask fun s => s.resolve proof
  match ← ask fun s => s.resolve spec with
  | .existential domain predicate => checkExistential e domain predicate proof
  | .universal domain predicate => checkUniversal e config domain predicate proof
  | _ => throw (.notASpecification spec)

end Check

end ValueMachine
