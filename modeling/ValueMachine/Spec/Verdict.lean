import ValueMachine.Eval.Fault

/-! What can come out of checking a proof. -/
namespace ValueMachine

inductive Verdict
  | proved
  | disproved
  /-- The checker is not set up to decide. -/
  | inconclusive
deriving DecidableEq

/-- Why a proof is not one. -/
inductive ProofInvalid
  /-- The proof is not of the kind that the statement asks for. -/
  | proofShape (proof : Addr) (expected : Kind)
  /-- The proof function does not take exactly the domain. -/
  | proofSignature (proof : Addr) (domain : ShapeId)
  | witnessNonconforming (witness : Addr) (domain : ShapeId)
  | predicateDisproved (place : Addr)
  | predicateFailed (place : Addr) (message : String)
  | proofFailed (place : Addr) (message : String)
  /-- The evidence is neither `proved` nor evidence that `proved` equals itself. -/
  | evidenceMismatch (place evidence : Addr)
  /-- The proof function disagrees with the induction that it captures. -/
  | stepInconsistent (place : Addr)
deriving DecidableEq

def ProofInvalid.message : ProofInvalid → String
  | proofShape proof expected => "proof " ++ proof.label ++ " is not a " ++ expected.label
  | proofSignature proof domain =>
    "proof " ++ proof.label ++ " does not take exactly " ++ domain.label
  | witnessNonconforming witness domain =>
    "witness " ++ witness.label ++ " does not conform to " ++ domain.label
  | predicateDisproved place => "predicate is disproved at " ++ place.label
  | predicateFailed place message => "predicate failed at " ++ place.label ++ ": " ++ message
  | proofFailed place message => "proof failed at " ++ place.label ++ ": " ++ message
  | evidenceMismatch place evidence =>
    "evidence " ++ evidence.label ++ " at " ++ place.label ++ " is not proved"
  | stepInconsistent place =>
    "proof is inconsistent with its induction step at " ++ place.label

/-- A verdict; a proof that is refused comes with a reason. -/
inductive Checked
  | proved
  | disproved (reason : ProofInvalid)
  | inconclusive
deriving DecidableEq

namespace Checked

def verdict : Checked → Verdict
  | proved => .proved
  | disproved _ => .disproved
  | inconclusive => .inconclusive

def reason? : Checked → Option ProofInvalid
  | disproved reason => some reason
  | _ => none

end Checked

/-- Why there is no verdict at all. -/
inductive CheckError
  | notASpecification (addr : Addr)
  | dangling (d : Dangling)
  | eval (e : EvalError)
deriving DecidableEq

def CheckError.message : CheckError → String
  | notASpecification addr => addr.label ++ " is not a specification"
  | dangling d => d.message
  | eval e => "evaluation failed: " ++ e.message

def CheckError.ofStoreError : StoreError → CheckError
  | .dangling d => .dangling d
  | e => .eval (.store e)

end ValueMachine
