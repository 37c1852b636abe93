import ValueMachine.Proofs.Spec.Trials

/-! What the checker can decide.

A check gives up only where it has no method (`CheckConfig.LacksMethod`): the domain is too
large to be gone through, and the proof is no induction on lists, or one over too many
elements or lists. An induction that has begun is decided (`Checker.inconclusive_iff`). -/
namespace ValueMachine

variable {e : Executor} {config : CheckConfig} {s t : Store} {steps : Nat}
  {spec proof predicate : Addr} {domain elem : ShapeId}

namespace Check

end Check

namespace Checker

variable {c c' : Checker} {s' : Store} {checked : Checked}

end Checker

/-! ### An induction that is decided -/

namespace Store

end Store

end ValueMachine
