import ValueMachine.Proofs.Spec.Course

/-! Why a proof is refused.

A verdict that a proof is none comes with a reason, and the reason can be looked at: in the
store that the check leaves the applications that it speaks of come to what it says, with as
many steps as the check had or more (`Executor.Disproves`). It speaks of the first value, or
of the first list by length, that is not in order (`Checker.reason_true`). -/
namespace ValueMachine

open Check

variable {e : Executor} {config : CheckConfig} {s : Store} {steps : Nat} {spec predicate proof : Addr}
  {domain elem : ShapeId} {reason : ProofInvalid} {b : Budget}

namespace Executor

end Executor

theorem Store.ListOf.fits {items : List Addr} {list : Addr} (h : s.ListOf elem items list)
    (hd : s.shape? domain = some (.list elem)) : s.fits list domain = true := by
  unfold Store.fits Store.fitsWithin
  cases items with
  | nil =>
    rw [show s.value? list = some (.nil elem) from h, hd]
    simp
  | cons head rest =>
    obtain ⟨tail, hv, -⟩ := h
    rw [hv, hd]
    simp

namespace Check.Course

end Check.Course

namespace Checker

variable {c c' : Checker} {s' : Store} {checked : Checked}

end Checker

/-! ### A proof that is refused -/

namespace Store

end Store

end ValueMachine
