import ValueMachine.Code.Assembler
import ValueMachine.Code.Encoding
import ValueMachine.Code.Listing
import ValueMachine.Eval.Corpus
import ValueMachine.Eval.Executor
import ValueMachine.Eval.Spans
import ValueMachine.Spec.Checker
import ValueMachine.Store.Audit
import ValueMachine.Store.Enumerate
import ValueMachine.Store.Register
import ValueMachine.Store.Snapshot
import ValueMachine.Proofs.Data.Ring
import ValueMachine.Proofs.Store.WellFormed
import ValueMachine.Proofs.Store.Growth
import ValueMachine.Proofs.Eval.Equations
import ValueMachine.Proofs.Eval.Growth
import ValueMachine.Proofs.Spec.Growth
import ValueMachine.Proofs.Store.Loading
import ValueMachine.Proofs.Operation
import ValueMachine.Proofs.Bytes.Reading
import ValueMachine.Proofs.Bytes.Records
import ValueMachine.Proofs.Store.Saving
import ValueMachine.Proofs.Eval.Soundness
import ValueMachine.Proofs.Store.Interning
import ValueMachine.Proofs.Eval.Frames
import ValueMachine.Proofs.Eval.Chunks
import ValueMachine.Proofs.Eval.Partition
import ValueMachine.Proofs.Eval.Composed
import ValueMachine.Proofs.Eval.Safety
import ValueMachine.Proofs.Eval.Agreement
import ValueMachine.Proofs.Store.Unfolding
import ValueMachine.Proofs.Eval.Equality
import ValueMachine.Proofs.Eval.Reports
import ValueMachine.Proofs.Eval.Refusals
import ValueMachine.Proofs.Eval.Protocol
import ValueMachine.Proofs.Store.Mirror
import ValueMachine.Proofs.Eval.Abreast
import ValueMachine.Proofs.Eval.Independence
import ValueMachine.Proofs.Store.Repetition
import ValueMachine.Proofs.Eval.Repetition
import ValueMachine.Proofs.Eval.Fuel
import ValueMachine.Proofs.Eval.Rounds
import ValueMachine.Proofs.Eval.Driving
import ValueMachine.Proofs.Eval.Gains
import ValueMachine.Proofs.Eval.Budget
import ValueMachine.Proofs.Store.Counting
import ValueMachine.Proofs.Store.Enumeration
import ValueMachine.Proofs.Store.Additions
import ValueMachine.Proofs.Store.Lists
import ValueMachine.Proofs.Store.Numbers
import ValueMachine.Proofs.Store.Conformance
import ValueMachine.Proofs.Store.Principal
import ValueMachine.Proofs.Spec.Repetition
import ValueMachine.Proofs.Spec.Meaning
import ValueMachine.Proofs.Spec.Induction
import ValueMachine.Proofs.Spec.Verdict
import ValueMachine.Proofs.Spec.Cache
import ValueMachine.Proofs.Spec.Price
import ValueMachine.Proofs.Spec.Course
import ValueMachine.Proofs.Spec.Reasons
import ValueMachine.Proofs.Spec.Trials
import ValueMachine.Proofs.Spec.Methods
import ValueMachine.Proofs.Permanence
import ValueMachine.Proofs.Cardinality
import ValueMachine.Proofs.Typing
import ValueMachine.Proofs.Inhabitants
import ValueMachine.Proofs.Eval.Telling
import ValueMachine.Proofs.Eval.Calls
import ValueMachine.Proofs.Eval.Nesting
import ValueMachine.Proofs.Eval.Accounts
import ValueMachine.Proofs.Eval.Masks
import ValueMachine.Proofs.Eval.Spans
import ValueMachine.Proofs.Bytes.Spelling
import ValueMachine.Proofs.Bytes.Code
import ValueMachine.Proofs.Bytes.Extension
import ValueMachine.Proofs.Store.Ending
import ValueMachine.Proofs.Store.Canonical
import ValueMachine.Proofs.Eval.Isolation
import ValueMachine.Proofs.Code.Fixups
import ValueMachine.Proofs.Code.Labels
import ValueMachine.Proofs.Code.Truncation
import ValueMachine.Proofs.Text.Cuts
import ValueMachine.Proofs.Code.Listing
import ValueMachine.Proofs.Eval.Arithmetic
import ValueMachine.Proofs.Lists
import ValueMachine.Proofs.Refusal
import ValueMachine.Proofs.Acceptance
