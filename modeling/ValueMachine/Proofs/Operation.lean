import ValueMachine.Proofs.Spec.Growth
import ValueMachine.Proofs.Store.Interning
import ValueMachine.Proofs.Store.Loading

/-! What can be done with a store, and the stores that come of it.

An `Operation` is a call that may change a store. Its result is not looked at here,
so an operation that fails is an operation too. A store is `Reachable` if it comes
from the first store, or from one that was loaded, by operations; then it is
well-formed. -/
namespace ValueMachine

inductive Operation
  | shape (x : Shape)
  | intern (v : Value)
  | ring (bits : UInt8) (x : UInt64)
  | flex (x : Flex)
  | char (c : Char)
  | text (t : String)
  | tuple (items : List Addr)
  | cotuple (t : ShapeId) (tag : UInt32) (payload : Addr)
  | nil (elem : ShapeId)
  | cons (head tail : Addr)
  | list (elem : ShapeId) (items : List Addr)
  | identity (a b : Addr)
  | closure (func : Addr) (captures : List Addr)
  | universal (domain : ShapeId) (predicate : Addr)
  | existential (domain : ShapeId) (predicate : Addr)
  | concrete (t : ShapeId) (external : UInt64)
  | register (b : Body)
  | shapeOf (a : Addr)
  | enumerate (t : ShapeId) (limit : Nat)
  | outcomeShape (result : ShapeId)
  /-- An evaluation with a budget of steps. -/
  | evaluate (e : Executor) (steps : Nat) (entry arg : Addr)
  /-- An evaluation that tells what the mask wants. -/
  | run (e : Executor) (entry arg : Addr) (mask : TraceMask)
  /-- A question to a checker that may remember anything. -/
  | check (c : Checker) (spec proof : Addr) (steps : Nat)

namespace Operation

/-- The store that an operation leaves, whether it succeeds or fails. -/
def apply : Operation → Store → Store
  | shape x, s => (Store.shape x s).state
  | intern v, s => (Store.intern v s).state
  | ring bits x, s => (Store.ring bits x s).state
  | flex x, s => (Store.flex x s).state
  | char c, s => (Store.char c s).state
  | text t, s => (Store.text t s).state
  | tuple items, s => (Store.tuple items s).state
  | cotuple t tag payload, s => (Store.cotuple t tag payload s).state
  | nil elem, s => (Store.nil elem s).state
  | cons head tail, s => (Store.cons head tail s).state
  | list elem items, s => (Store.list elem items s).state
  | identity a b, s => (Store.identity a b s).state
  | closure func captures, s => (Store.closure func captures s).state
  | universal domain predicate, s => (Store.universal domain predicate s).state
  | existential domain predicate, s => (Store.existential domain predicate s).state
  | concrete t external, s => (Store.concrete t external s).state
  | register b, s => (Store.register b s).state
  | shapeOf a, s => (Store.shapeOf a s).state
  | enumerate t limit, s => (Store.enumerate t limit s).state
  | outcomeShape result, s => (Outcome.shape result s).state
  | evaluate e steps entry arg, s => (e.evaluateWith steps entry arg s).state.store
  | run e entry arg mask, s => (e.run entry arg mask s).state.store
  | check c spec proof steps, s => (c.check spec proof steps s).2.1

open Store in
/-- Every operation only adds to a store, and adds nothing unsound. -/
theorem apply_grows (op : Operation) (s : Store) : s.Grows (op.apply s) := by
  cases op with
  | shape x => exact shape_grows x s
  | cons head tail => exact cons_follows interns_grows head tail s
  | list elem items => exact list_follows interns_grows elem items s
  | identity a b => exact identity_follows interns_grows a b s
  | closure func captures => exact closure_follows interns_grows func captures s
  | concrete t external => exact concrete_grows t external s
  | register b => exact register_grows b s
  | shapeOf a => exact shapeOf_grows a s
  | enumerate t limit => exact enumerate_follows interns_grows t limit s
  | outcomeShape result => exact shape_grows _ s
  | evaluate e steps entry arg =>
    exact (e.evaluate_follows interns_grows shape_grows entry arg ⟨s, steps, .start .none⟩).store
  | run e entry arg mask =>
    exact (e.evaluate_follows interns_grows shape_grows entry arg
      ⟨s, e.limits.steps, .start mask⟩).store
  | check c spec proof steps => exact c.check_follows interns_grows shape_grows spec proof steps s
  | _ => exact intern_grows _ s

/-- **The first store is well-formed, and every operation keeps a store well-formed**,
so that its audit passes at any time. -/
theorem wellFormed_always : (Store.initial.WellFormed ∧ Store.initial.audit = .ok ()) ∧
    ∀ (op : Operation) (s : Store), s.WellFormed →
      (op.apply s).WellFormed ∧ (op.apply s).audit = .ok () := by
  refine ⟨⟨Store.wellFormed_initial, Store.wellFormed_initial.audit_eq_ok⟩, fun op s h => ?_⟩
  have hop : (op.apply s).WellFormed := (op.apply_grows s h).2
  exact ⟨hop, hop.audit_eq_ok⟩

theorem wellFormed_ring :
    ((ring 8 5).apply .initial).WellFormed ∧ ((ring 8 5).apply .initial).audit = .ok () :=
  wellFormed_always.2 (.ring 8 5) .initial wellFormed_always.1.1

end Operation

/-- The second store comes from the first by operations. -/
inductive Leads (s : Store) : Store → Prop
  | refl : Leads s s
  | step {t : Store} (op : Operation) (h : Leads s t) : Leads s (op.apply t)

/-- The store comes from the first one, or from one that was loaded, by operations. -/
inductive Reachable : Store → Prop
  | initial : Reachable .initial
  | loaded {bytes : List UInt8} {s : Store} (h : Snapshot.load bytes = .ok s) : Reachable s
  | step {s : Store} (op : Operation) (h : Reachable s) : Reachable (op.apply s)

theorem Leads.grows {s t : Store} (h : Leads s t) : s.Grows t := by
  induction h with
  | refl => exact refl_of Store.Grows s
  | step op _ ih => exact trans_of Store.Grows ih (op.apply_grows _)

theorem Reachable.leads {s t : Store} (h : Reachable s) (hst : Leads s t) : Reachable t := by
  induction hst with
  | refl => exact h
  | step op _ ih => exact .step op ih

theorem Reachable.wellFormed {s : Store} (h : Reachable s) : s.WellFormed := by
  induction h with
  | initial => exact Store.wellFormed_initial
  | loaded h => exact Snapshot.wellFormed_of_load h
  | step op _ ih => exact (op.apply_grows _ ih).2

/-! ### More entries -/

namespace Store

variable {s : Store}

/-- An abstract value that is accepted may be added if it is nowhere in the store. -/
theorem reachable_of_new (h : Reachable s) {v : Value} (ha : v.isAbstract = true)
    (hv : s.validate v = .ok ()) (hnew : v ∉ s.values.toList) (hlt : s.size < maxValues) :
    Reachable { s with values := s.values.insert v } := by
  have hstep := h.step (.intern v)
  rwa [Operation.apply, intern_of_new h.wellFormed ha hv hnew hlt] at hstep

/-- A sound shape may be added if it is nowhere in the store. -/
theorem reachable_of_new_shape (h : Reachable s) {x : Shape} (hx : s.shapes.check x = .ok ())
    (hnew : x ∉ s.shapes.toList) (hlt : s.shapes.size < maxEntries) :
    Reachable { s with shapes := s.shapes.insert x } := by
  have hstep := h.step (.shape x)
  rwa [Operation.apply, shape_of_new (h.wellFormed.find?_shape_eq_none hnew) hx hlt] at hstep

/-- A function that is accepted is put behind the others, and its value behind the others. -/
theorem register_new (h : s.WellFormed) {b : Body} (hb : b.verify s.shapes s.size = .ok ())
    (hnew : .function (FuncId.ofIndex s.functions.size) #[] ∉ s.values.toList)
    (hf : s.functions.size < maxEntries) (hv : s.size < maxValues) :
    (Operation.register b).apply s =
      ⟨s.values.insert (.function (FuncId.ofIndex s.functions.size) #[]), s.shapes,
        s.functions.push b⟩ := by
  have hnone : s.find? (.function (FuncId.ofIndex s.functions.size) #[]) = none :=
    h.find?_eq_none hnew
  have hverify : ask (fun s => b.verify s.shapes s.size) s = .ok () s :=
    ask_eq_ok_iff.mpr ⟨hb, rfl⟩
  show (register b s).state = _
  rw [register, run_bind_of_ok hverify, run_bind_of_ok (placeBody_of_room b hf),
    place_of_new (by exact hnone) (by exact hv)]
  rfl

end Store

/-! ### A store with a function -/

/-- A function without parameters that returns the empty tuple. -/
def Body.unit : Body := ⟨[], ShapeId.unit, 1, #[.const 0 Addr.unit, .ret 0]⟩

def Activation.unit : Activation := ⟨⟨0⟩, Body.unit, #[], #[], ShapeId.unit⟩

namespace Store

/-- The first store with the function. -/
def withUnit : Store :=
  ⟨initial.values.insert (.function ⟨0⟩ #[]), initial.shapes, #[Body.unit]⟩

theorem initial_find?_shape_eq_none {x : Shape} (h : x ∉ Shape.prelude) :
    initial.shapes.find? x = none :=
  wellFormed_initial.find?_shape_eq_none (initial_shapes.1 ▸ h)

/-- The first store with a function that is accepted there. -/
theorem register_initial {b : Body} (hb : b.verify initial.shapes initial.size = .ok ()) :
    (Operation.register b).apply .initial =
      ⟨initial.values.insert (.function ⟨0⟩ #[]), initial.shapes, #[b]⟩ := by
  have hnew : .function ⟨0⟩ #[] ∉ initial.values.toList := by
    rw [initial_values.1]
    decide
  exact register_new wellFormed_initial hb hnew (by decide) (by decide)

theorem register_unit : (Operation.register Body.unit).apply .initial = .withUnit :=
  register_initial rfl

end Store

theorem Reachable.withUnit : Reachable .withUnit :=
  Store.register_unit ▸ .step (.register Body.unit) .initial

/-! ### A store with a call -/

/-- A function that is replaced by `Body.unit`. -/
def Body.hop : Body := ⟨[], ShapeId.unit, 1, #[.const 0 ⟨3⟩, .tailCall 0 []]⟩

/-- A function that calls `Body.hop` and returns its result. -/
def Body.relay : Body := ⟨[], ShapeId.unit, 2, #[.const 0 ⟨4⟩, .call 1 0 [], .ret 1]⟩

namespace Store

/-- The store with `Body.hop` beside the function that it is replaced by. -/
def withHop : Store :=
  ⟨withUnit.values.insert (.function ⟨1⟩ #[]), initial.shapes, #[.unit, .hop]⟩

/-- The store with all three functions. -/
def withRelay : Store :=
  ⟨withHop.values.insert (.function ⟨2⟩ #[]), initial.shapes, #[.unit, .hop, .relay]⟩

/-- The same with the shape of their outcomes. -/
def withRelayOutcome : Store :=
  { withRelay with shapes := initial.shapes.insert (.cotuple #[ShapeId.unit, ShapeId.text]) }

theorem register_hop : (Operation.register .hop).apply .withUnit = .withHop :=
  register_new Reachable.withUnit.wellFormed rfl (by decide +kernel) (by decide) (by decide)

end Store

theorem Reachable.withHop : Reachable .withHop :=
  Store.register_hop ▸ .step (.register .hop) .withUnit

theorem Store.register_relay : (Operation.register .relay).apply .withHop = .withRelay :=
  register_new Reachable.withHop.wellFormed rfl (by decide +kernel) (by decide) (by decide)

theorem Reachable.withRelay : Reachable .withRelay :=
  Store.register_relay ▸ .step (.register .relay) .withHop

theorem Store.shape_relay :
    Outcome.shape (withRelay.resultShape ⟨5⟩) .withRelay = .ok ⟨5⟩ .withRelayOutcome :=
  shape_of_new (s := .withRelay) (by exact initial_find?_shape_eq_none (by decide)) rfl (by decide)

theorem Store.outcomeShape_relay :
    (Operation.outcomeShape (withRelay.resultShape ⟨5⟩)).apply .withRelay = .withRelayOutcome :=
  congrArg EStateM.Result.state shape_relay

theorem Reachable.withRelayOutcome : Reachable .withRelayOutcome :=
  Store.outcomeShape_relay ▸ .step (.outcomeShape _) .withRelay

/-- The shape is found when it is there. -/
theorem Store.shape_relayOutcome :
    Outcome.shape (withRelayOutcome.resultShape ⟨5⟩) .withRelayOutcome = .ok ⟨5⟩ .withRelayOutcome :=
  shape_of_known (Reachable.withRelayOutcome.wellFormed.find?_shape_eq_some_iff.mpr rfl)

theorem Store.not_full_relay : ¬withRelayOutcome.Full := by
  rintro (h | h)
  · exact absurd h (by decide)
  · exact absurd h (by decide)

def Activation.relay : Activation := ⟨⟨2⟩, .relay, #[], #[], ShapeId.unit⟩

theorem Evaluation.prepareEntry_relay :
    prepareEntry ⟨5⟩ Addr.unit .withRelayOutcome = .ok .relay .withRelayOutcome := rfl

/-! ### A store with records of many sorts -/

namespace Store

/-- The store with the relay and a text. -/
def withText : Store := { withRelay with values := withRelay.values.insert (.text "relay") }

/-- The same with a number that is none. -/
def withRecords : Store := { withText with values := withText.values.insert (.flex Flex.nan) }

end Store

theorem Reachable.withText : Reachable .withText :=
  Store.reachable_of_new .withRelay rfl rfl (by decide +kernel) (by decide)

theorem Reachable.withRecords : Reachable .withRecords :=
  Store.reachable_of_new .withText rfl rfl (by decide +kernel) (by decide)

end ValueMachine
