import ValueMachine.Eval.Executor
import ValueMachine.Proofs.Computation

/-! What the parts of an evaluation come to.

A step of the machine takes one of eight courses, by what its instruction leaves to be done
(`Machine.Takes`). A run is at the end of the code, out of fuel, or makes a step and goes on.
An evaluation runs its entry once the shape of the outcome is there and the entry is ready, and
settles the result. What steps, runs and evaluations do is proved from these courses. -/
namespace ValueMachine

/-! ### Steps -/

namespace Machine

/-- The trace once the instruction has been told of. -/
def traceWith (m : Machine) (i : Instr) : Trace :=
  m.trace.emit (.instr m.site.func m.site.place i.opcode)

/-- The courses that a step may take, with at most so many frames. -/
inductive Takes (maxDepth : Nat) (m : Machine) (i : Instr) : Step → Prop
  | halt {e : Halt} {t : Store} (hx : i.exec m.frame.act m.frame.regs m.store = .error e t) :
    Takes maxDepth m i (.stop (e.at (some m.site)) t (m.traceWith i))
  | next {regs : Regs} {t : Store}
    (hx : i.exec m.frame.act m.frame.regs m.store = .ok (regs, .next) t) :
    Takes maxDepth m i (.more ⟨{ m.frame with regs := regs, pc := m.frame.pc + 1 }, m.callers,
      m.depth, m.depth_eq, t, m.traceWith i⟩)
  | goto {regs : Regs} {target : UInt32} {t : Store}
    (hx : i.exec m.frame.act m.frame.regs m.store = .ok (regs, .goto target) t) :
    Takes maxDepth m i (.more ⟨{ m.frame with regs := regs, pc := target }, m.callers, m.depth,
      m.depth_eq, t, m.traceWith i⟩)
  /-- There are as many frames as there may be. -/
  | deep {regs : Regs} {dst : Reg} {callee : Activation} {t : Store}
    (hx : i.exec m.frame.act m.frame.regs m.store = .ok (regs, .call dst callee) t)
    (hd : maxDepth ≤ m.depth) :
    Takes maxDepth m i (.stop (.fault .callDepth (some m.site)) t (m.traceWith i))
  | call {regs : Regs} {dst : Reg} {callee : Activation} {t : Store}
    (hx : i.exec m.frame.act m.frame.regs m.store = .ok (regs, .call dst callee) t)
    (hd : ¬maxDepth ≤ m.depth) :
    Takes maxDepth m i (.more ⟨.enter callee (.frame callee.func),
      ⟨{ m.frame with regs := regs, pc := m.frame.pc + 1 }, dst⟩ :: m.callers, m.depth + 1,
      congrArg (· + 1) m.depth_eq, t,
      (m.traceWith i).emit (.enter (.frame callee.func) (m.depth + 1))⟩)
  | replace {regs : Regs} {callee : Activation} {inner : Scope} {t : Store}
    (hx : i.exec m.frame.act m.frame.regs m.store = .ok (regs, .replace callee inner) t) :
    Takes maxDepth m i (.more ⟨.enter callee inner, m.callers, m.depth, m.depth_eq, t,
      ((m.traceWith i).emit (.exit m.frame.scope m.depth)).emit (.enter inner m.depth)⟩)
  /-- The entry frame returns. -/
  | done {regs : Regs} {value : Addr} {t : Store}
    (hx : i.exec m.frame.act m.frame.regs m.store = .ok (regs, .finish value) t)
    (hc : m.callers = []) :
    Takes maxDepth m i (.done value t ((m.traceWith i).emit (.exit m.frame.scope m.depth)))
  /-- A called frame returns to the innermost caller. -/
  | resume {regs : Regs} {value : Addr} {t : Store} {c : Caller} {callers : List Caller}
    (hx : i.exec m.frame.act m.frame.regs m.store = .ok (regs, .finish value) t)
    (hc : m.callers = c :: callers) (hd : m.depth - 1 = callers.length + 1) :
    Takes maxDepth m i (.more ⟨c.resume value, callers, m.depth - 1, hd, t,
      (m.traceWith i).emit (.exit m.frame.scope m.depth)⟩)

/-- Every step takes one of the courses. -/
theorem step_takes (maxDepth : Nat) (i : Instr) (m : Machine) :
    m.Takes maxDepth i (m.step maxDepth i) := by
  obtain ⟨⟨act, regs, pc, scope⟩, callers, depth, depth_eq, store, trace⟩ := m
  unfold step
  dsimp only
  cases hx : i.exec act regs store with
  | error e t => exact .halt hx
  | ok out t =>
    obtain ⟨regs', effect⟩ := out
    cases effect with
    | next => exact .next hx
    | goto target => exact .goto hx
    | call dst callee =>
      dsimp only
      split
      · next hd => exact .deep hx hd
      · next hd => exact .call hx hd
    | replace callee inner => exact .replace hx
    | finish value =>
      cases callers with
      | nil => exact .done hx rfl
      | cons c callers => exact .resume hx rfl _

variable {maxDepth : Nat} {m m' : Machine} {i : Instr} {x : Step}

/-- It takes no other course. -/
theorem Takes.eq (h : m.Takes maxDepth i x) : m.step maxDepth i = x := by
  obtain ⟨⟨act, regs, pc, scope⟩, callers, depth, depth_eq, store, trace⟩ := m
  unfold step
  cases h with
  | halt hx | next hx | goto hx | replace hx =>
    dsimp only at hx ⊢
    rw [hx]
    rfl
  | deep hx hd =>
    dsimp only at hx ⊢
    rw [hx]
    exact if_pos hd
  | call hx hd =>
    dsimp only at hx ⊢
    rw [hx]
    exact if_neg hd
  | done hx hc | resume hx hc =>
    dsimp only at hx hc ⊢
    subst hc
    rw [hx]
    rfl

theorem takes_of_more (h : m.step maxDepth i = .more m') : m.Takes maxDepth i (.more m') :=
  h ▸ m.step_takes maxDepth i

/-! ### Runs -/

theorem run_of_none (hi : m.fetch = none) (maxDepth fuel : Nat) :
    run maxDepth fuel m =
      .error (.fault (.mismatch .missingTerminator) (some m.site)) ⟨m.store, fuel, m.trace⟩ := by
  unfold run
  rw [hi]

theorem run_zero (hi : m.fetch = some i) (maxDepth : Nat) :
    run maxDepth 0 m = .error (.fatal .stepBudgetExceeded) ⟨m.store, 0, m.trace⟩ := by
  unfold run
  rw [hi]

theorem run_succ (hi : m.fetch = some i) (maxDepth fuel : Nat) :
    run maxDepth (fuel + 1) m =
      match m.step maxDepth i with
      | .more m => run maxDepth fuel m
      | .done value store trace => .ok value ⟨store, fuel, trace⟩
      | .stop s store trace => .error s ⟨store, fuel, trace⟩ := by
  rw [run]
  generalize m.fetch = found at hi
  subst hi
  rfl

/-- What holds at the end of a run, by an invariant of its steps. -/
theorem run_ends (Inv : Machine → Nat → Prop) {P : Addr → RunState → Prop}
    {E : Stop → RunState → Prop} {m : Machine} {fuel : Nat} (h : Inv m fuel)
    (hnone : ∀ m fuel, Inv m fuel → m.fetch = none →
      E (.fault (.mismatch .missingTerminator) (some m.site)) ⟨m.store, fuel, m.trace⟩)
    (hzero : ∀ m, Inv m 0 → E (.fatal .stepBudgetExceeded) ⟨m.store, 0, m.trace⟩)
    (hstep : ∀ m fuel i, Inv m (fuel + 1) → m.fetch = some i →
      match m.step maxDepth i with
      | .more m => Inv m fuel
      | .done value store trace => P value ⟨store, fuel, trace⟩
      | .stop s store trace => E s ⟨store, fuel, trace⟩) :
    Ends (run maxDepth fuel m) P E := by
  induction fuel generalizing m with
  | zero =>
    cases hi : m.fetch with
    | none =>
      rw [run_of_none hi]
      exact hnone m 0 h hi
    | some i =>
      rw [run_zero hi]
      exact hzero m h
  | succ fuel ih =>
    cases hi : m.fetch with
    | none =>
      rw [run_of_none hi]
      exact hnone m _ h hi
    | some i =>
      have hnext := hstep m fuel i h hi
      rw [run_succ hi]
      cases hm : m.step maxDepth i with
      | more m' =>
        rw [hm] at hnext
        exact ih hnext
      | done value store trace =>
        rw [hm] at hnext
        exact hnext
      | stop e store trace =>
        rw [hm] at hnext
        exact hnext

end Machine

/-! ### Evaluations -/

namespace Evaluation

variable {way : Activation → Exec Addr} {entry arg : Addr} {shape : ShapeId} {s t : Store}
  {fuel : Nat} {trace : Trace}

theorem runEntry_of_ready {act : Activation} (h : prepareEntry entry arg s = .ok act t) :
    runEntry way entry arg ⟨s, fuel, trace⟩ = way act ⟨t, fuel, trace⟩ := by
  unfold runEntry
  dsimp only
  rw [h]

theorem runEntry_of_unready {e : Halt} (h : prepareEntry entry arg s = .error e t) :
    runEntry way entry arg ⟨s, fuel, trace⟩ = .error (e.at none) ⟨t, fuel, trace⟩ := by
  unfold runEntry
  dsimp only
  rw [h]

theorem settle_of_ok {result : Except Stop Addr} {a : Addr} {fault : Option Fault}
    (h : outcomeOf shape result s = .ok (a, fault) t) :
    settle shape result ⟨s, fuel, trace⟩ = .ok a ⟨t, fuel, trace.emit (endEvent t a fault)⟩ := by
  unfold settle
  dsimp only
  rw [h]

theorem settle_of_error {result : Except Stop Addr} {e : EvalError}
    (h : outcomeOf shape result s = .error e t) :
    settle shape result ⟨s, fuel, trace⟩ = .error e ⟨t, fuel, trace.emit .runFatal⟩ := by
  unfold settle
  dsimp only
  rw [h]

/-- A result is settled as its outcome is added, and the end is told of. -/
theorem settle_ends {result : Except Stop Addr} {r : RunState} {P : Addr → RunState → Prop}
    {E : EvalError → RunState → Prop}
    (h : Ends (outcomeOf shape result r.store)
      (fun out t => P out.1 ⟨t, r.fuel, r.trace.emit (endEvent t out.1 out.2)⟩)
      fun e t => E e ⟨t, r.fuel, r.trace.emit .runFatal⟩) :
    Ends (settle shape result r) P E := by
  obtain ⟨store, fuel, trace⟩ := r
  cases hr : outcomeOf shape result store with
  | ok out t =>
    rw [settle_of_ok hr]
    exact h.of_ok hr
  | error e t =>
    rw [settle_of_error hr]
    exact h.of_error hr

/-- Once the shape of the outcome is there, the entry is run and the result is settled. -/
theorem conduct_of_shape (hs : Outcome.shape (s.resultShape entry) s = .ok shape t)
    {x : EStateM.Result Stop RunState Addr}
    (hx : runEntry way entry arg ⟨t, fuel, trace.emit (.runStart entry arg)⟩ = x) :
    conduct way entry arg ⟨s, fuel, trace⟩ = settle shape x.answer x.state := by
  unfold conduct
  dsimp only
  rw [hs]
  dsimp only
  rw [hx]
  cases x <;> rfl

/-- Otherwise it is told that there is no outcome. -/
theorem conduct_of_no_shape {e : StoreError}
    (hs : Outcome.shape (s.resultShape entry) s = .error e t) :
    conduct way entry arg ⟨s, fuel, trace⟩ =
      .error (.store e) ⟨t, fuel, (trace.emit (.runStart entry arg)).emit .runFatal⟩ := by
  unfold conduct
  dsimp only
  rw [hs]

end Evaluation

end ValueMachine
