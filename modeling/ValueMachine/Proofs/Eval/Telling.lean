import ValueMachine.Proofs.Eval.Composed

/-! What is told does not matter to a run.

A run adds to its trace but never looks at it. So take two traces that are related, in a way
that lasts when the same event is told to both. Runs that differ in these traces only come
to the same end with the same store and fuel, and leave related traces (`Heedless`). This
holds of both ways of running code, and of whole evaluations. -/
namespace ValueMachine

/-- Traces that are related stay related when they are told the same. -/
def Trace.Kept (R : Trace → Trace → Prop) : Prop :=
  ∀ e t t', R t t' → R (t.emit e) (t'.emit e)

variable {R : Trace → Trace → Prop} {ε α β : Type} {t t' : Trace}

/-- The same end, up to the traces, which are related. -/
inductive Apart (R : Trace → Trace → Prop) :
    EStateM.Result ε RunState α → EStateM.Result ε RunState α → Prop
  | ok (x : α) (store : Store) (fuel : Nat) {t t' : Trace} (h : R t t') :
    Apart R (.ok x ⟨store, fuel, t⟩) (.ok x ⟨store, fuel, t'⟩)
  | error (e : ε) (store : Store) (fuel : Nat) {t t' : Trace} (h : R t t') :
    Apart R (.error e ⟨store, fuel, t⟩) (.error e ⟨store, fuel, t'⟩)

theorem Apart.trace {r r' : EStateM.Result ε RunState α} (h : Apart R r r') :
    R r.state.trace r'.state.trace := by
  cases h with
  | ok _ _ _ h => exact h
  | error _ _ _ h => exact h

/-- What the computation does, it does whatever was told before. -/
def Heedless (R : Trace → Trace → Prop) (op : EStateM ε RunState α) : Prop :=
  ∀ store fuel t t', R t t' → Apart R (op ⟨store, fuel, t⟩) (op ⟨store, fuel, t'⟩)

namespace Heedless

theorem pure (x : α) : Heedless R (Pure.pure x : EStateM ε RunState α) :=
  fun store fuel _ _ h => .ok x store fuel h

theorem throw (e : ε) : Heedless R (throwThe ε e : EStateM ε RunState α) :=
  fun store fuel _ _ h => .error e store fuel h

theorem bind {op : EStateM ε RunState α} {next : α → EStateM ε RunState β} (h : Heedless R op)
    (hn : ∀ x, Heedless R (next x)) : Heedless R (op >>= next) := by
  intro store fuel t t' ht
  have hop := h store fuel t t' ht
  generalize hx : op ⟨store, fuel, t⟩ = x at hop
  generalize hy : op ⟨store, fuel, t'⟩ = y at hop
  cases hop with
  | ok x store fuel ht =>
    rw [run_bind_of_ok hx, run_bind_of_ok hy]
    exact hn x store fuel _ _ ht
  | error e store fuel ht =>
    rw [run_bind_of_error hx, run_bind_of_error hy]
    exact .error e store fuel ht

end Heedless

/-! ### Composed code -/

namespace Exec

variable {runner : Runner}

theorem tick_heedless : Heedless R tick := by
  intro store fuel t t' h
  cases fuel with
  | zero => exact .error _ store 0 h
  | succ fuel => exact .ok () store fuel h

theorem work_heedless {α : Type} (site : Site) (w : Work α) : Heedless R (work site w) := by
  intro store fuel t t' h
  unfold work
  dsimp only
  cases w store with
  | ok x u => exact .ok x u fuel h
  | error e u => exact .error _ u fuel h

theorem emit_heedless (hR : Trace.Kept R) (e : TraceEvent) : Heedless R (emit e) :=
  fun store fuel _ _ h => .ok () store fuel (hR e _ _ h)

section Runner
variable (hrunner : ∀ site act, Heedless R (runner site act))
include hrunner

theorem runCode_heedless (act : Activation) (following : Nat) (code : List Instr) (place : Nat)
    (regs : Regs) : Heedless R (runCode runner act following code place regs) := by
  induction code generalizing place regs with
  | nil => exact .pure _
  | cons i rest ih =>
    rw [runCode_cons]
    refine .bind (.bind tick_heedless fun _ => work_heedless _ _) fun out => ?_
    obtain ⟨regs, effect⟩ := out
    cases effect with
    | next => exact ih _ _
    | call dst callee => exact .bind (hrunner _ _) fun _ => ih _ _
    | _ => exact .pure _

theorem runChunks_heedless (hR : Trace.Kept R) (p : Program) (depth n : Nat) (act : Activation)
    (scope : Scope) (number : Nat) (regs : Regs) :
    Heedless R (runChunks runner p depth n act scope number regs) := by
  induction n generalizing act scope number regs with
  | zero => exact .throw _
  | succ n ih =>
    cases hf : p.functions[act.func.index]? with
    | none =>
      rw [runChunks_of_absent runner depth n scope number regs hf]
      exact .throw _
    | some chunks =>
      cases hc : chunks[number]? with
      | none =>
        rw [runChunks_of_missing runner depth n scope regs hf hc]
        exact .throw _
      | some c =>
        rw [runChunks_succ runner depth n scope regs hf hc]
        refine .bind (runCode_heedless hrunner _ _ _ _ _) fun out => ?_
        cases out with
        | jump number regs => exact ih _ _ _ _
        | finish value => exact .bind (emit_heedless hR _) fun _ => .pure _
        | replace callee inner =>
          exact .bind (emit_heedless hR _) fun _ => .bind (emit_heedless hR _) fun _ => ih _ _ _ _

end Runner

theorem runFrame_heedless (hR : Trace.Kept R) (p : Program) (deeper depth : Nat)
    (act : Activation) : Heedless R (runFrame p deeper depth act) := by
  induction deeper generalizing depth act with
  | zero =>
    intro store fuel t t' h
    rw [runFrame_eq, runFrame_eq]
    exact runChunks_heedless (fun _ _ => .throw _) hR _ _ _ _ _ _ _ _ _ _ _ (hR _ _ _ h)
  | succ deeper ih =>
    intro store fuel t t' h
    rw [runFrame_eq, runFrame_eq]
    exact runChunks_heedless (fun _ _ => ih _ _) hR _ _ _ _ _ _ _ _ _ _ _ (hR _ _ _ h)

end Exec

/-! ### The machine -/

/-- The same machine with another trace. -/
def Machine.telling (m : Machine) (t : Trace) : Machine := { m with trace := t }

/-- The same result of a step, up to the traces, which are related. -/
inductive Step.Apart (R : Trace → Trace → Prop) : Step → Step → Prop
  | more (m : Machine) {t t' : Trace} (h : R t t') :
    Apart R (.more (m.telling t)) (.more (m.telling t'))
  | done (value : Addr) (store : Store) {t t' : Trace} (h : R t t') :
    Apart R (.done value store t) (.done value store t')
  | stop (s : Stop) (store : Store) {t t' : Trace} (h : R t t') :
    Apart R (.stop s store t) (.stop s store t')

namespace Machine

theorem step_apart (hR : Trace.Kept R) (maxDepth : Nat) (i : Instr) (m : Machine) (h : R t t') :
    ((m.telling t).step maxDepth i).Apart R ((m.telling t').step maxDepth i) := by
  have hi := hR (.instr m.site.func m.site.place i.opcode) _ _ h
  have htakes := (m.telling t).step_takes maxDepth i
  generalize (m.telling t).step maxDepth i = x at htakes
  cases htakes with
  | halt hx =>
    rw [Takes.eq (m := m.telling t') (.halt hx)]
    exact .stop _ _ hi
  | next hx =>
    rw [Takes.eq (m := m.telling t') (.next hx)]
    exact .more ⟨_, m.callers, m.depth, m.depth_eq, _, m.trace⟩ hi
  | goto hx =>
    rw [Takes.eq (m := m.telling t') (.goto hx)]
    exact .more ⟨_, m.callers, m.depth, m.depth_eq, _, m.trace⟩ hi
  | deep hx hd =>
    rw [Takes.eq (m := m.telling t') (.deep hx hd)]
    exact .stop _ _ hi
  | call hx hd =>
    rw [Takes.eq (m := m.telling t') (.call hx hd)]
    exact .more ⟨_, _, m.depth + 1, by exact congrArg (· + 1) m.depth_eq, _, m.trace⟩ (hR _ _ _ hi)
  | replace hx =>
    rw [Takes.eq (m := m.telling t') (.replace hx)]
    exact .more ⟨_, m.callers, m.depth, m.depth_eq, _, m.trace⟩ (hR _ _ _ (hR _ _ _ hi))
  | done hx hc =>
    rw [Takes.eq (m := m.telling t') (.done hx hc)]
    exact .done _ _ (hR _ _ _ hi)
  | resume hx hc hd =>
    rw [Takes.eq (.resume (m := m.telling t') hx hc hd)]
    exact .more ⟨_, _, m.depth - 1, hd, _, m.trace⟩ (hR _ _ _ hi)

theorem run_apart (hR : Trace.Kept R) (maxDepth fuel : Nat) (m : Machine) (h : R t t') :
    Apart R (run maxDepth fuel (m.telling t)) (run maxDepth fuel (m.telling t')) := by
  induction fuel generalizing m t t' with
  | zero =>
    cases hi : m.fetch with
    | none =>
      rw [run_of_none (m := m.telling t) hi, run_of_none (m := m.telling t') hi]
      exact .error _ m.store 0 h
    | some i =>
      rw [run_zero (m := m.telling t) hi, run_zero (m := m.telling t') hi]
      exact .error _ m.store 0 h
  | succ fuel ih =>
    cases hi : m.fetch with
    | none =>
      rw [run_of_none (m := m.telling t) hi, run_of_none (m := m.telling t') hi]
      exact .error _ m.store (fuel + 1) h
    | some i =>
      have hstep := step_apart hR maxDepth i m h
      rw [run_succ (m := m.telling t) hi, run_succ (m := m.telling t') hi]
      generalize (m.telling t).step maxDepth i = x at hstep
      generalize (m.telling t').step maxDepth i = y at hstep
      cases hstep with
      | more m h => exact ih m h
      | done value store h => exact .ok value store fuel h
      | stop e store h => exact .error e store fuel h

theorem evaluate_heedless (hR : Trace.Kept R) (maxDepth : Nat) (act : Activation) :
    Heedless R (evaluate maxDepth act) := fun store fuel t _ h =>
  run_apart hR maxDepth fuel (entry act ⟨store, fuel, t⟩) (hR _ _ _ h)

end Machine

/-! ### Evaluations -/

theorem Executor.way_heedless (hR : Trace.Kept R) (e : Executor) (act : Activation) :
    Heedless R (e.way act) := by
  cases e with
  | machine limits => exact Machine.evaluate_heedless hR _ act
  | composed p limits => exact Exec.runFrame_heedless hR p _ _ act

namespace Evaluation

variable {way : Activation → Exec Addr}

theorem runEntry_heedless (hw : ∀ act, Heedless R (way act)) (entry arg : Addr) :
    Heedless R (runEntry way entry arg) := by
  intro store fuel t t' h
  cases hp : prepareEntry entry arg store with
  | error e u =>
    rw [runEntry_of_unready hp, runEntry_of_unready hp]
    exact .error _ u fuel h
  | ok act u =>
    rw [runEntry_of_ready hp, runEntry_of_ready hp]
    exact hw act u fuel t t' h

theorem settle_heedless (hR : Trace.Kept R) (shape : ShapeId) (result : Except Stop Addr) :
    Heedless R (settle shape result) := by
  intro store fuel t t' h
  cases hr : outcomeOf shape result store with
  | ok out u =>
    rw [settle_of_ok hr, settle_of_ok hr]
    exact .ok out.1 u fuel (hR _ _ _ h)
  | error e u =>
    rw [settle_of_error hr, settle_of_error hr]
    exact .error e u fuel (hR _ _ _ h)

theorem conduct_heedless (hR : Trace.Kept R) (hw : ∀ act, Heedless R (way act))
    (entry arg : Addr) : Heedless R (conduct way entry arg) := by
  intro store fuel t t' h
  have hstart := hR (.runStart entry arg) _ _ h
  cases hs : Outcome.shape (store.resultShape entry) store with
  | error e u =>
    rw [conduct_of_no_shape hs, conduct_of_no_shape hs]
    exact .error _ u fuel (hR _ _ _ hstart)
  | ok shape u =>
    rw [conduct_of_shape hs rfl, conduct_of_shape hs rfl]
    have hrun := runEntry_heedless hw entry arg u fuel _ _ hstart
    generalize runEntry way entry arg ⟨u, fuel, t.emit (.runStart entry arg)⟩ = x at hrun
    generalize runEntry way entry arg ⟨u, fuel, t'.emit (.runStart entry arg)⟩ = y at hrun
    cases hrun with
    | ok x store fuel h => exact settle_heedless hR shape _ store fuel _ _ h
    | error e store fuel h => exact settle_heedless hR shape _ store fuel _ _ h

end Evaluation

/-- What an executor does, it does whatever is told. -/
theorem Executor.evaluate_heedless (hR : Trace.Kept R) (e : Executor) (entry arg : Addr) :
    Heedless R (e.evaluate entry arg) :=
  Evaluation.conduct_heedless hR (e.way_heedless hR) entry arg

end ValueMachine
