import ValueMachine.Proofs.Eval.Equations
import ValueMachine.Proofs.Store.Growth

/-! What an evaluation does to its state.

An evaluation changes the store by interning abstract values, and by the one shape
of its outcome. So it follows every relation between stores that these steps follow;
it never has more fuel than before, and it never changes what is told of it. This
holds of instructions, of both ways of running code, from any state and to any
end. -/
namespace ValueMachine

open Store (Interns)

/-- The state of a run after that of another: the stores are related, there is no more
fuel, and the same events are wanted. -/
structure RunState.Later (R : Store → Store → Prop) (r r' : RunState) : Prop where
  store : R r.store r'.store
  fuel : r'.fuel ≤ r.fuel
  mask : r'.trace.mask = r.trace.mask

instance (R : Store → Store → Prop) [IsPreorder Store R] :
    IsPreorder RunState (RunState.Later R) where
  refl _ := ⟨refl_of R _, Nat.le_refl _, rfl⟩
  trans _ _ _ h h' :=
    ⟨trans_of R h.store h'.store, Nat.le_trans h'.fuel h.fuel, h'.mask.trans h.mask⟩

@[simp] theorem Trace.emit_mask (t : Trace) (e : TraceEvent) : (t.emit e).mask = t.mask := by
  unfold emit
  split <;> rfl

variable {R : Store → Store → Prop} [IsPreorder Store R] {α : Type}

/-! ### Instructions -/

namespace Work

theorem lift_eq {op : StoreM α} {s : Store} : (liftM op : Work α) s = match op s with
    | .ok x s => .ok x s
    | .error e s => .error (Halt.ofStoreError e) s := rfl

theorem lift_ends {op : StoreM α} {s : Store} {P : α → Store → Prop} {E : Halt → Store → Prop}
    (h : Ends (op s) P fun e t => E (Halt.ofStoreError e) t) :
    Ends ((liftM op : Work α) s) P E := by
  rw [lift_eq]
  cases hr : op s with
  | ok x t => exact h.of_ok hr
  | error e t => exact h.of_error hr

theorem ask_eq_ok_iff {question : Store → Except StoreError α} {x : α} {s t : Store} :
    Work.ask question s = .ok x t ↔ question s = .ok x ∧ t = s := by
  have hlift : Work.ask question s = .ok x t ↔ Store.ask question s = .ok x t := by
    rw [Work.ask, lift_eq]
    cases Store.ask question s <;> simp
  exact hlift.trans Store.ask_eq_ok_iff

theorem value_eq_ok_iff {a : Addr} {v : Value} {s t : Store} :
    value a s = .ok v t ↔ s.value? a = some v ∧ t = s :=
  ask_eq_ok_iff.trans (and_congr_left' Store.lift_resolve_eq_ok_iff)

omit [IsPreorder Store R] in
theorem lift_follows {op : StoreM α} (h : Follows R op) : Follows R (liftM op : Work α) := by
  intro s
  rw [lift_eq]
  cases hr : op s with
  | ok x s' => exact h.of_ok hr
  | error e s' => exact h.of_error hr

theorem ask_follows (question : Store → Except StoreError α) : Follows R (Work.ask question) :=
  lift_follows (Store.ask_follows question)

theorem readReg_follows (regs : Regs) (r : Reg) : Follows R (readReg regs r) := by
  unfold readReg
  split
  · exact .pure _
  · exact .throw _

theorem readRegs_follows (regs : Regs) (rs : List Reg) : Follows R (readRegs regs rs) :=
  .mapM (readReg_follows regs) rs

theorem arith_follows (hi : Interns R) (op : ArithOp) (a b : Addr) :
    Follows R (arith op a b) := by
  refine .bind (ask_follows _) fun v => .bind (ask_follows _) fun w => ?_
  split
  · split
    · exact .throw _
    · split
      · exact lift_follows (hi _ rfl)
      · exact .throw _
  · exact lift_follows (hi _ rfl)
  all_goals exact .throw _

theorem compare_follows (op : CmpOp) (a b : Addr) : Follows R (compare op a b) := by
  refine .bind (ask_follows _) fun v => .bind (ask_follows _) fun w => ?_
  split
  · exact .pure _
  · split
    · exact .throw _
    · exact .pure _
  · exact .pure _
  all_goals exact .throw _

theorem project_follows (tuple : Addr) (index : UInt32) : Follows R (project tuple index) := by
  refine .bind (ask_follows _) fun v => ?_
  split
  · split
    · exact .pure _
    · exact .throw _
  · exact .throw _

theorem untag_follows (a : Addr) : Follows R (untag a) := by
  refine .bind (ask_follows _) fun v => ?_
  split
  · exact .pure _
  · exact .throw _

theorem targetFor_follows (targets : Array UInt32) (tag : UInt32) :
    Follows R (targetFor targets tag) := by
  unfold targetFor
  split
  · exact .pure _
  · exact .throw _

theorem head_follows (list : Addr) : Follows R (head list) := by
  refine .bind (ask_follows _) fun v => ?_
  split
  · exact .pure _
  all_goals exact .throw _

theorem tail_follows (list : Addr) : Follows R (tail list) := by
  refine .bind (ask_follows _) fun v => ?_
  split
  · exact .pure _
  all_goals exact .throw _

theorem isNil_follows (list : Addr) : Follows R (isNil list) := by
  refine .bind (ask_follows _) fun v => ?_
  split
  · exact .pure _
  · exact .pure _
  · exact .throw _

theorem readTruth_follows (cond : Addr) : Follows R (readTruth cond) := by
  refine .bind (ask_follows _) fun v => ?_
  split
  · split
    · exact .pure _
    · exact .throw _
  · exact .throw _

theorem checkArgs_follows (args : List Addr) (params : List ShapeId) :
    Follows R (checkArgs args params) := by
  induction args generalizing params with
  | nil => exact .pure _
  | cons arg args ih =>
    cases params with
    | nil => exact .pure _
    | cons param params => exact .bind (ask_follows _) fun _ => ih params

theorem prepare_follows (callee : Addr) (args : List Addr) (owed : Option ShapeId) :
    Follows R (prepare callee args owed) := by
  refine .bind (ask_follows _) fun v => ?_
  split
  · refine .bind (ask_follows _) fun body => ?_
    split
    · exact .throw _
    · exact .bind (checkArgs_follows _ _) fun _ => .pure _
  · exact .throw _

theorem checkResult_follows (act : Activation) (value : Addr) :
    Follows R (checkResult act value) := by
  refine .bind (ask_follows _) fun _ => ?_
  split
  · exact ask_follows _
  · exact .pure _

theorem unpack_follows (arity : Nat) (arg : Addr) : Follows R (unpack arity arg) := by
  refine .bind (ask_follows _) fun v => ?_
  split
  · exact .pure _
  · split
    · exact .pure _
    · exact .throw _
  · exact .throw _

theorem into_follows {x : Work Addr} (regs : Regs) (dst : Reg) (h : Follows R x) :
    Follows R (into regs dst x) := .bind h fun _ => .pure _

end Work

/-- Whether the instruction gives its result by interning it. -/
def Instr.makes : Instr → Bool
  | arith _ _ _ _ | tupleNew _ _ | cotupleNew _ _ _ _ | nil _ _ | cons _ _ _ | refl _ _ _
  | closure _ _ _ => true
  | _ => false

open Work in
/-- Any other instruction only asks the store. -/
theorem Instr.exec_asks (act : Activation) (regs : Regs) {i : Instr} (h : i.makes = false) :
    Follows R (i.exec act regs) := by
  have hread (r : Reg) : Follows R (readReg regs r) := readReg_follows regs r
  cases i with
  | nop => exact .pure _
  | trap code => exact .throw _
  | const dst addr =>
    exact into_follows regs dst (.bind (.map _ (ask_follows _)) fun _ => .pure _)
  | arg dst index =>
    refine into_follows regs dst ?_
    split
    · exact .pure _
    · exact .throw _
  | capture dst index =>
    refine into_follows regs dst ?_
    split
    · exact .pure _
    · exact .throw _
  | mov dst src => exact into_follows regs dst (hread src)
  | cmp op dst a b =>
    exact into_follows regs dst (.bind (hread a) fun _ => .bind (hread b) fun _ =>
      .bind (compare_follows op _ _) fun _ => .pure _)
  | tupleGet dst tuple index =>
    exact into_follows regs dst (.bind (hread tuple) fun _ => project_follows _ _)
  | branch scrutinee payload targets =>
    exact .bind (hread scrutinee) fun _ => .bind (untag_follows _) fun (_, _) =>
      .bind (targetFor_follows _ _) fun _ => .pure _
  | head dst list => exact into_follows regs dst (.bind (hread list) fun _ => head_follows _)
  | tail dst list => exact into_follows regs dst (.bind (hread list) fun _ => tail_follows _)
  | isNil dst list =>
    exact into_follows regs dst
      (.bind (hread list) fun _ => .bind (isNil_follows _) fun _ => .pure _)
  | jmp target => exact .pure _
  | call dst func args =>
    exact .bind (hread func) fun _ => .bind (readRegs_follows regs args) fun _ =>
      .bind (prepare_follows _ _ _) fun _ => .pure _
  | tailCall func args =>
    exact .bind (hread func) fun _ => .bind (readRegs_follows regs args) fun _ =>
      .bind (prepare_follows _ _ _) fun _ => .pure _
  | defer cond onProved onDisproved args =>
    exact .bind (hread cond) fun _ => .bind (readTruth_follows _) fun _ => .bind (hread _) fun _ =>
      .bind (readRegs_follows regs args) fun _ => .bind (prepare_follows _ _ _) fun _ => .pure _
  | ret src => exact .bind (hread src) fun _ => .bind (checkResult_follows act _) fun _ => .pure _
  | _ => cases h

open Work in
/-- An instruction does to the store what interning does. -/
theorem Instr.exec_follows (hi : Interns R) (act : Activation) (regs : Regs) (i : Instr) :
    Follows R (i.exec act regs) := by
  have hread (r : Reg) : Follows R (readReg regs r) := readReg_follows regs r
  cases i with
  | arith op dst a b =>
    exact into_follows regs dst
      (.bind (hread a) fun _ => .bind (hread b) fun _ => arith_follows hi op _ _)
  | tupleNew dst items =>
    exact into_follows regs dst
      (.bind (readRegs_follows regs items) fun _ => lift_follows (hi _ rfl))
  | cotupleNew dst t tag payload =>
    exact into_follows regs dst (.bind (hread payload) fun _ => lift_follows (hi _ rfl))
  | nil dst elem => exact into_follows regs dst (lift_follows (hi _ rfl))
  | cons dst first rest =>
    exact into_follows regs dst (.bind (hread first) fun _ => .bind (hread rest) fun _ =>
      lift_follows (Store.cons_follows hi _ _))
  | refl dst a b =>
    exact into_follows regs dst (.bind (hread a) fun _ => .bind (hread b) fun _ =>
      lift_follows (Store.identity_follows hi _ _))
  | closure dst func captures =>
    exact into_follows regs dst (.bind (readRegs_follows regs captures) fun _ =>
      .bind (hread func) fun _ => lift_follows (Store.closure_follows hi _ _))
  | _ => exact exec_asks act regs rfl

/-! ### The machine -/

namespace Step

def store : Step → Store
  | more m => m.store
  | done _ s _ | stop _ s _ => s

def trace : Step → Trace
  | more m => m.trace
  | done _ _ t | stop _ _ t => t

end Step

namespace Machine

theorem step_follows (hi : Interns R) (maxDepth : Nat) (i : Instr) (m : Machine) :
    R m.store (m.step maxDepth i).store ∧ (m.step maxDepth i).trace.mask = m.trace.mask := by
  have hexec := Instr.exec_follows hi m.frame.act m.frame.regs i
  have htakes := m.step_takes maxDepth i
  generalize m.step maxDepth i = x at htakes
  cases htakes with
  | halt hx => exact ⟨hexec.of_error hx, Trace.emit_mask _ _⟩
  | next hx | goto hx | deep hx hd => exact ⟨hexec.of_ok hx, Trace.emit_mask _ _⟩
  | call hx hd | replace hx | done hx hc | resume hx hc =>
    exact ⟨hexec.of_ok hx, by simp [Step.trace, traceWith]⟩

theorem run_follows (hi : Interns R) (maxDepth fuel : Nat) (m : Machine) :
    (RunState.mk m.store fuel m.trace).Later R (run maxDepth fuel m).state := by
  let first : RunState := ⟨m.store, fuel, m.trace⟩
  refine Ends.state (run_ends (fun m left => first.Later R ⟨m.store, left, m.trace⟩)
    (refl_of (RunState.Later R) first) (fun _ _ h _ => h) (fun _ h => h) fun m left i h _ => ?_)
  have hstep := step_follows hi maxDepth i m
  have hnext : first.Later R ⟨(m.step maxDepth i).store, left, (m.step maxDepth i).trace⟩ :=
    trans_of (RunState.Later R) h ⟨hstep.1, Nat.le_succ left, hstep.2⟩
  generalize m.step maxDepth i = x at hnext
  cases x with
  | more m' => exact hnext
  | done value s t => exact hnext
  | stop e s t => exact hnext

theorem evaluate_follows (hi : Interns R) (maxDepth : Nat) (act : Activation) :
    Follows (RunState.Later R) (evaluate maxDepth act) := by
  intro r
  have hrun := run_follows hi maxDepth r.fuel
    ⟨.enter act (Scope.frame act.func), [], 1, rfl, r.store, r.trace.emit (.enter (.frame act.func) 1)⟩
  exact ⟨hrun.store, hrun.fuel, hrun.mask.trans (Trace.emit_mask _ _)⟩

end Machine

/-! ### Composed code -/

namespace Exec

theorem tick_follows : Follows (RunState.Later R) tick := by
  rintro ⟨store, fuel, trace⟩
  cases fuel with
  | zero => exact refl_of (RunState.Later R) _
  | succ fuel => exact ⟨refl_of R _, Nat.le_succ fuel, rfl⟩

omit [IsPreorder Store R] in
theorem work_follows {site : Site} {w : Work α} (h : Follows R w) :
    Follows (RunState.Later R) (work site w) := by
  intro r
  unfold work
  dsimp only
  split
  · next hr => exact ⟨h.of_ok hr, Nat.le_refl _, rfl⟩
  · next hr => exact ⟨h.of_error hr, Nat.le_refl _, rfl⟩

theorem emit_follows (e : TraceEvent) : Follows (RunState.Later R) (emit e) :=
  fun _ => ⟨refl_of R _, Nat.le_refl _, Trace.emit_mask _ _⟩

theorem runCode_follows (hi : Interns R) {runner : Runner}
    (hr : ∀ site act, Follows (RunState.Later R) (runner site act)) (act : Activation)
    (following : Nat) (code : List Instr) (place : Nat) (regs : Regs) :
    Follows (RunState.Later R) (runCode runner act following code place regs) := by
  induction code generalizing place regs with
  | nil => exact .pure _
  | cons i rest ih =>
    unfold runCode
    refine .bind tick_follows fun _ =>
      .bind (work_follows (i.exec_follows hi act regs)) fun (regs, effect) => ?_
    cases effect with
    | next => exact ih _ _
    | goto target => exact .pure _
    | call dst callee => exact .bind (hr _ _) fun _ => ih _ _
    | replace callee scope => exact .pure _
    | finish value => exact .pure _

theorem runChunks_follows (hi : Interns R) {runner : Runner}
    (hr : ∀ site act, Follows (RunState.Later R) (runner site act)) (p : Program) (depth n : Nat)
    (act : Activation) (scope : Scope) (number : Nat) (regs : Regs) :
    Follows (RunState.Later R) (runChunks runner p depth n act scope number regs) := by
  induction n generalizing act scope number regs with
  | zero => exact .throw _
  | succ n ih =>
    unfold runChunks
    split
    · exact .throw _
    · split
      · exact .throw _
      · refine .bind (runCode_follows hi hr _ _ _ _ _) fun e => ?_
        cases e with
        | jump number regs => exact ih _ _ _ _
        | finish value => exact .bind (emit_follows _) fun _ => .pure _
        | replace callee inner =>
          exact .bind (emit_follows _) fun _ => .bind (emit_follows _) fun _ => ih _ _ _ _

theorem runFrame_follows (hi : Interns R) (p : Program) (deeper depth : Nat) (act : Activation) :
    Follows (RunState.Later R) (runFrame p deeper depth act) := by
  have hget : Follows (RunState.Later R) (get : Exec RunState) :=
    fun _ => refl_of (RunState.Later R) _
  induction deeper generalizing depth act with
  | zero =>
    refine .bind (emit_follows _) fun _ => .bind hget fun _ => ?_
    exact runChunks_follows hi (fun _ _ => .throw _) _ _ _ _ _ _ _
  | succ deeper ih =>
    refine .bind (emit_follows _) fun _ => .bind hget fun _ => ?_
    exact runChunks_follows hi (fun _ callee => ih _ callee) _ _ _ _ _ _ _

end Exec

/-! ### Whole evaluations -/

theorem Executor.way_follows (hi : Interns R) (e : Executor) (act : Activation) :
    Follows (RunState.Later R) (e.way act) := by
  cases e with
  | machine limits => exact Machine.evaluate_follows hi _ act
  | composed p limits => exact Exec.runFrame_follows hi p _ _ act

namespace Evaluation

theorem prepareEntry_follows (entry arg : Addr) : Follows R (prepareEntry entry arg) := by
  refine .bind (Work.ask_follows _) fun v => ?_
  cases v with
  | function f captures =>
    exact .bind (Work.ask_follows _) fun _ => .bind (Work.unpack_follows _ _) fun _ =>
      Work.prepare_follows _ _ _
  | _ => exact .throw _

theorem runEntry_follows {way : Activation → Exec Addr}
    (hw : ∀ act, Follows (RunState.Later R) (way act)) (entry arg : Addr) :
    Follows (RunState.Later R) (runEntry way entry arg) := by
  intro ⟨store, fuel, trace⟩
  have hp := prepareEntry_follows (R := R) entry arg
  cases hr : prepareEntry entry arg store with
  | error h s =>
    rw [runEntry_of_unready hr]
    exact ⟨hp.of_error hr, Nat.le_refl _, rfl⟩
  | ok act s =>
    rw [runEntry_of_ready hr]
    have hs : (RunState.mk store fuel trace).Later R ⟨s, fuel, trace⟩ :=
      ⟨hp.of_ok hr, Nat.le_refl _, rfl⟩
    exact trans_of (RunState.Later R) hs (hw act _)

theorem lift_eq {op : StoreM α} {s : Store} :
    (liftM op : EStateM EvalError Store α) s = match op s with
      | .ok x s => .ok x s
      | .error e s => .error (.store e) s := rfl

theorem lift_ends {op : StoreM α} {s : Store} {P : α → Store → Prop}
    {E : EvalError → Store → Prop} (h : Ends (op s) P fun e t => E (.store e) t) :
    Ends ((liftM op : EStateM EvalError Store α) s) P E := by
  rw [lift_eq]
  cases hr : op s with
  | ok x t => exact h.of_ok hr
  | error e t => exact h.of_error hr

omit [IsPreorder Store R] in
theorem lift_follows {op : StoreM α} (h : Follows R op) :
    Follows R (liftM op : EStateM EvalError Store α) := by
  intro s
  rw [lift_eq]
  cases hr : op s with
  | ok x s' => exact h.of_ok hr
  | error e s' => exact h.of_error hr

theorem outcomeOf_follows (hi : Interns R) (shape : ShapeId) (result : Except Stop Addr) :
    Follows R (outcomeOf shape result) := by
  cases result with
  | ok value => exact .bind (lift_follows (hi _ rfl)) fun _ => .pure _
  | error stop =>
    cases stop with
    | fatal e => exact .throw _
    | fault f site =>
      exact .bind (lift_follows (hi _ rfl)) fun _ => .bind (lift_follows (hi _ rfl)) fun _ =>
        .pure _

theorem settle_follows (hi : Interns R) (shape : ShapeId) (result : Except Stop Addr) :
    Follows (RunState.Later R) (settle shape result) := by
  intro ⟨store, fuel, trace⟩
  have ho := outcomeOf_follows hi shape result
  cases hr : outcomeOf shape result store with
  | ok out s =>
    rw [settle_of_ok hr]
    exact ⟨ho.of_ok hr, Nat.le_refl _, Trace.emit_mask _ _⟩
  | error e s =>
    rw [settle_of_error hr]
    exact ⟨ho.of_error hr, Nat.le_refl _, Trace.emit_mask _ _⟩

theorem conduct_follows (hi : Interns R) (hs : ∀ x, Follows R (Store.shape x))
    {way : Activation → Exec Addr} (hw : ∀ act, Follows (RunState.Later R) (way act))
    (entry arg : Addr) : Follows (RunState.Later R) (conduct way entry arg) := by
  intro ⟨store, fuel, trace⟩
  cases hr : Outcome.shape (store.resultShape entry) store with
  | error e s =>
    rw [conduct_of_no_shape hr]
    exact ⟨(hs _).of_error hr, Nat.le_refl _, by simp⟩
  | ok shape s =>
    have hshape : (RunState.mk store fuel trace).Later R
        ⟨s, fuel, trace.emit (.runStart entry arg)⟩ :=
      ⟨(hs _).of_ok hr, Nat.le_refl _, Trace.emit_mask _ _⟩
    rw [conduct_of_shape hr rfl]
    exact trans_of (RunState.Later R) (trans_of (RunState.Later R) hshape
      (runEntry_follows hw entry arg _)) (settle_follows hi _ _ _)

end Evaluation

/-- An evaluation by either executor, of anything, to any end. -/
theorem Executor.evaluate_follows (hi : Interns R) (hs : ∀ x, Follows R (Store.shape x))
    (e : Executor) (entry arg : Addr) : Follows (RunState.Later R) (e.evaluate entry arg) :=
  Evaluation.conduct_follows hi hs (e.way_follows hi) entry arg

end ValueMachine
