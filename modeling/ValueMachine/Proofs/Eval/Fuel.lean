import ValueMachine.Proofs.Eval.Protocol

/-! What the fuel of an evaluation decides.

One unit of fuel is taken for every instruction, before it is done, and fuel is used for
nothing else (`Executor.spent_eq`). So a run with more fuel is the same run, unless it was
cut short for want of fuel, and then it goes on at the cost of what was added
(`Prolongs`). This holds of both executors, of calls and of the chunks of composed code,
and with it the law of `Executor.fuel_law`. -/
namespace ValueMachine

open EStateM.Result

variable {ε α β : Type} {d : Nat}

/-- The state with so much more fuel. -/
def RunState.refuel (d : Nat) (r : RunState) : RunState := { r with fuel := r.fuel + d }

/-- The second end is that of the first run with so much more fuel. It is the same, with
so much more left; or the first run was cut short with nothing left, and the second has
used some of what was added. -/
inductive Prolongs (out : ε) (d : Nat) :
    EStateM.Result ε RunState α → EStateM.Result ε RunState α → Prop
  | same (r : EStateM.Result ε RunState α) : Prolongs out d r (r.leaving (r.state.refuel d))
  | cut {r r' : EStateM.Result ε RunState α} (ha : r.answer = .error out) (hf : r.state.fuel = 0)
    (h : r'.state.fuel < d) : Prolongs out d r r'

/-- The computation never has more fuel than before. -/
def Frugal (op : EStateM ε RunState α) : Prop := ∀ r, (op r).state.fuel ≤ r.fuel

theorem Frugal.of_follows {op : EStateM ε RunState α}
    (h : Follows (RunState.Later Store.Grows) op) : Frugal op := fun r => (h r).fuel

theorem Prolongs.bind {out : ε} {op op' : EStateM ε RunState α}
    {next next' : α → EStateM ε RunState β} {r r' : RunState}
    (h : Prolongs out d (op r) (op' r'))
    (hn : ∀ x s, op r = .ok x s → Prolongs out d (next x s) (next' x (s.refuel d)))
    (hf : ∀ x, Frugal (next' x)) : Prolongs out d ((op >>= next) r) ((op' >>= next') r') := by
  generalize hx : op r = x at h
  generalize hy : op' r' = y at h
  cases h with
  | same =>
    cases x with
    | ok x s =>
      rw [run_bind_of_ok hx, run_bind_of_ok hy]
      exact hn x s hx
    | error e s =>
      rw [run_bind_of_error hx, run_bind_of_error hy]
      exact .same (.error e s)
  | cut ha h0 hlt =>
    cases x with
    | ok x s => cases ha
    | error e s =>
      cases ha
      rw [run_bind_of_error hx]
      refine .cut rfl h0 ?_
      cases y with
      | ok y s =>
        rw [run_bind_of_ok hy]
        exact Nat.lt_of_le_of_lt (hf y s) hlt
      | error e s =>
        rw [run_bind_of_error hy]
        exact hlt

/-- What a run ends with for want of fuel. -/
abbrev Stop.cut : Stop := .fatal .stepBudgetExceeded

/-! ### Composed code -/

namespace Exec

variable {runner : Runner} {p : Program} (hd : 0 < d)

section
include hd

theorem tick_prolongs (r : RunState) : Prolongs Stop.cut d (tick r) (tick (r.refuel d)) := by
  obtain ⟨store, fuel, trace⟩ := r
  cases fuel with
  | zero =>
    obtain ⟨d, rfl⟩ := Nat.exists_eq_succ_of_ne_zero (Nat.pos_iff_ne_zero.mp hd)
    refine .cut rfl rfl ?_
    show (tick ⟨store, 0 + (d + 1), trace⟩).state.fuel < _
    rw [Nat.zero_add]
    exact Nat.lt_succ_self d
  | succ fuel =>
    have htick : tick (RunState.refuel d ⟨store, fuel + 1, trace⟩) =
        .ok () ⟨store, fuel + d, trace⟩ := by
      show tick ⟨store, fuel + 1 + d, trace⟩ = _
      rw [Nat.add_right_comm]
      rfl
    rw [htick]
    exact .same (.ok () ⟨store, fuel, trace⟩)

omit hd in
theorem work_prolongs (site : Site) (w : Work α) (r : RunState) :
    Prolongs Stop.cut d (work site w r) (work site w (r.refuel d)) := by
  obtain ⟨store, fuel, trace⟩ := r
  unfold work RunState.refuel
  dsimp only
  cases w store with
  | ok x t => exact .same (.ok x ⟨t, fuel, trace⟩)
  | error h t => exact .same (.error (h.at (some site)) ⟨t, fuel, trace⟩)

theorem instr_prolongs (act : Activation) (i : Instr) (place : Nat) (regs : Regs) (r : RunState) :
    Prolongs Stop.cut d (instr act i place regs r) (instr act i place regs (r.refuel d)) :=
  (tick_prolongs hd r).bind (fun _ s _ => work_prolongs _ _ s) fun _ =>
    .of_follows (work_follows (i.exec_follows Store.interns_grows act regs))

end

omit hd

/-- Doing an instruction costs fuel. -/
theorem instr_spends {act : Activation} {i : Instr} {place : Nat} {regs : Regs} {r s : RunState}
    {out : Regs × Effect} (h : instr act i place regs r = .ok out s) : s.fuel + 1 = r.fuel := by
  obtain ⟨store, fuel, trace⟩ := r
  cases fuel with
  | zero => cases h
  | succ fuel =>
    cases hx : i.exec act regs store with
    | ok out' t =>
      rw [instr_of_ok hx] at h
      cases h
      rfl
    | error e t =>
      rw [instr_of_error hx] at h
      cases h

section Runner
variable (hrunner : ∀ site act, Follows (RunState.Later Store.Grows) (runner site act))
include hrunner

theorem afterInstr_follows (act : Activation) (following : Nat) (rest : List Instr) (place : Nat)
    (out : Regs × Effect) :
    Follows (RunState.Later Store.Grows) (afterInstr runner act following rest place out) := by
  obtain ⟨regs, effect⟩ := out
  cases effect with
  | next => exact runCode_follows Store.interns_grows hrunner _ _ _ _ _
  | call dst callee =>
    exact .bind (hrunner _ _) fun _ => runCode_follows Store.interns_grows hrunner _ _ _ _ _
  | _ => exact .pure _

theorem afterChunk_follows (p : Program) (depth n : Nat) (act : Activation) (scope : Scope)
    (e : ChunkEnd) :
    Follows (RunState.Later Store.Grows) (afterChunk runner p depth n act scope e) := by
  cases e with
  | jump number regs => exact runChunks_follows Store.interns_grows hrunner _ _ _ _ _ _ _
  | finish value => exact .bind (emit_follows _) fun _ => .pure _
  | replace callee inner =>
    exact .bind (emit_follows _) fun _ => .bind (emit_follows _) fun _ =>
      runChunks_follows Store.interns_grows hrunner _ _ _ _ _ _ _

/-- A chunk that has an instruction costs fuel. -/
theorem runCode_spends {act : Activation} {following : Nat} {code : List Instr} (hc : code ≠ [])
    {place : Nat} {regs : Regs} {r s : RunState} {e : ChunkEnd}
    (h : runCode runner act following code place regs r = .ok e s) : s.fuel < r.fuel := by
  cases code with
  | nil => exact absurd rfl hc
  | cons i rest =>
    rw [runCode_cons] at h
    obtain ⟨out, u, hu, hs⟩ := run_bind_eq_ok_iff.mp h
    have hspent := instr_spends hu
    have hle := ((afterInstr_follows hrunner act following rest place out).of_ok hs).fuel
    omega

variable (hprolongs : ∀ site act r,
  Prolongs Stop.cut d (runner site act r) (runner site act (r.refuel d)))
include hprolongs hd

theorem runCode_prolongs (act : Activation) (following : Nat) (code : List Instr) (place : Nat)
    (regs : Regs) (r : RunState) :
    Prolongs Stop.cut d (runCode runner act following code place regs r)
      (runCode runner act following code place regs (r.refuel d)) := by
  induction code generalizing place regs r with
  | nil => exact .same (.ok (ChunkEnd.jump following regs) r)
  | cons i rest ih =>
    rw [runCode_cons]
    refine (instr_prolongs hd act i place regs r).bind (fun out s _ => ?_)
      fun out => .of_follows (afterInstr_follows hrunner act following rest place out)
    obtain ⟨regs, effect⟩ := out
    cases effect with
    | next => exact ih _ _ _
    | goto target => exact .same (.ok (ChunkEnd.jump target.toNat regs) s)
    | call dst callee =>
      exact (hprolongs _ callee s).bind (fun value s _ => ih _ _ s) fun value =>
        .of_follows (runCode_follows Store.interns_grows hrunner _ _ _ _ _)
    | replace callee scope => exact .same (.ok (ChunkEnd.replace callee scope) s)
    | finish value => exact .same (.ok (ChunkEnd.finish value) s)

/-- There are always enough chunks to do, whatever the fuel is. -/
theorem runChunks_prolongs (hp : p.Small) (depth : Nat) {n n' : Nat} (act : Activation)
    (scope : Scope) (number : Nat) (regs : Regs) (r : RunState) (hn : r.fuel < n)
    (hn' : r.fuel + d < n') :
    Prolongs Stop.cut d (runChunks runner p depth n act scope number regs r)
      (runChunks runner p depth n' act scope number regs (r.refuel d)) := by
  induction n generalizing n' act scope number regs r with
  | zero => exact absurd hn (Nat.not_lt_zero _)
  | succ n ih =>
    obtain ⟨n', rfl⟩ := Nat.exists_eq_succ_of_ne_zero (Nat.ne_zero_of_lt hn')
    cases hf : p.functions[act.func.index]? with
    | none =>
      rw [runChunks_of_absent runner depth n scope number regs hf,
        runChunks_of_absent runner depth n' scope number regs hf]
      exact .same (.error _ r)
    | some chunks =>
      cases hc : chunks[number]? with
      | none =>
        rw [runChunks_of_missing runner depth n scope regs hf hc,
          runChunks_of_missing runner depth n' scope regs hf hc]
        exact .same (.error _ r)
      | some c =>
        rw [runChunks_succ runner depth n scope regs hf hc,
          runChunks_succ runner depth n' scope regs hf hc]
        refine (runCode_prolongs hd hrunner hprolongs act _ c.code c.start regs r).bind
          (fun e s hs => ?_)
          fun e => .of_follows (afterChunk_follows hrunner p depth n' act scope e)
        -- No chunk is empty, so each leaves less fuel than there are chunks to do.
        have hspent := runCode_spends hrunner (hp _ _ hf _ _ hc).1 hs
        cases e with
        | jump number regs => exact ih act scope number regs s (by omega) (by omega)
        | finish value =>
          exact .same (.ok value { s with trace := s.trace.emit (.exit scope depth) })
        | replace callee inner =>
          exact ih callee inner 0 callee.freshRegs
            { s with trace := (s.trace.emit (.exit scope depth)).emit (.enter inner depth) }
            (by show s.fuel < n; omega) (by show s.fuel + d < n'; omega)

end Runner

theorem callees_follows (p : Program) (deeper depth : Nat) (site : Site) (act : Activation) :
    Follows (RunState.Later Store.Grows) (callees p deeper depth site act) := by
  cases deeper with
  | zero => exact .throw _
  | succ deeper => exact runFrame_follows Store.interns_grows p deeper (depth + 1) act

theorem runFrame_prolongs (hd : 0 < d) (hp : p.Small) (deeper depth : Nat) (act : Activation)
    (r : RunState) :
    Prolongs Stop.cut d (runFrame p deeper depth act r)
      (runFrame p deeper depth act (r.refuel d)) := by
  induction deeper generalizing depth act r with
  | zero =>
    rw [runFrame_eq, runFrame_eq]
    exact runChunks_prolongs hd (callees_follows p 0 depth) (fun site _ r => .same (.error _ r)) hp
      depth act _ 0 _ { r with trace := r.trace.emit (.enter (.frame act.func) depth) }
      (Nat.lt_succ_self _) (Nat.lt_succ_self _)
  | succ deeper ih =>
    rw [runFrame_eq, runFrame_eq]
    exact runChunks_prolongs hd (callees_follows p (deeper + 1) depth)
      (fun _ callee r => ih (depth + 1) callee r) hp
      depth act _ 0 _ { r with trace := r.trace.emit (.enter (.frame act.func) depth) }
      (Nat.lt_succ_self _) (Nat.lt_succ_self _)

end Exec

/-! ### The machine -/

namespace Machine

/-- A machine that has an instruction to do uses fuel. -/
theorem run_spends {m : Machine} {i : Instr} (hi : m.fetch = some i) (maxDepth : Nat) {fuel : Nat}
    (hf : 0 < fuel) : (run maxDepth fuel m).state.fuel < fuel := by
  cases fuel with
  | zero => exact absurd hf (Nat.lt_irrefl 0)
  | succ fuel =>
    rw [run_succ hi]
    cases m.step maxDepth i with
    | more m' =>
      exact Nat.lt_succ_of_le (run_follows Store.interns_grows maxDepth fuel m').fuel
    | done value s trace => exact Nat.lt_succ_self fuel
    | stop e s trace => exact Nat.lt_succ_self fuel

theorem run_prolongs (hd : 0 < d) (maxDepth fuel : Nat) (m : Machine) :
    Prolongs Stop.cut d (run maxDepth fuel m) (run maxDepth (fuel + d) m) := by
  induction fuel generalizing m with
  | zero =>
    cases hi : m.fetch with
    | none =>
      rw [run_of_none hi, run_of_none hi]
      exact .same (.error _ ⟨m.store, 0, m.trace⟩)
    | some i =>
      rw [Nat.zero_add, run_zero hi]
      exact .cut rfl rfl (run_spends hi maxDepth hd)
  | succ fuel ih =>
    rw [Nat.add_right_comm]
    cases hi : m.fetch with
    | none =>
      rw [run_of_none hi, run_of_none hi, Nat.add_right_comm]
      exact .same (.error _ ⟨m.store, fuel + 1, m.trace⟩)
    | some i =>
      rw [run_succ hi, run_succ hi]
      cases m.step maxDepth i with
      | more m' => exact ih m'
      | done value s trace => exact .same (.ok value ⟨s, fuel, trace⟩)
      | stop e s trace => exact .same (.error e ⟨s, fuel, trace⟩)

end Machine

/-! ### Evaluations -/

namespace Executor

variable {e : Executor}

theorem way_prolongs (he : e.Composed) (hd : 0 < d) (act : Activation) (r : RunState) :
    Prolongs Stop.cut d (e.way act r) (e.way act (r.refuel d)) := by
  cases he with
  | machine limits => exact Machine.run_prolongs hd limits.maxCallDepth r.fuel (.entry act r)
  | composed hs limits =>
    exact Exec.runFrame_prolongs hd (Program.small_compose hs.wellFormed) _ 1 act r

end Executor

namespace Evaluation

theorem runEntry_prolongs {way : Activation → Exec Addr}
    (hw : ∀ act r, Prolongs Stop.cut d (way act r) (way act (r.refuel d))) (entry arg : Addr)
    (r : RunState) :
    Prolongs Stop.cut d (runEntry way entry arg r) (runEntry way entry arg (r.refuel d)) := by
  obtain ⟨store, fuel, trace⟩ := r
  unfold RunState.refuel
  cases hp : prepareEntry entry arg store with
  | error h t =>
    rw [runEntry_of_unready hp, runEntry_of_unready hp]
    exact .same (.error (h.at none) ⟨t, fuel, trace⟩)
  | ok act t =>
    rw [runEntry_of_ready hp, runEntry_of_ready hp]
    exact hw act ⟨t, fuel, trace⟩

theorem settle_fuel (shape : ShapeId) (result : Except Stop Addr) (r : RunState) :
    (settle shape result r).state.fuel = r.fuel := by
  obtain ⟨store, fuel, trace⟩ := r
  cases hr : outcomeOf shape result store with
  | ok out t => rw [settle_of_ok hr, state_ok]
  | error e t => rw [settle_of_error hr, state_error]

theorem settle_prolongs (shape : ShapeId) {x y : EStateM.Result Stop RunState Addr}
    (h : Prolongs Stop.cut d x y) :
    Prolongs EvalError.stepBudgetExceeded d (settle shape x.answer x.state)
      (settle shape y.answer y.state) := by
  cases h with
  | same =>
    rw [answer_leaving, state_leaving]
    obtain ⟨store, fuel, trace⟩ := x.state
    unfold RunState.refuel
    cases hr : outcomeOf shape x.answer store with
    | ok out t =>
      rw [settle_of_ok hr, settle_of_ok hr]
      exact .same (.ok out.1 ⟨t, fuel, _⟩)
    | error e t =>
      rw [settle_of_error hr, settle_of_error hr]
      exact .same (.error e ⟨t, fuel, _⟩)
  | cut ha hf hlt =>
    refine .cut ?_ ((settle_fuel _ _ _).trans hf) ?_
    · rw [ha]
      rfl
    · rw [settle_fuel]
      exact hlt

theorem conduct_prolongs {way : Activation → Exec Addr}
    (hw : ∀ act r, Prolongs Stop.cut d (way act r) (way act (r.refuel d))) (entry arg : Addr)
    (r : RunState) :
    Prolongs EvalError.stepBudgetExceeded d (conduct way entry arg r)
      (conduct way entry arg (r.refuel d)) := by
  obtain ⟨store, fuel, trace⟩ := r
  cases hx : Outcome.shape (store.resultShape entry) store with
  | error err t =>
    unfold RunState.refuel
    rw [conduct_of_no_shape hx, conduct_of_no_shape hx]
    exact .same (.error (EvalError.store err) ⟨t, fuel, _⟩)
  | ok shape t =>
    unfold RunState.refuel
    rw [conduct_of_shape hx rfl, conduct_of_shape hx rfl]
    exact settle_prolongs shape (runEntry_prolongs hw entry arg ⟨t, fuel, _⟩)

end Evaluation

namespace Executor

variable {e : Executor} {s : Store}

/-- An evaluation with more fuel is the same evaluation, unless it was cut short. -/
theorem evaluateWith_prolongs (he : e.Composed) (hd : 0 < d) (steps : Nat) (entry arg : Addr)
    (s : Store) :
    Prolongs EvalError.stepBudgetExceeded d (e.evaluateWith steps entry arg s)
      (e.evaluateWith (steps + d) entry arg s) :=
  Evaluation.conduct_prolongs (way_prolongs he hd) entry arg ⟨s, steps, .start .none⟩

end Executor

/-! ### Instructions that are executed -/

namespace Machine

/-- The sites of the instructions that a run executes, in order. -/
def executed (maxDepth : Nat) : Nat → Machine → List Site
  | 0, _ => []
  | fuel + 1, m =>
    match m.fetch with
    | none => []
    | some i =>
      m.site ::
        match m.step maxDepth i with
        | .more m => executed maxDepth fuel m
        | _ => []

theorem run_spent (maxDepth fuel : Nat) (m : Machine) :
    (run maxDepth fuel m).state.fuel + (executed maxDepth fuel m).length = fuel := by
  induction fuel generalizing m with
  | zero =>
    cases hi : m.fetch with
    | none =>
      rw [run_of_none hi]
      rfl
    | some i =>
      rw [run_zero hi]
      rfl
  | succ fuel ih =>
    rw [executed]
    cases hi : m.fetch with
    | none =>
      rw [run_of_none hi]
      rfl
    | some i =>
      rw [run_succ hi]
      dsimp only
      cases m.step maxDepth i with
      | more m' => exact congrArg Nat.succ (ih m')
      | done value s trace => rfl
      | stop e s trace => rfl

end Machine

namespace Exec

/-- The sites of the instructions that a chunk executes, in order, with those that the
functions execute that it calls. -/
def codeSites (called : Activation → RunState → List Site) (runner : Runner) (act : Activation) :
    List Instr → Nat → Regs → RunState → List Site
  | [], _, _, _ => []
  | i :: rest, place, regs, r =>
    if r.fuel = 0 then []
    else
      ⟨act.func, place⟩ ::
        match instr act i place regs r with
        | .ok (regs, .next) r => codeSites called runner act rest (place + 1) regs r
        | .ok (regs, .call dst callee) r =>
          called callee r ++
            match runner ⟨act.func, place⟩ callee r with
            | .ok value r => codeSites called runner act rest (place + 1) (regs.set dst value) r
            | .error _ _ => []
        | _ => []

/-- The same for a frame from a chunk on, for at most so many chunks. -/
def chunkSites (called : Activation → RunState → List Site) (runner : Runner) (p : Program)
    (depth : Nat) : Nat → Activation → Scope → Nat → Regs → RunState → List Site
  | 0, _, _, _, _, _ => []
  | n + 1, act, scope, number, regs, r =>
    match p.functions[act.func.index]? with
    | none => []
    | some chunks =>
      match chunks[number]? with
      | none => []
      | some c =>
        codeSites called runner act c.code c.start regs r ++
          match runCode runner act (number + 1) c.code c.start regs r with
          | .ok (.jump number regs) r => chunkSites called runner p depth n act scope number regs r
          | .ok (.replace callee inner) r =>
            chunkSites called runner p depth n callee inner 0 callee.freshRegs
              { r with trace := (r.trace.emit (.exit scope depth)).emit (.enter inner depth) }
          | _ => []

/-- The same for a frame of its own, under which so many more may be opened. -/
def frameSites (p : Program) : Nat → Nat → Activation → RunState → List Site
  | deeper, depth, act, r =>
    let called : Activation → RunState → List Site :=
      match deeper with
      | 0 => fun _ _ => []
      | deeper + 1 => frameSites p deeper (depth + 1)
    chunkSites called (callees p deeper depth) p depth (r.fuel + 1) act (.frame act.func) 0
      act.freshRegs { r with trace := r.trace.emit (.enter (.frame act.func) depth) }

section Spent
variable {called : Activation → RunState → List Site} {runner : Runner}
  (hcalled : ∀ site callee r,
    (runner site callee r).state.fuel + (called callee r).length = r.fuel)
include hcalled

theorem runCode_spent (act : Activation) (following : Nat) (code : List Instr) (place : Nat)
    (regs : Regs) (r : RunState) :
    (runCode runner act following code place regs r).state.fuel +
      (codeSites called runner act code place regs r).length = r.fuel := by
  induction code generalizing place regs r with
  | nil => rfl
  | cons i rest ih =>
    obtain ⟨store, fuel, trace⟩ := r
    rw [runCode_cons, codeSites]
    cases fuel with
    | zero => rfl
    | succ fuel =>
      rw [if_neg (Nat.succ_ne_zero fuel), List.length_cons]
      cases hx : i.exec act regs store with
      | error e t =>
        rw [instr_of_error hx, run_bind_of_error (instr_of_error hx place fuel trace)]
        rfl
      | ok out t =>
        rw [instr_of_ok hx, run_bind_of_ok (instr_of_ok hx place fuel trace), ← Nat.add_assoc]
        refine congrArg Nat.succ ?_
        obtain ⟨regs', effect⟩ := out
        cases effect with
        | next => exact ih _ _ _
        | call dst callee =>
          have hcall := hcalled ⟨act.func, place⟩ callee ⟨t, fuel, trace⟩
          show ((runner ⟨act.func, place⟩ callee >>= _) _).state.fuel + _ = fuel
          dsimp only
          rw [List.length_append]
          cases hr : runner ⟨act.func, place⟩ callee ⟨t, fuel, trace⟩ with
          | ok value u =>
            rw [hr] at hcall
            rw [run_bind_of_ok hr]
            have hrest := ih (place + 1) (regs'.set dst value) u
            dsimp only [state_ok] at hcall ⊢
            omega
          | error e u =>
            rw [hr] at hcall
            rw [run_bind_of_error hr]
            exact hcall
        | _ => rfl

theorem runChunks_spent (p : Program) (depth n : Nat) (act : Activation) (scope : Scope)
    (number : Nat) (regs : Regs) (r : RunState) :
    (runChunks runner p depth n act scope number regs r).state.fuel +
      (chunkSites called runner p depth n act scope number regs r).length = r.fuel := by
  induction n generalizing act scope number regs r with
  | zero => rfl
  | succ n ih =>
    cases hf : p.functions[act.func.index]? with
    | none =>
      rw [runChunks_of_absent runner depth n scope number regs hf, chunkSites, hf]
      rfl
    | some chunks =>
      cases hc : chunks[number]? with
      | none =>
        rw [runChunks_of_missing runner depth n scope regs hf hc, chunkSites, hf]
        dsimp only
        rw [hc]
        rfl
      | some c =>
        have hcode := runCode_spent hcalled act (number + 1) c.code c.start regs r
        rw [runChunks_succ runner depth n scope regs hf hc, chunkSites, hf]
        dsimp only
        rw [hc]
        dsimp only
        rw [List.length_append]
        cases hr : runCode runner act (number + 1) c.code c.start regs r with
        | error e u =>
          rw [hr] at hcode
          rw [run_bind_of_error hr]
          exact hcode
        | ok e u =>
          rw [hr] at hcode
          dsimp only [state_ok] at hcode
          rw [run_bind_of_ok hr]
          cases e with
          | jump number regs =>
            have hrest := ih act scope number regs u
            dsimp only [afterChunk]
            omega
          | finish value => exact hcode
          | replace callee inner =>
            have hrest := ih callee inner 0 callee.freshRegs
              { u with trace := (u.trace.emit (.exit scope depth)).emit (.enter inner depth) }
            show (runChunks runner p depth n callee inner 0 callee.freshRegs _).state.fuel + _ = _
            dsimp only at hrest ⊢
            omega

end Spent

theorem runFrame_spent (p : Program) (deeper depth : Nat) (act : Activation) (r : RunState) :
    (runFrame p deeper depth act r).state.fuel + (frameSites p deeper depth act r).length =
      r.fuel := by
  induction deeper generalizing depth act r with
  | zero =>
    rw [runFrame_eq, frameSites]
    exact runChunks_spent (fun _ _ _ => rfl) p depth _ act _ 0 _ _
  | succ deeper ih =>
    rw [runFrame_eq, frameSites]
    exact runChunks_spent (fun _ callee r => ih (depth + 1) callee r) p depth _ act _ 0 _ _

end Exec

namespace Executor

/-- The sites of the instructions that the run of an activation executes, in order. -/
def sites : Executor → Activation → RunState → List Site
  | machine limits, act, r => Machine.executed limits.maxCallDepth r.fuel (.entry act r)
  | composed p limits, act, r => Exec.frameSites p (limits.maxCallDepth - 1) 1 act r

/-- The sites of the instructions that an evaluation executes with a budget of steps, in
order: those of the entry, of every function that is called and of every function that
takes the place of another. -/
def executed (e : Executor) (steps : Nat) (entry arg : Addr) (s : Store) : List Site :=
  match Outcome.shape (s.resultShape entry) s with
  | .error _ _ => []
  | .ok _ s =>
    match Evaluation.prepareEntry entry arg s with
    | .error _ _ => []
    | .ok act s => e.sites act ⟨s, steps, .start .none⟩

variable {e : Executor} {s : Store}

theorem way_spent (e : Executor) (act : Activation) (r : RunState) :
    (e.way act r).state.fuel + (e.sites act r).length = r.fuel := by
  cases e with
  | machine limits => exact Machine.run_spent limits.maxCallDepth r.fuel (.entry act r)
  | composed p limits => exact Exec.runFrame_spent p _ 1 act r

/-- The fuel that is used is the number of instructions that are executed. -/
theorem spent_eq (e : Executor) (steps : Nat) (entry arg : Addr) (s : Store) :
    (e.evaluateWith steps entry arg s).state.fuel + (e.executed steps entry arg s).length =
      steps := by
  unfold executed
  cases hx : Outcome.shape (s.resultShape entry) s with
  | error err t =>
    have heval : e.evaluateWith steps entry arg s = _ := Evaluation.conduct_of_no_shape hx
    rw [heval]
    rfl
  | ok shape t =>
    have heval : e.evaluateWith steps entry arg s = _ := Evaluation.conduct_of_shape hx rfl
    rw [heval, Evaluation.settle_fuel]
    dsimp only
    cases hp : Evaluation.prepareEntry entry arg t with
    | error h u =>
      rw [Evaluation.runEntry_of_unready hp]
      rfl
    | ok act u =>
      rw [Evaluation.runEntry_of_ready hp]
      exact e.way_spent act ⟨u, steps, .start .none⟩

/-- An evaluation that is cut short has used up its fuel. -/
theorem fuel_of_cut (hs : Reachable s) (he : e.Composed) {steps : Nat} {entry arg : Addr}
    (h : (e.evaluateWith steps entry arg s).answer = .error .stepBudgetExceeded) :
    (e.evaluateWith steps entry arg s).state.fuel = 0 := by
  have hends := evaluate_proper he (r := ⟨s, steps, .start .none⟩) hs.wellFormed entry arg
  unfold evaluateWith at h ⊢
  cases hx : e.evaluate entry arg ⟨s, steps, .start .none⟩ with
  | ok a r =>
    rw [hx] at h
    cases h
  | error err r =>
    rw [hx] at h
    cases h
    exact hends.of_error hx

/-- Of two evaluations with different fuel the one with more ends in the same way and has
the difference left; or the one with less was cut short, and the other has used more. -/
theorem more_fuel (he : e.Composed) {a b : Nat} (hab : a < b) (entry arg : Addr) (s : Store) :
    let x := e.evaluateWith a entry arg s
    let y := e.evaluateWith b entry arg s
    (y.answer = x.answer ∧ y.state.store = x.state.store ∧
        y.state.fuel = x.state.fuel + (b - a)) ∨
      (x.answer = .error .stepBudgetExceeded ∧ x.state.fuel = 0 ∧ y.state.fuel < b - a) := by
  have h := evaluateWith_prolongs he (Nat.sub_pos_of_lt hab) a entry arg s
  rw [Nat.add_sub_cancel' hab.le] at h
  intro x y
  change Prolongs _ _ x y at h
  generalize y = y at h
  cases h with
  | same =>
    rw [answer_leaving, state_leaving]
    exact .inl ⟨rfl, rfl, rfl⟩
  | cut ha hf hlt => exact .inr ⟨ha, hf, hlt⟩

/-- With as much fuel as an evaluation has used it is the same evaluation. -/
theorem enough_fuel (he : e.Composed) {steps : Nat} {entry arg : Addr}
    (hr : (e.evaluateWith steps entry arg s).answer ≠ .error .stepBudgetExceeded) {fuel : Nat}
    (hk : (e.executed steps entry arg s).length ≤ fuel) :
    (e.evaluateWith fuel entry arg s).answer = (e.evaluateWith steps entry arg s).answer ∧
      (e.evaluateWith fuel entry arg s).state.store =
        (e.evaluateWith steps entry arg s).state.store ∧
      (e.evaluateWith fuel entry arg s).state.fuel =
        fuel - (e.executed steps entry arg s).length := by
  have hspent := e.spent_eq steps entry arg s
  rcases Nat.lt_trichotomy fuel steps with hlt | rfl | hlt
  · rcases more_fuel he hlt entry arg s with ⟨ha, hst, hf⟩ | ⟨-, -, hf⟩
    · exact ⟨ha.symm, hst.symm, by omega⟩
    · omega
  · exact ⟨rfl, rfl, by omega⟩
  · rcases more_fuel he hlt entry arg s with ⟨ha, hst, hf⟩ | ⟨ha, -, -⟩
    · exact ⟨ha, hst, by omega⟩
    · exact absurd ha hr

/-- With less it is cut short. -/
theorem little_fuel (he : e.Composed) {steps : Nat} {entry arg : Addr} {fuel : Nat}
    (hk : fuel < (e.executed steps entry arg s).length) :
    (e.evaluateWith fuel entry arg s).answer = .error .stepBudgetExceeded ∧
      (e.evaluateWith fuel entry arg s).state.fuel = 0 := by
  have hspent := e.spent_eq steps entry arg s
  rcases more_fuel he (show fuel < steps by omega) entry arg s with ⟨-, -, hf⟩ | ⟨ha, hf, -⟩
  · omega
  · exact ⟨ha, hf⟩

/-- **Fuel only decides how far an evaluation gets.** An evaluation that is not cut short
uses one unit of fuel for each instruction that it executes. With that much fuel or more it
is the same evaluation and leaves the rest; with less it is cut short and leaves nothing.
One that is cut short is cut short with less fuel, too. -/
theorem fuel_law (hs : Reachable s) (he : e.Composed) (steps : Nat) (entry arg : Addr) :
    let r := e.evaluateWith steps entry arg s
    let k := (e.executed steps entry arg s).length
    r.state.fuel + k = steps ∧
      (r.answer ≠ .error .stepBudgetExceeded →
        (∀ fuel, k ≤ fuel → (e.evaluateWith fuel entry arg s).answer = r.answer ∧
          (e.evaluateWith fuel entry arg s).state.store = r.state.store ∧
          (e.evaluateWith fuel entry arg s).state.fuel = fuel - k) ∧
        ∀ fuel < k,
          (e.evaluateWith fuel entry arg s).answer = .error .stepBudgetExceeded ∧
            (e.evaluateWith fuel entry arg s).state.fuel = 0) ∧
      (r.answer = .error .stepBudgetExceeded → ∀ fuel ≤ steps,
        (e.evaluateWith fuel entry arg s).answer = .error .stepBudgetExceeded ∧
          (e.evaluateWith fuel entry arg s).state.fuel = 0) := by
  refine ⟨e.spent_eq steps entry arg s, fun hr => ⟨fun _ hk => enough_fuel he hr hk,
    fun _ hk => little_fuel he hk⟩, fun hr fuel hle => ?_⟩
  rcases Nat.lt_or_eq_of_le hle with hlt | rfl
  · rcases more_fuel he hlt entry arg s with ⟨ha, -, -⟩ | ⟨ha, hf, -⟩
    · exact ⟨ha.symm.trans hr, fuel_of_cut hs he (ha.symm.trans hr)⟩
    · exact ⟨ha, hf⟩
  · exact ⟨hr, fuel_of_cut hs he hr⟩

/-- The relay executes seven instructions, in the frames of three functions. -/
theorem executed_relay :
    (machine .standard).executed 100 ⟨5⟩ Addr.unit .withRelay =
      [⟨⟨2⟩, 0⟩, ⟨⟨2⟩, 1⟩, ⟨⟨1⟩, 0⟩, ⟨⟨1⟩, 1⟩, ⟨⟨0⟩, 0⟩, ⟨⟨0⟩, 1⟩, ⟨⟨2⟩, 2⟩] := by
  rw [executed, Store.shape_relay]
  rfl

/-- So seven units of fuel are enough for it, and six are not. -/
theorem fuel_law_relay :
    (∃ a, ((machine .standard).evaluateWith 7 ⟨5⟩ Addr.unit .withRelay).answer = .ok a) ∧
      ((machine .standard).evaluateWith 7 ⟨5⟩ Addr.unit .withRelay).state.fuel = 0 ∧
      ((machine .standard).evaluateWith 6 ⟨5⟩ Addr.unit .withRelay).answer =
        .error .stepBudgetExceeded := by
  obtain ⟨a, r, heval⟩ := evaluate_relay Store.shape_relay
  obtain ⟨-, hlaw, -⟩ := fuel_law .withRelay (.machine .standard) 100 ⟨5⟩ Addr.unit
  rw [executed_relay, heval] at hlaw
  obtain ⟨henough, hlittle⟩ := hlaw (fun h => by cases h)
  obtain ⟨hanswer, -, hleft⟩ := henough 7 (Nat.le_refl 7)
  exact ⟨⟨a, hanswer⟩, hleft, (hlittle 6 (Nat.lt_succ_self 6)).1⟩

end Executor

end ValueMachine
