import ValueMachine.Proofs.Eval.Agreement
import ValueMachine.Proofs.Eval.Telling

/-! Both ways of running code tell of the same calls.

A machine may tell of single instructions, composed code never does; the rest of what is told
are the ends of the run and the calls. If no instructions are wanted, a machine and the code
that was composed from its store make the same run: no functions are added on the way, so
the program has all that the machine enters. What else is wanted does not matter to a run,
so the calls that it tells of are the same anyway (`Executor.calls_eq`). -/
namespace ValueMachine

/-! ### Functions stay what they are -/

/-- The second store has the functions of the first, and no others. -/
def Store.SameFunctions (s t : Store) : Prop := t.functions = s.functions

instance : IsPreorder Store Store.SameFunctions where
  refl _ := rfl
  trans _ _ _ h h' := Eq.trans h' h

namespace Store

theorem place_sameFunctions (v : Value) : Follows SameFunctions (place v) := by
  intro s
  cases hf : s.find? v with
  | some a =>
    rw [place_of_known hf]
    rfl
  | none =>
    by_cases hlt : s.size < maxValues
    · rw [place_of_new hf hlt]
      rfl
    · rw [place_of_full hf hlt]
      rfl

theorem shape_sameFunctions (x : Shape) : Follows SameFunctions (shape x) := by
  intro s
  unfold shape SameFunctions
  split
  · rfl
  · split
    · rfl
    · dsimp only
      split <;> rfl

theorem SameFunctions.body? {s t : Store} (h : s.SameFunctions t) (f : FuncId) :
    t.body? f = s.body? f := congrArg (fun functions => functions[f.index]?) h

theorem interns_sameFunctions : Interns SameFunctions := by
  intro v hv s
  rw [intern_eq hv]
  exact Follows.bind (ask_follows _) (fun _ => place_sameFunctions v) s

end Store

namespace Machine

/-- A machine whose store has no other functions than the program runs within it. -/
theorem runWithin_eq_run {p : Program} {m : Machine} (h : m.Sound)
    (hp : ∀ f b, m.store.body? f = some b → p.has f = true) (maxDepth fuel : Nat) :
    runWithin p maxDepth fuel m = run maxDepth fuel m := by
  obtain ⟨i, hi⟩ := h.fetch
  have hhas : p.has m.frame.act.func = true := hp _ _ h.frame.act.body
  induction fuel generalizing m i with
  | zero => rw [runWithin_zero maxDepth hhas hi, run, hi]
  | succ fuel ih =>
    have hstep := step_sound h hi maxDepth
    have hsame := (step_follows Store.interns_sameFunctions maxDepth i m).1
    rw [runWithin_succ maxDepth hhas hi, run, hi]
    dsimp only
    cases hm : m.step maxDepth i with
    | more m' =>
      rw [hm] at hstep hsame
      have hp' : ∀ f b, m'.store.body? f = some b → p.has f = true := fun f b hb =>
        hp f b ((hsame.body? f).symm.trans hb)
      obtain ⟨j, hj⟩ := Sound.fetch hstep
      exact ih hstep hp' j hj (hp' _ _ (Sound.frame hstep).act.body)
    | done value s trace => rfl
    | stop e s trace => rfl

end Machine

theorem Program.has_of_body? {s : Store} {f : FuncId} {b : Body} (h : s.body? f = some b) :
    (compose s).has f = true := by
  rw [has_compose, decide_eq_true_iff]
  exact (Array.getElem?_eq_some_iff.mp h).1

/-! ### Calls -/

namespace TraceEvent

def isInstr : TraceEvent → Bool
  | instr _ _ _ => true
  | _ => false

/-- Whether the event tells of the end of a run. -/
def isEnd : TraceEvent → Bool
  | runOk _ | runFault _ _ | runFatal => true
  | _ => false

theorem isInstr_of_isEnd {e : TraceEvent} (h : e.isEnd = true) : e.isInstr = false := by
  cases e with
  | instr => cases h
  | _ => rfl

end TraceEvent

/-- The ends of runs are wanted, and the calls, and perhaps instructions. -/
structure TraceMask.WantsCalls (mask : TraceMask) : Prop where
  run : mask.run = true
  call : mask.call = true

theorem TraceMask.WantsCalls.wants {mask : TraceMask} (h : mask.WantsCalls) {e : TraceEvent}
    (he : e.isInstr = false) : mask.wants e = true := by
  cases e with
  | instr => cases he
  | enter => exact h.call
  | exit => exact h.call
  | _ => exact h.run

namespace Trace

/-- What was told but for single instructions: the ends of a run, and the calls between. -/
def calls (t : Trace) : List TraceEvent := t.events.toList.filter fun e => !e.isInstr

theorem emit_of_wanted {t : Trace} {e : TraceEvent} (h : t.mask.wants e = true) :
    t.emit e = { t with events := t.events.push e } := if_pos h

theorem emit_of_unwanted {t : Trace} {e : TraceEvent} (h : t.mask.wants e = false) :
    t.emit e = t := if_neg (by rw [h]; exact Bool.false_ne_true)

theorem calls_emit {t : Trace} (h : t.mask.WantsCalls) (e : TraceEvent) :
    (t.emit e).calls = t.calls ++ if e.isInstr then [] else [e] := by
  cases he : e.isInstr with
  | false =>
    rw [emit_of_wanted (h.wants he)]
    simp [calls, he]
  | true =>
    cases hw : t.mask.wants e with
    | false => simp [emit_of_unwanted hw]
    | true => simp [emit_of_wanted hw, calls, he]

/-- Two traces tell of the same calls, whether they tell of instructions or not. -/
structure SameCalls (t t' : Trace) : Prop where
  left : t.mask.WantsCalls
  right : t'.mask.WantsCalls
  calls : t.calls = t'.calls

theorem sameCalls_kept : Kept SameCalls := by
  rintro e t t' ⟨hl, hr, hcalls⟩
  refine ⟨?_, ?_, ?_⟩
  · rw [emit_mask]
    exact hl
  · rw [emit_mask]
    exact hr
  · rw [calls_emit hl, calls_emit hr, hcalls]

end Trace

namespace Executor

variable {s : Store}

/-- Whether instructions are wanted, too, makes no difference to the calls. -/
theorem calls_of_masks (e : Executor) (entry arg : Addr) {mask mask' : TraceMask}
    (h : mask.WantsCalls) (h' : mask'.WantsCalls) (s : Store) :
    (e.run entry arg mask s).state.trace.calls = (e.run entry arg mask' s).state.trace.calls :=
  (e.evaluate_heedless Trace.sameCalls_kept entry arg s e.limits.steps (.start mask)
    (.start mask') ⟨h, h', rfl⟩).trace.calls

/-- If no instructions are wanted, a machine makes the run of the code that is composed from
its store. -/
theorem run_eq_of_quiet (hs : Reachable s) (limits : Limits) (entry arg : Addr) {mask : TraceMask}
    (hq : mask.instr = false) :
    (machine limits).run entry arg mask s =
      (composed (.compose s) limits).run entry arg mask s := by
  refine Evaluation.conduct_congr fun shape t act u hshape hentry => ?_
  obtain ⟨hst, ht⟩ :=
    (Store.shape_grows (.cotuple #[s.resultShape entry, ShapeId.text])).of_ok hshape hs.wellFormed
  obtain ⟨rfl, hact, -⟩ := (Evaluation.prepareEntry_ends ht entry arg).of_ok hentry
  have hsame : s.SameFunctions u :=
    (Store.shape_sameFunctions (.cotuple #[s.resultShape entry, ShapeId.text])).of_ok hshape
  let r : RunState := ⟨u, limits.steps, (Trace.start mask).emit (.runStart entry arg)⟩
  have hquiet : r.trace.mask.instr = false := (congrArg _ (Trace.emit_mask _ _)).trans hq
  have hcomposed := Program.evaluate_eq limits.maxCallDepth (r := r)
    ((Program.from_compose s).mono hst) ht hact hquiet
  have hmachine : Machine.runWithin (.compose s) limits.maxCallDepth r.fuel (.entry act r) =
      Machine.evaluate limits.maxCallDepth act r :=
    Machine.runWithin_eq_run (m := .entry act r) (Machine.sound_entry ht hact)
      (fun f _ hb => Program.has_of_body? ((hsame.body? f).symm.trans hb)) _ _
  exact (hcomposed.trans hmachine).symm

/-- A machine and the code that is composed from its store tell of the same calls. -/
theorem calls_eq (hs : Reachable s) (limits : Limits) (entry arg : Addr) {mask : TraceMask}
    (h : mask.WantsCalls) :
    ((machine limits).run entry arg mask s).state.trace.calls =
      ((composed (.compose s) limits).run entry arg mask s).state.trace.calls := by
  have hquiet : TraceMask.WantsCalls ⟨true, false, true⟩ := ⟨rfl, rfl⟩
  rw [calls_of_masks _ entry arg h hquiet, calls_of_masks _ entry arg h hquiet,
    run_eq_of_quiet hs limits entry arg rfl]

end Executor

end ValueMachine
