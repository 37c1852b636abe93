import ValueMachine.Proofs.Eval.Accounts
import ValueMachine.Proofs.Eval.Fuel

/-! What is told under a mask.

A mask only leaves things out: what a run tells under it are those events, of all that there
are, that it wants, and the run is the same as one that tells nothing (`Trace.Sifts`). Of the
instructions a machine tells one by one as it executes them, each with its opcode; so it tells
of as many as it takes steps, and with a smaller budget of the first of them
(`Executor.told_under_masks`). -/
namespace ValueMachine

variable {s : Store} {mask : TraceMask}

/-! ### Leaving out -/

namespace Trace

/-- The first trace has what its mask wants of the second, which has everything. -/
structure Sifts (t t' : Trace) : Prop where
  all : t'.mask = .all
  events : t.events.toList = t'.events.toList.filter t.mask.wants

theorem sifts_start (mask : TraceMask) : Sifts (.start mask) (.start .all) := ⟨rfl, rfl⟩

theorem sifts_kept : Kept Sifts := by
  intro e t t' h
  have hall : t'.mask.wants e = true := by
    rw [h.all]
    exact TraceMask.all_wants e
  refine ⟨(emit_mask _ _).trans h.all, ?_⟩
  rw [emit_mask, emit_of_wanted hall, Array.toList_push, List.filter_append, ← h.events]
  cases hw : t.mask.wants e with
  | false => rw [emit_of_unwanted hw, List.filter_cons_of_neg (by simp [hw])]; simp
  | true => rw [emit_of_wanted hw, List.filter_cons_of_pos hw]; simp

end Trace

theorem Apart.answer {R : Trace → Trace → Prop} {ε α : Type} {x y : EStateM.Result ε RunState α}
    (h : Apart R x y) : x.answer = y.answer := by
  cases h <;> rfl

theorem Apart.store {R : Trace → Trace → Prop} {ε α : Type} {x y : EStateM.Result ε RunState α}
    (h : Apart R x y) : x.state.store = y.state.store := by
  cases h <;> rfl

namespace Executor

/-- A run tells what is wanted of all that there is to tell. -/
theorem run_sifts (e : Executor) (entry arg : Addr) (mask : TraceMask) (s : Store) :
    Apart Trace.Sifts (e.run entry arg mask s) (e.run entry arg .all s) :=
  e.evaluate_heedless Trace.sifts_kept entry arg s e.limits.steps _ _ (Trace.sifts_start mask)

end Executor

/-! ### Instructions -/

/-- The event tells of the instruction at the site, with its opcode. -/
inductive Store.Tells (s : Store) : Site → TraceEvent → Prop
  | instr {site : Site} {b : Body} {i : Instr} (hb : s.body? site.func = some b)
    (hi : b.code[site.place]? = some i) : Tells s site (.instr site.func site.place i.opcode)

theorem Store.Tells.unique {site : Site} {e e' : TraceEvent} (h : s.Tells site e)
    (h' : s.Tells site e') : e = e' := by
  obtain ⟨hb, hi⟩ := h
  obtain ⟨hb', hi'⟩ := h'
  cases hb.symm.trans hb'
  cases hi.symm.trans hi'
  rfl

namespace Trace

/-- What was told of single instructions. -/
def instrs (t : Trace) : List TraceEvent := t.events.toList.filter TraceEvent.isInstr

theorem instrs_emit {t : Trace} (h : t.mask.instr = true) (e : TraceEvent) :
    (t.emit e).instrs = t.instrs ++ if e.isInstr then [e] else [] := by
  cases hw : t.mask.wants e with
  | false =>
    have he : e.isInstr = false := by
      cases e with
      | instr => cases h.symm.trans hw
      | _ => rfl
    simp [emit_of_unwanted hw, he]
  | true =>
    rw [emit_of_wanted hw, instrs, instrs, Array.toList_push, List.filter_append]
    cases he : e.isInstr <;> simp [he]

theorem instrs_emit_other {t : Trace} (h : t.mask.instr = true) {e : TraceEvent}
    (he : e.isInstr = false) : (t.emit e).instrs = t.instrs := by
  simp [instrs_emit h, he]

end Trace

namespace Machine

/-- A step tells of its instruction, and of no other. -/
theorem step_instrs (maxDepth : Nat) (i : Instr) {m : Machine} (h : m.trace.mask.instr = true) :
    (m.step maxDepth i).trace.instrs =
      m.trace.instrs ++ [.instr m.site.func m.site.place i.opcode] := by
  have htold := Trace.instrs_emit h (.instr m.site.func m.site.place i.opcode)
  have hmask : (m.traceWith i).mask.instr = true := by
    rw [traceWith, Trace.emit_mask]
    exact h
  have htakes := m.step_takes maxDepth i
  generalize m.step maxDepth i = x at htakes
  cases htakes with
  | halt hx | next hx | goto hx | deep hx hd => exact htold
  | call hx hd | done hx hc | resume hx hc =>
    exact (Trace.instrs_emit_other hmask rfl).trans htold
  | replace hx =>
    have hmask' : ((m.traceWith i).emit (.exit m.frame.scope m.depth)).mask.instr = true := by
      rw [Trace.emit_mask]
      exact hmask
    exact (Trace.instrs_emit_other hmask' rfl).trans
      ((Trace.instrs_emit_other hmask rfl).trans htold)

/-- A run tells of the instructions that it executes, in order. -/
theorem run_instrs {m : Machine} (hm : m.Sound) (hs : s.SameFunctions m.store)
    (h : m.trace.mask.instr = true) (maxDepth fuel : Nat) :
    ∃ told, List.Forall₂ s.Tells (executed maxDepth fuel m) told ∧
      (run maxDepth fuel m).state.trace.instrs = m.trace.instrs ++ told := by
  induction fuel generalizing m with
  | zero =>
    obtain ⟨i, hi⟩ := hm.fetch
    refine ⟨[], .nil, ?_⟩
    rw [run_zero hi, List.append_nil]
    rfl
  | succ fuel ih =>
    obtain ⟨i, hi⟩ := hm.fetch
    have htold := step_instrs maxDepth i h
    have hstep := step_sound hm hi maxDepth
    obtain ⟨hsame, hmask⟩ := step_follows Store.interns_sameFunctions maxDepth i m
    have hhere : s.Tells m.site (.instr m.site.func m.site.place i.opcode) :=
      .instr ((hs.body? _).symm.trans hm.frame.act.body) hi
    rw [run_succ hi, executed, hi]
    dsimp only
    cases hx : m.step maxDepth i with
    | more m' =>
      rw [hx] at hmask htold hstep hsame
      obtain ⟨told, hall, hrest⟩ := ih hstep (IsTrans.trans _ _ _ hs hsame)
        ((congrArg TraceMask.instr hmask).trans h)
      refine ⟨_ :: told, .cons hhere hall, hrest.trans ?_⟩
      rw [show m'.trace.instrs = _ from htold, List.append_assoc]
      rfl
    | done value t trace =>
      rw [hx] at htold
      exact ⟨[_], .cons hhere .nil, htold⟩
    | stop e t trace =>
      rw [hx] at htold
      exact ⟨[_], .cons hhere .nil, htold⟩

/-- What a run executes does not hang on what is told. -/
theorem executed_telling (maxDepth fuel : Nat) (m : Machine) (t t' : Trace) :
    executed maxDepth fuel (m.telling t) = executed maxDepth fuel (m.telling t') := by
  induction fuel generalizing m t t' with
  | zero => rfl
  | succ fuel ih =>
    have hfetch : (m.telling t').fetch = (m.telling t).fetch := rfl
    rw [executed, executed, hfetch]
    cases (m.telling t).fetch with
    | none => rfl
    | some i =>
      have hstep : ((m.telling t).step maxDepth i).Apart (fun _ _ => True)
          ((m.telling t').step maxDepth i) :=
        step_apart (fun _ _ _ _ => trivial) maxDepth i m trivial
      dsimp only
      generalize (m.telling t).step maxDepth i = x at hstep
      generalize (m.telling t').step maxDepth i = y at hstep
      cases hstep with
      | more m _ => exact congrArg _ (ih m _ _)
      | done value store _ => rfl
      | stop e store _ => rfl

/-- With less fuel a run executes the first of its instructions. -/
theorem executed_take (maxDepth : Nat) {k fuel : Nat} (h : k ≤ fuel) (m : Machine) :
    executed maxDepth k m = (executed maxDepth fuel m).take k := by
  induction k generalizing fuel m with
  | zero => rfl
  | succ k ih =>
    obtain ⟨fuel, rfl⟩ := Nat.exists_eq_succ_of_ne_zero (Nat.ne_zero_of_lt h)
    rw [executed, executed]
    cases m.fetch with
    | none => rfl
    | some i =>
      dsimp only
      cases m.step maxDepth i with
      | more m' => exact congrArg _ (ih (Nat.le_of_succ_le_succ h) m')
      | done value t trace => simp
      | stop e t trace => simp

end Machine

/-- The end of an evaluation is no instruction. -/
theorem Evaluation.settle_instrs {shape : ShapeId} {result : Except Stop Addr} {r : RunState}
    (h : r.trace.mask.instr = true) :
    (settle shape result r).state.trace.instrs = r.trace.instrs := by
  obtain ⟨last, hlast, hends, -⟩ := settle_last shape result r
  rw [hlast, Trace.instrs_emit_other h (TraceEvent.isInstr_of_isEnd hends)]

namespace Executor

theorem executed_take (limits : Limits) {k steps : Nat} (h : k ≤ steps) (entry arg : Addr)
    (s : Store) : (machine limits).executed k entry arg s =
      ((machine limits).executed steps entry arg s).take k := by
  unfold executed
  cases Outcome.shape (s.resultShape entry) s with
  | error e t => exact List.take_nil.symm
  | ok shape t =>
    dsimp only
    cases Evaluation.prepareEntry entry arg t with
    | error e u => exact List.take_nil.symm
    | ok act u => exact Machine.executed_take limits.maxCallDepth h _

/-- An entry that is run tells of the instructions that are executed, in order. -/
theorem runEntry_instrs {t : Store} (ht : t.WellFormed) (hsame : s.SameFunctions t)
    (limits : Limits) (steps : Nat) (entry arg : Addr) {trace : Trace}
    (h : trace.mask.instr = true) (hnone : trace.instrs = []) :
    List.Forall₂ s.Tells
      (match Evaluation.prepareEntry entry arg t with
        | .error _ _ => []
        | .ok act u => (machine limits).sites act ⟨u, steps, .start .none⟩)
      (Evaluation.runEntry (machine limits).way entry arg
        ⟨t, steps, trace⟩).state.trace.instrs := by
  cases hp : Evaluation.prepareEntry entry arg t with
  | error e u =>
    rw [Evaluation.runEntry_of_unready hp, EStateM.Result.state_error, hnone]
    exact .nil
  | ok act u =>
    rw [Evaluation.runEntry_of_ready hp]
    obtain ⟨rfl, hact, -⟩ := (Evaluation.prepareEntry_ends ht entry arg).of_ok hp
    let m : Machine := .entry act ⟨u, steps, trace⟩
    have hentered : m.trace.mask.instr = true := by
      rw [show m.trace = trace.emit (.enter (.frame act.func) 1) from rfl, Trace.emit_mask]
      exact h
    have hnone' : m.trace.instrs = [] := (Trace.instrs_emit_other h rfl).trans hnone
    obtain ⟨told, hall, htold⟩ := Machine.run_instrs (m := m) (Machine.sound_entry ht hact) hsame
      hentered limits.maxCallDepth steps
    have hsites : (machine limits).sites act ⟨u, steps, .start .none⟩ =
        Machine.executed limits.maxCallDepth steps m :=
      Machine.executed_telling limits.maxCallDepth steps m _ _
    rw [hnone', List.nil_append] at htold
    show List.Forall₂ s.Tells ((machine limits).sites act ⟨u, steps, .start .none⟩)
      (Machine.run limits.maxCallDepth steps m).state.trace.instrs
    rw [hsites, htold]
    exact hall

/-- A machine tells of the instructions that it executes, in order. -/
theorem run_instrs (hs : Reachable s) (limits : Limits) (entry arg : Addr)
    (h : mask.instr = true) : List.Forall₂ s.Tells
      ((machine limits).executed limits.steps entry arg s)
      ((machine limits).run entry arg mask s).state.trace.instrs := by
  have hmask : ((Trace.start mask).emit (.runStart entry arg)).mask.instr = true := by
    rw [Trace.emit_mask]
    exact h
  have hnone : ((Trace.start mask).emit (.runStart entry arg)).instrs = [] :=
    Trace.instrs_emit_other (t := .start mask) h rfl
  unfold executed
  cases hx : Outcome.shape (s.resultShape entry) s with
  | error e t =>
    have hrun : (machine limits).run entry arg mask s = _ := Evaluation.conduct_of_no_shape hx
    rw [hrun, EStateM.Result.state_error, Trace.instrs_emit_other hmask rfl, hnone]
    exact .nil
  | ok shape t =>
    obtain ⟨-, ht⟩ :=
      (Store.shape_grows (.cotuple #[s.resultShape entry, ShapeId.text])).of_ok hx hs.wellFormed
    have hsame : s.SameFunctions t :=
      (Store.shape_sameFunctions (.cotuple #[s.resultShape entry, ShapeId.text])).of_ok hx
    have hrun : (machine limits).run entry arg mask s = _ := Evaluation.conduct_of_shape hx rfl
    rw [hrun, Evaluation.settle_instrs]
    · exact runEntry_instrs ht hsame limits limits.steps entry arg hmask hnone
    · have hkept := Evaluation.runEntry_follows
        ((machine limits).way_follows Store.interns_sameFunctions) entry arg
        ⟨t, limits.steps, (Trace.start mask).emit (.runStart entry arg)⟩
      exact (congrArg TraceMask.instr hkept.mask).trans hmask

/-- **A mask only leaves things out.** A machine that tells of instructions tells of each that it
executes, in order, with the opcode that stands at its place: as many as an evaluation with the
same budget takes steps, and with a smaller budget of the first of them. Whatever is wanted of
an evaluation, by a machine or by composed code, is told as if all was wanted and the rest then
left out; its result and the store that it leaves are those of one that tells nothing. -/
theorem told_under_masks (hs : Reachable s) (entry arg : Addr) :
    (∀ (limits : Limits) (mask : TraceMask), mask.instr = true →
      let told := ((machine limits).run entry arg mask s).state.trace.instrs
      List.Forall₂ s.Tells ((machine limits).executed limits.steps entry arg s) told ∧
        ((machine limits).evaluateWith limits.steps entry arg s).state.fuel + told.length =
          limits.steps ∧
        ∀ k ≤ limits.steps,
          ((machine ⟨k, limits.maxCallDepth⟩).run entry arg mask s).state.trace.instrs =
            told.take k) ∧
    ∀ (e : Executor) (mask : TraceMask),
      (e.run entry arg mask s).state.trace.events.toList =
          (e.run entry arg .all s).state.trace.events.toList.filter mask.wants ∧
        (e.run entry arg mask s).answer = (e.evaluateWith e.limits.steps entry arg s).answer ∧
        (e.run entry arg mask s).state.store =
          (e.evaluateWith e.limits.steps entry arg s).state.store := by
  constructor
  · intro limits mask h told
    have htold := run_instrs hs limits entry arg h
    refine ⟨htold, ?_, fun k hk => ?_⟩
    · rw [← htold.length_eq]
      exact spent_eq _ _ _ _ _
    · have hfirst := run_instrs hs ⟨k, limits.maxCallDepth⟩ entry arg h
      rw [show (machine ⟨k, limits.maxCallDepth⟩).executed k entry arg s = _ from
        executed_take limits hk entry arg s] at hfirst
      have hunique : Relator.RightUnique s.Tells := fun _ _ _ h h' => h.unique h'
      exact List.right_unique_forall₂' hunique hfirst (List.forall₂_take k htold)
  · intro e mask
    have hsifts := e.run_sifts entry arg mask s
    have hquiet := e.run_sifts entry arg .none s
    have hmask : (e.run entry arg mask s).state.trace.mask = mask :=
      (e.evaluate_follows Store.interns_sameFunctions Store.shape_sameFunctions entry arg
        ⟨s, e.limits.steps, .start mask⟩).mask
    refine ⟨?_, hsifts.answer.trans hquiet.answer.symm, hsifts.store.trans hquiet.store.symm⟩
    rw [hsifts.trace.events, hmask]

/-- The relay, told of by its instructions only. -/
theorem told_under_masks_relay :
    let mask : TraceMask := ⟨false, true, false⟩
    List.Forall₂ (Store.Tells .withRelay)
        ((machine .standard).executed Limits.standard.steps ⟨5⟩ Addr.unit .withRelay)
        ((machine .standard).run ⟨5⟩ Addr.unit mask .withRelay).state.trace.instrs ∧
      ((machine .standard).run ⟨5⟩ Addr.unit mask .withRelay).state.trace.events.toList =
        ((machine .standard).run ⟨5⟩ Addr.unit .all .withRelay).state.trace.events.toList.filter
          mask.wants :=
  have h := told_under_masks Reachable.withRelay ⟨5⟩ Addr.unit
  ⟨(h.1 .standard _ rfl).1, (h.2 (.machine .standard) _).1⟩

end Executor

end ValueMachine
