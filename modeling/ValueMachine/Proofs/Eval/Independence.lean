import ValueMachine.Proofs.Eval.Abreast
import ValueMachine.Proofs.Eval.Agreement
import ValueMachine.Proofs.Eval.Protocol
import ValueMachine.Proofs.Eval.Safety

/-! An evaluation does not depend on what else is in the store.

Two machines that stand at the same place, on twins, take the same step
(`Machine.step_abreast`), so they make the same run with the same fuel
(`Machine.runWithin_abreast`); composed code is such a run. The store that a run leaves is
mirrored by the one that the run on a larger store leaves, up to a renaming of the values
that the run has created. The outcome only tells the result of the run
(`Executor.independent`). -/
namespace ValueMachine

open Store

variable {base s t : Store}

/-! ### Machines on twins -/

/-- The frames stand at the same instruction, on twins. What they were entered for is not
looked at. -/
structure Frame.Alike (base s t : Store) (f f' : Frame) : Prop where
  act : f.act.Alike base s t f'.act
  regs : Regs.Alike s t f.regs f'.regs
  pc : f.pc = f'.pc

structure Caller.Alike (base s t : Store) (c c' : Caller) : Prop where
  frame : c.frame.Alike base s t c'.frame
  dst : c.dst = c'.dst

structure Machine.Alike (base : Store) (m m' : Machine) : Prop where
  mirrors : base.Mirrors m.store m'.store
  frame : m.frame.Alike base m.store m'.store m'.frame
  callers : List.Forall₂ (Caller.Alike base m.store m'.store) m.callers m'.callers

/-- The steps lead to machines on twins, or end alike. A full store settles nothing. -/
inductive Step.Alike (base : Store) : Step → Step → Prop
  | more {m m' : Machine} (h : m.Alike base m') : Alike base (.more m) (.more m')
  | done {a b : Addr} {s t : Store} (h : base.Mirrors s t) (hab : Twins s t a b)
    (trace trace' : Trace) : Alike base (.done a s trace) (.done b t trace')
  | stop {e e' : Stop} {s t : Store} (h : base.Mirrors s t) (he : e.Alike (Twins s t) e')
    (trace trace' : Trace) : Alike base (.stop e s trace) (.stop e' t trace')
  | left {s : Store} {trace : Trace} {x : Step} :
    Alike base (.stop (.fatal (.store .exhausted)) s trace) x
  | right {t : Store} {trace : Trace} {x : Step} :
    Alike base x (.stop (.fatal (.store .exhausted)) t trace)

theorem Caller.Alike.mono {s' t' : Store} {c c' : Caller} (h : c.Alike base s t c')
    (hs : s.Extends s') (ht : t.Extends t') : c.Alike base s' t' c' :=
  ⟨⟨h.frame.act.mono hs ht, h.frame.regs.mono hs ht, h.frame.pc⟩, h.dst⟩

theorem Caller.Alike.resume {c c' : Caller} (h : c.Alike base s t c') {a b : Addr}
    (hab : Twins s t a b) : (c.resume a).Alike base s t (c'.resume b) := by
  refine ⟨h.frame.act, ?_, h.frame.pc⟩
  show Regs.Alike s t (c.frame.regs.set c.dst a) (c'.frame.regs.set c'.dst b)
  rw [h.dst]
  exact h.frame.regs.set hab _

theorem Frame.Alike.enter {act act' : Activation} (h : act.Alike base s t act')
    (scope scope' : Scope) : (Frame.enter act scope).Alike base s t (.enter act' scope') :=
  ⟨h, h.fresh, rfl⟩

namespace Machine

variable {m m' : Machine}

theorem Alike.fetch (h : m.Alike base m') : m'.fetch = m.fetch := by
  unfold Machine.fetch
  rw [h.frame.act.body, h.frame.pc]

theorem Alike.site (h : m.Alike base m') : m'.site = m.site := by
  unfold Machine.site
  rw [h.frame.act.func, h.frame.pc]

/-- Machines that stand at the same place take the same step. -/
theorem step_abreast (h : m.Alike base m') {i : Instr} (hi : m.fetch = some i) (maxDepth : Nat) :
    (m.step maxDepth i).Alike base (m'.step maxDepth i) := by
  have hsite := h.site
  obtain ⟨hm, ⟨hact, hregs, hpc⟩, hcallers⟩ := h
  have hdepth : m'.depth = m.depth := by rw [m.depth_eq, m'.depth_eq, hcallers.length_eq]
  have hbounded : i.Bounded base m.frame.act.body :=
    ((hm.origin.verified' hact.registered).instrs m.frame.pc.toNat i hi).bounded
  have hexec := Instr.exec_abreast hm hact hregs hbounded
  generalize hx : i.exec m.frame.act m.frame.regs m.store = r at hexec
  generalize hx' : i.exec m'.frame.act m'.frame.regs m'.store = r' at hexec
  cases hexec with
  | left h =>
    subst h
    rw [Takes.eq (.halt hx)]
    exact .left
  | right h =>
    subst h
    rw [Takes.eq (.halt hx')]
    exact .right
  | error h =>
    rw [Takes.eq (.halt hx), Takes.eq (.halt hx'), hsite]
    exact .stop h.1 (h.2.at _) _ _
  | @ok out s out' t h =>
    obtain ⟨regs₁, effect⟩ := out
    obtain ⟨regs₂, effect'⟩ := out'
    obtain ⟨hon, hregs, he⟩ := h
    have hact := hact.mono hon.left hon.right
    have hcallers := hcallers.imp fun _ _ hc => hc.mono hon.left hon.right
    have hnext : m.frame.pc + 1 = m'.frame.pc + 1 := by rw [hpc]
    cases he with
    | next =>
      rw [Takes.eq (.next hx), Takes.eq (.next hx')]
      exact .more ⟨hon.mirrors, ⟨hact, hregs, hnext⟩, hcallers⟩
    | goto target =>
      rw [Takes.eq (.goto hx), Takes.eq (.goto hx')]
      exact .more ⟨hon.mirrors, ⟨hact, hregs, rfl⟩, hcallers⟩
    | call dst hcallee =>
      by_cases hd : maxDepth ≤ m.depth
      · rw [Takes.eq (.deep hx hd), Takes.eq (.deep hx' (hdepth ▸ hd)), hsite]
        exact .stop hon.mirrors (.fault (.same rfl) _) _ _
      · rw [Takes.eq (.call hx hd), Takes.eq (.call hx' (hdepth ▸ hd))]
        exact .more ⟨hon.mirrors, .enter hcallee _ _, .cons ⟨⟨hact, hregs, hnext⟩, rfl⟩ hcallers⟩
    | replace hcallee inner =>
      rw [Takes.eq (.replace hx), Takes.eq (.replace hx')]
      exact .more ⟨hon.mirrors, .enter hcallee _ _, hcallers⟩
    | finish hab =>
      generalize hc : m.callers = callers at hcallers
      generalize hc' : m'.callers = callers' at hcallers
      cases hcallers with
      | nil =>
        rw [Takes.eq (.done hx hc), Takes.eq (.done hx' hc')]
        exact .done hon.mirrors hab _ _
      | cons hcaller hrest =>
        rw [Takes.eq (.resume hx hc (by simp [m.depth_eq, hc])),
          Takes.eq (.resume hx' hc' (by simp [m'.depth_eq, hc']))]
        exact .more ⟨hon.mirrors, hcaller.resume hab, hrest⟩

end Machine

/-! ### Runs -/

/-- Two runs leave the same fuel and end alike: with twins, or for the same reason. -/
abbrev RunsAlike (base : Store) :
    EStateM.Result Stop RunState Addr → EStateM.Result Stop RunState Addr → Prop :=
  Agree (· = .fatal (.store .exhausted))
    (fun a r b r' => r.fuel = r'.fuel ∧ base.Mirrors r.store r'.store ∧
      Twins r.store r'.store a b)
    fun e r e' r' => r.fuel = r'.fuel ∧ base.Mirrors r.store r'.store ∧
      e.Alike (Twins r.store r'.store) e'

theorem RunsAlike.ends {x y : EStateM.Result Stop RunState Addr} (h : RunsAlike base x y)
    (hx : x.answer ≠ .error (.fatal (.store .exhausted)))
    (hy : y.answer ≠ .error (.fatal (.store .exhausted))) :
    x.state.fuel = y.state.fuel ∧ base.Mirrors x.state.store y.state.store ∧
      Answers (Twins x.state.store y.state.store) (Stop.Alike (Twins x.state.store y.state.store))
        x.answer y.answer := by
  cases h with
  | ok h => exact ⟨h.1, h.2.1, .ok h.2.2⟩
  | error h => exact ⟨h.1, h.2.1, .error h.2.2⟩
  | left h => exact absurd (congrArg Except.error h) hx
  | right h => exact absurd (congrArg Except.error h) hy

namespace Machine

variable {m m' : Machine}

/-- Machines that stand at the same place make the same run. -/
theorem runWithin_abreast (p : Program) (maxDepth fuel : Nat) (h : m.Alike base m') :
    RunsAlike base (runWithin p maxDepth fuel m) (runWithin p maxDepth fuel m') := by
  induction fuel using Nat.strongRecOn generalizing m m' with
  | _ fuel ih =>
    unfold runWithin
    rw [← h.frame.act.func, h.fetch, h.site]
    split
    · cases hi : m.fetch with
      | none => exact .error ⟨rfl, h.mirrors, .fault (.same rfl) _⟩
      | some i =>
        cases fuel with
        | zero => exact .error ⟨rfl, h.mirrors, .fatal _⟩
        | succ fuel =>
          have hstep := step_abreast h hi maxDepth
          dsimp only
          generalize m.step maxDepth i = x at hstep
          generalize m'.step maxDepth i = y at hstep
          cases hstep with
          | more h => exact ih fuel (Nat.lt_succ_self fuel) h
          | done hm hab => exact .ok ⟨rfl, hm, hab⟩
          | stop hm he => exact .error ⟨rfl, hm, he⟩
          | left => exact .left rfl
          | right => exact .right rfl
    · exact .error ⟨rfl, h.mirrors, .fatal _⟩

/-- Within a program that has every function a run is the whole run. -/
theorem run_eq_runWithin {p : Program} (hp : ∀ f, p.has f = true) (maxDepth fuel : Nat)
    (m : Machine) : run maxDepth fuel m = runWithin p maxDepth fuel m := by
  induction fuel generalizing m with
  | zero =>
    rw [runWithin, if_pos (hp _)]
    cases hi : m.fetch with
    | none => exact run_of_none hi maxDepth 0
    | some i => exact run_zero hi maxDepth
  | succ fuel ih =>
    rw [runWithin, if_pos (hp _)]
    cases hi : m.fetch with
    | none => exact run_of_none hi maxDepth _
    | some i =>
      rw [run_succ hi]
      dsimp only
      cases m.step maxDepth i with
      | more m' => exact ih m'
      | done value s trace => rfl
      | stop e s trace => rfl

end Machine

/-- A program that has every function. -/
def Program.everything : Program := ⟨Array.replicate UInt32.size #[]⟩

theorem Program.has_everything (f : FuncId) : everything.has f = true := by
  unfold has everything
  rw [decide_eq_true_iff, Array.size_replicate]
  exact f.val.toNat_lt

namespace Executor

variable {e : Executor}

/-- Either executor runs as a machine does within some program. -/
theorem way_eq_runWithin (he : e.For s) : ∃ p, ∀ act (r : RunState), s.Extends r.store →
    r.store.WellFormed → act.Sound r.store → r.trace.mask.instr = false →
    e.way act r = Machine.runWithin p e.limits.maxCallDepth r.fuel (.entry act r) := by
  cases e with
  | machine limits =>
    exact ⟨.everything, fun act r _ _ _ _ =>
      Machine.run_eq_runWithin Program.has_everything _ _ _⟩
  | composed p limits =>
    obtain ⟨s₀, hs₀, hl, rfl⟩ := he
    exact ⟨.compose s₀, fun act r hst hr hact hq =>
      Program.evaluate_eq limits.maxCallDepth ((Program.from_of_leads hs₀ hl).mono hst) hr hact hq⟩

end Executor

/-! ### Entries -/

namespace Evaluation

/-- An entry of the base is prepared alike in both stores. -/
theorem prepareEntry_steady (h : base.Mirrors s t) {entry arg : Addr} (hentry : base.Holds entry)
    (harg : base.Holds arg) :
    Work.Steady base s t (Activation.Alike base s t) (prepareEntry entry arg s)
      (prepareEntry entry arg t) := by
  refine (Work.value_steady h (h.twins_of_base hentry)).bind_same ?_
  rintro v w ⟨hv, hvw⟩
  cases hvw with
  | function f hcaptures =>
    obtain ⟨-, -, body, hbody⟩ := h.left.valid' hv
    refine (Work.ask_steady h (h.body_answers hbody)).bind_same ?_
    rintro body _ ⟨rfl, -⟩
    refine (Work.unpack_steady h body.arity (h.twins_of_base harg)).bind_same fun _ _ hargs => ?_
    exact Work.prepare_steady h (h.twins_of_base hentry) hargs fun _ hid => by cases hid
  | _ => exact Work.mismatch_agree h rfl

theorem runEntry_abreast {e : Executor} (he : e.For base) (h : base.Mirrors s t) (fuel : Nat)
    {trace trace' : Trace} (hq : trace.mask.instr = false) (hq' : trace'.mask.instr = false)
    {entry arg : Addr} (hentry : base.Holds entry) (harg : base.Holds arg) :
    RunsAlike base (runEntry e.way entry arg ⟨s, fuel, trace⟩)
      (runEntry e.way entry arg ⟨t, fuel, trace'⟩) := by
  obtain ⟨p, hp⟩ := Executor.way_eq_runWithin he
  have hprepare := prepareEntry_steady h hentry harg
  have hsound := prepareEntry_ends h.left entry arg
  have hsound' := prepareEntry_ends h.right entry arg
  generalize hx : prepareEntry entry arg s = x at hprepare hsound
  generalize hy : prepareEntry entry arg t = y at hprepare hsound'
  cases hprepare with
  | left h =>
    subst h
    rw [runEntry_of_unready hx]
    exact .left rfl
  | right h =>
    subst h
    rw [runEntry_of_unready hy]
    exact .right rfl
  | error h =>
    rw [runEntry_of_unready hx, runEntry_of_unready hy]
    exact .error ⟨rfl, h.1, h.2.at none⟩
  | ok h =>
    obtain ⟨rfl, rfl, hact⟩ := h
    obtain ⟨-, hs, -⟩ := hsound
    obtain ⟨-, ht, -⟩ := hsound'
    rw [runEntry_of_ready hx, runEntry_of_ready hy]
    rw [hp _ ⟨_, fuel, trace⟩ h.grown h.left hs hq,
      hp _ ⟨_, fuel, trace'⟩ h.grown' h.right ht hq']
    exact Machine.runWithin_abreast p _ fuel ⟨h, .enter hact _ _, .nil⟩

end Evaluation

/-! ### Evaluations -/

/-- The program of an executor for a store was composed from a store that can be reached. -/
theorem Executor.For.composed {e : Executor} (h : e.For s) : e.Composed := by
  cases e with
  | machine limits => exact .machine limits
  | composed p limits =>
    obtain ⟨s₀, hs₀, -, rfl⟩ := h
    exact .composed hs₀ limits

/-- A store is mirrored by any store that comes of it, once both have the shape of the
outcomes of the entry. -/
theorem Store.WellFormed.mirrors_prepared (hs : s.WellFormed) (ht : t.WellFormed)
    (hst : s.Extends t) (entry : Addr) : s.Mirrors (s.prepared entry) (t.prepared entry) := by
  obtain ⟨shapes, heq⟩ := s.prepared_eq entry
  obtain ⟨hgrown, hleft⟩ := hs.prepared entry
  obtain ⟨hgrown', hright⟩ := ht.prepared entry
  have hvalue : ∀ a v, (s.prepared entry).value? a = some v → s.value? a = some v := by
    rw [heq]
    exact fun _ _ hv => hv
  refine ⟨hs, hleft, hright, hgrown, hst.trans hgrown', by rw [heq], fun a v hv =>
    hs.named a v (hvalue a v hv), fun a ⟨v, hv⟩ => ?_⟩
  obtain ⟨x, hx⟩ := hs.holds_iff_tree?.mp ⟨v, hvalue a v hv⟩
  exact ⟨a, x, tree?_mono hgrown hx, tree?_mono (hst.trans hgrown') hx⟩

namespace Executor

section Results
variable (e : Executor) (steps : Nat) (entry arg : Addr) (s : Store)

/-- The run of an evaluation with a budget of steps, before it is concluded. -/
def attemptWith : EStateM.Result Stop RunState Addr := e.attempt entry arg ⟨s, steps, .start .none⟩

/-- The store when the run of an evaluation ends, before it is concluded. -/
def made : Store := (e.attemptWith steps entry arg s).state.store

/-- What the outcome of an evaluation reads as, if there is one. -/
def outcome? : Option Outcome :=
  match e.evaluateWith steps entry arg s with
  | .ok a r => (Outcome.decode r.store a).toOption
  | .error _ _ => none

/-- The outcome of the evaluation reads as the payload. -/
def Succeeds (payload : Addr) : Prop := e.outcome? steps entry arg s = some (.ok payload)

/-- The run raises the fault at the site, and the outcome of the evaluation reads as the
report of it. -/
def Faults (f : Fault) (site : Option Site) : Prop :=
  (e.attemptWith steps entry arg s).answer = .error (.fault f site) ∧
    ∃ text, e.outcome? steps entry arg s = some (.err text) ∧
      (e.evaluateWith steps entry arg s).state.store.value? text = some (.text (f.report site))

/-- The evaluation has no outcome, for the reason. -/
def Fails (err : EvalError) : Prop := (e.evaluateWith steps entry arg s).answer = .error err

/-- The value is the outcome of the evaluation, or the text that it reads as. -/
def Concludes (c : Addr) : Prop :=
  (e.evaluateWith steps entry arg s).answer = .ok c ∨ e.outcome? steps entry arg s = some (.err c)

/-- The end of an evaluation tells how its run has ended. Only the outcome and the text of
a fault are new. -/
structure Concluded : Prop where
  fuel : (e.evaluateWith steps entry arg s).state.fuel =
    (e.attemptWith steps entry arg s).state.fuel
  grown : (e.made steps entry arg s).Extends (e.evaluateWith steps entry arg s).state.store
  created : ∀ c, (e.evaluateWith steps entry arg s).state.store.Holds c →
    (e.made steps entry arg s).Holds c ∨ e.Concludes steps entry arg s c
  succeeds : ∀ p, e.Succeeds steps entry arg s p ↔
    (e.attemptWith steps entry arg s).answer = .ok p
  faults : ∀ f site, e.Faults steps entry arg s f site ↔
    (e.attemptWith steps entry arg s).answer = .error (.fault f site)
  fails : ∀ err, e.Fails steps entry arg s err ↔
    (e.attemptWith steps entry arg s).answer = .error (.fatal err)

end Results

variable {e : Executor} {steps : Nat} {entry arg : Addr}

theorem outcome?_of_ok {a : Addr} {r : RunState} (hy : e.evaluateWith steps entry arg s = .ok a r)
    {o : Outcome} (hd : Outcome.decode r.store a = .ok o) :
    e.outcome? steps entry arg s = some o := by
  unfold outcome?
  rw [hy]
  dsimp only
  rw [hd]
  rfl

theorem outcome?_of_error {err : EvalError} {r : RunState}
    (hy : e.evaluateWith steps entry arg s = .error err r) :
    e.outcome? steps entry arg s = none := by
  unfold outcome?
  rw [hy]

/-- Unless the store is full, an evaluation is concluded. -/
theorem concluded (he : e.Composed) (hs : s.WellFormed)
    (hroom : ¬e.Fails steps entry arg s (.store .exhausted)) : e.Concluded steps entry arg s := by
  have hends := evaluate_tells he (r := ⟨s, steps, .start .none⟩) hs entry arg
  rw [← attemptWith] at hends
  change Ends (e.evaluateWith steps entry arg s) _ _ at hends
  cases hy : e.evaluateWith steps entry arg s with
  | error err u =>
    rw [hy] at hends
    have houtcome := outcome?_of_error hy
    rcases hends with ⟨hfuel, hfatal, hstore⟩ | ⟨rfl, -⟩
    · constructor
      · rw [hy]
        exact hfuel
      · rw [hy, made, ← hstore]
        exact .refl _
      · rw [hy, made, ← hstore]
        exact fun _ hc => .inl hc
      · simp [Succeeds, houtcome, hfatal]
      · simp [Faults, hfatal]
      · simp [Fails, hy, hfatal]
    · exact absurd (by rw [Fails, hy]; rfl) hroom
  | ok a u =>
    rw [hy] at hends
    obtain ⟨hfuel, hst, shape, hshape, htells⟩ := hends
    generalize hx : (e.attemptWith steps entry arg s).answer = x at htells
    cases htells with
    | @ok value hv hnew =>
      have houtcome := outcome?_of_ok hy (Outcome.decode_eq hv hshape)
      constructor
      · rw [hy]
        exact hfuel
      · rw [hy]
        exact hst
      · intro c hc
        rw [hy] at hc
        refine (hnew c hc).imp_right fun hc => .inl ?_
        rw [hy, hc, EStateM.Result.answer_ok]
      · simp [Succeeds, houtcome, hx]
      · simp [Faults, hx]
      · simp [Fails, hy, hx]
    | @fault f site text hv htext hnew =>
      have houtcome := outcome?_of_ok hy (Outcome.decode_eq hv hshape)
      constructor
      · rw [hy]
        exact hfuel
      · rw [hy]
        exact hst
      · intro c hc
        rw [hy] at hc
        refine (hnew c hc).imp_right ?_
        rintro (rfl | rfl)
        · exact .inr houtcome
        · exact .inl (by rw [hy, EStateM.Result.answer_ok])
      · simp [Succeeds, houtcome, hx]
      · intro f' site'
        rw [hx]
        refine ⟨fun hf => hx.symm.trans hf.1, ?_⟩
        rintro ⟨⟩
        refine ⟨hx, text, houtcome, ?_⟩
        rw [hy]
        exact htext
      · simp [Fails, hy, hx]

theorem attempt_abreast (hs : s.WellFormed) (ht : t.WellFormed) (hst : s.Extends t)
    (he : e.For s) (hentry : s.Holds entry) (harg : s.Holds arg) :
    RunsAlike s (e.attemptWith steps entry arg s) (e.attemptWith steps entry arg t) := by
  have hquiet : ((Trace.start .none).emit (.runStart entry arg)).mask.instr = false := by
    rw [Trace.emit_mask]
    rfl
  exact Evaluation.runEntry_abreast he (hs.mirrors_prepared ht hst entry) steps hquiet hquiet hentry
    harg

/-- **An evaluation does not depend on what else is in the store.** Let the second store
come from the first by any operations, and let neither evaluation run out of room. Then
both leave the same fuel, and a renaming, which leaves the places of the first store as
they are, takes what the one run has made to the same values in the store that the other
leaves: of all that the first evaluation leaves only the outcome and the text of a fault
are not renamed. One evaluation succeeds with a payload just when the other succeeds with
the renamed payload; one faults just when the other raises the same fault, renamed, at the
same site; and one fails just when the other fails for the same reason. -/
theorem independent (hs : Reachable s) (hl : Leads s t) (he : e.For s) (steps : Nat)
    (hentry : s.Holds entry) (harg : s.Holds arg)
    (hroom : ¬e.Fails steps entry arg s (.store .exhausted))
    (hroom' : ¬e.Fails steps entry arg t (.store .exhausted)) :
    (e.evaluateWith steps entry arg s).state.fuel =
      (e.evaluateWith steps entry arg t).state.fuel ∧
    (∀ c, (e.evaluateWith steps entry arg s).state.store.Holds c →
      (e.made steps entry arg s).Holds c ∨ e.Concludes steps entry arg s c) ∧
    ∃ r, Renaming s (e.made steps entry arg s) (e.evaluateWith steps entry arg t).state.store r ∧
      (∀ p, e.Succeeds steps entry arg s p → (e.made steps entry arg s).Holds p) ∧
      (∀ q, e.Succeeds steps entry arg t q ↔ ∃ p, e.Succeeds steps entry arg s p ∧ q = r p) ∧
      (∀ f site, e.Faults steps entry arg s f site →
        ∀ a ∈ f.places, (e.made steps entry arg s).Holds a) ∧
      (∀ g site, e.Faults steps entry arg t g site ↔
        ∃ f, e.Faults steps entry arg s f site ∧ g = f.rename r) ∧
      ∀ err, e.Fails steps entry arg s err ↔ e.Fails steps entry arg t err := by
  have hsw := hs.wellFormed
  obtain ⟨hst, htw⟩ := hl.grows hsw
  have hc := concluded he.composed hsw hroom
  have hc' := concluded he.composed htw hroom'
  have hruns : RunsAlike s (e.attemptWith steps entry arg s) (e.attemptWith steps entry arg t) :=
    attempt_abreast hsw htw hst he hentry harg
  obtain ⟨hfuel, hm, hends⟩ := hruns.ends (fun h => hroom ((hc.fails _).mpr h))
    fun h => hroom' ((hc'.fails _).mpr h)
  obtain ⟨r, hr, htwin⟩ := hm.renaming
  refine ⟨by rw [hc.fuel, hc'.fuel, hfuel], hc.created, r, hr.mono hc'.grown, ?_⟩
  simp only [hc.succeeds, hc'.succeeds, hc.faults, hc'.faults, hc.fails, hc'.fails]
  have hheld {a b : Addr} (hab : Twins (e.attemptWith steps entry arg s).state.store
      (e.attemptWith steps entry arg t).state.store a b) : (e.made steps entry arg s).Holds a :=
    hab.symm.holds hm.left
  generalize (e.attemptWith steps entry arg s).answer = x at hends
  generalize (e.attemptWith steps entry arg t).answer = y at hends
  cases hends with
  | ok hab =>
    rw [htwin _ _ hab]
    refine ⟨?_, ?_, ?_, ?_, ?_⟩
    · rintro p ⟨⟩
      exact hheld hab
    · simp [eq_comm]
    · simp
    · simp
    · simp
  | error hstop =>
    cases hstop with
    | fault hf site =>
      rw [hf.eq_rename htwin]
      refine ⟨?_, ?_, ?_, ?_, ?_⟩
      · simp
      · simp
      · rintro _ _ ⟨⟩
        exact ((List.forall₂_and_left _ _).mp (hf.places.imp fun _ _ hab => ⟨hheld hab, hab⟩)).1
      · intro g site'
        constructor
        · rintro ⟨⟩
          exact ⟨_, rfl, rfl⟩
        · rintro ⟨_, ⟨⟩, rfl⟩
          rfl
      · simp
    | fatal err => simp

/-- The relay is run on the store that it was registered in, and on the one that has the
shape of its outcomes as well. -/
theorem independent_relay : ∃ r : Addr → Addr, r Addr.unit = Addr.unit ∧
    ((machine .standard).evaluateWith 100 ⟨5⟩ Addr.unit .withRelay).state.fuel =
      ((machine .standard).evaluateWith 100 ⟨5⟩ Addr.unit .withRelayOutcome).state.fuel ∧
    ∀ q, (machine .standard).Succeeds 100 ⟨5⟩ Addr.unit .withRelayOutcome q ↔
      ∃ p, (machine .standard).Succeeds 100 ⟨5⟩ Addr.unit .withRelay p ∧ q = r p := by
  have hl : Leads .withRelay .withRelayOutcome := Store.outcomeShape_relay ▸ .step _ .refl
  have hroom {s : Store} (hs : Outcome.shape (s.resultShape ⟨5⟩) s = .ok ⟨5⟩ .withRelayOutcome) :
      ¬(machine .standard).Fails 100 ⟨5⟩ Addr.unit s (.store .exhausted) := by
    obtain ⟨a, r, heval⟩ := evaluate_relay hs
    rw [Fails, heval]
    exact fun h => by cases h
  obtain ⟨hfuel, -, r, hr, -, hsucceeds, -⟩ := independent (e := machine .standard) .withRelay hl
    trivial 100 ⟨_, rfl⟩ ⟨_, rfl⟩ (hroom Store.shape_relay) (hroom Store.shape_relayOutcome)
  exact ⟨r, hr.fixed _ ⟨_, rfl⟩, hfuel, hsucceeds⟩

end Executor

end ValueMachine
