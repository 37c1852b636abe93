import ValueMachine.Proofs.Eval.Nesting
import ValueMachine.Proofs.Eval.Protocol

/-! What a whole evaluation tells.

It tells that it starts, then what the run of the entry tells, then how it ends (`Account`).
From what is known of the run this gives an account of the evaluation, by the machine and by
composed code. The two accounts have the same calls. These nest, so they determine which
scopes are left open: the same for both, none if the run returns a value, and otherwise those
of the live frames (`Executor.call_traces`). -/
namespace ValueMachine

variable {events events' : List TraceEvent}

/-- Everything is wanted. -/
def TraceMask.all : TraceMask := ⟨true, true, true⟩

theorem TraceMask.all_wants (e : TraceEvent) : all.wants e = true := by
  cases e <;> rfl

/-- The whole of what an evaluation tells: that it starts, then these events, of which so much
holds, and how it ends. Nothing is live at the end if that is a value. -/
structure Account {ε α : Type} (Q : List TraceEvent → List Scope → Prop) (entry arg : Addr)
    (t : Trace) (x : EStateM.Result ε RunState α) (events : List TraceEvent) (last : TraceEvent)
    (live : List Scope) : Prop where
  told : x.state.trace = t.tell (.runStart entry arg :: (events ++ [last]))
  between : Q events live
  ends : last.isEnd = true
  returned : ∀ outcome, last = .runOk outcome → live = []

namespace Evaluation

variable {Q : List TraceEvent → List Scope → Prop} {way : Activation → Exec Addr}
  {live : Activation → RunState → List Scope}

/-- The scopes that are live when the run of an entry ends, if those are known for its
activation. -/
def entryLive (live : Activation → RunState → List Scope) (entry arg : Addr) :
    RunState → List Scope
  | ⟨store, fuel, trace⟩ =>
    match prepareEntry entry arg store with
    | .error _ _ => []
    | .ok act store => live act ⟨store, fuel, trace⟩

/-- The same for an evaluation. -/
def liveAt (live : Activation → RunState → List Scope) (entry arg : Addr) :
    RunState → List Scope
  | ⟨store, fuel, trace⟩ =>
    match Outcome.shape (store.resultShape entry) store with
    | .error _ _ => []
    | .ok _ store => entryLive live entry arg ⟨store, fuel, trace.emit (.runStart entry arg)⟩

theorem runEntry_tells (hnil : Q [] [])
    (hw : ∀ act r, Tells Q r.trace (way act r) (live act r)) (entry arg : Addr) (r : RunState) :
    Tells Q r.trace (runEntry way entry arg r) (entryLive live entry arg r) := by
  obtain ⟨store, fuel, trace⟩ := r
  unfold entryLive
  dsimp only
  cases hp : prepareEntry entry arg store with
  | error h t =>
    rw [runEntry_of_unready hp]
    exact ⟨⟨[], rfl, hnil⟩, fun _ _ h => by cases h⟩
  | ok act t =>
    rw [runEntry_of_ready hp]
    exact hw act ⟨t, fuel, trace⟩

theorem endEvent_isEnd (s : Store) (outcome : Addr) (fault : Option Fault) :
    (endEvent s outcome fault).isEnd = true := by
  unfold endEvent
  split
  · rfl
  · split <;> rfl

/-- Only a value is told of as one. -/
theorem ok_of_endEvent_eq {shape : ShapeId} {result : Except Stop Addr} {s t : Store}
    {outcome a : Addr} {fault : Option Fault}
    (h : outcomeOf shape result s = .ok (outcome, fault) t)
    (hlast : endEvent t outcome fault = .runOk a) : ∃ value, result = .ok value := by
  cases result with
  | ok value => exact ⟨value, rfl⟩
  | error stop =>
    cases stop with
    | fatal e => cases h
    | fault f site =>
      obtain ⟨text, u, -, h⟩ := run_bind_eq_ok_iff.mp h
      obtain ⟨outcome', v, -, h⟩ := run_bind_eq_ok_iff.mp h
      cases h
      unfold endEvent at hlast
      dsimp only at hlast
      split at hlast <;> cases hlast

/-- The end of an evaluation is told of once. -/
theorem settle_last (shape : ShapeId) (result : Except Stop Addr) (r : RunState) :
    ∃ last : TraceEvent, (settle shape result r).state.trace = r.trace.emit last ∧
      last.isEnd = true ∧ ∀ outcome, last = .runOk outcome → ∃ value, result = .ok value := by
  obtain ⟨store, fuel, trace⟩ := r
  cases hout : outcomeOf shape result store with
  | error e t =>
    rw [settle_of_error hout]
    exact ⟨.runFatal, rfl, rfl, fun _ h => by cases h⟩
  | ok out t =>
    rw [settle_of_ok hout]
    exact ⟨endEvent t out.1 out.2, rfl, endEvent_isEnd t out.1 out.2,
      fun _ h => ok_of_endEvent_eq hout h⟩

/-- What an evaluation tells, if it is known what the run of an activation tells. -/
theorem conduct_account (hnil : Q [] [])
    (hw : ∀ act r, Tells Q r.trace (way act r) (live act r)) (entry arg : Addr) (r : RunState) :
    ∃ events last, Account Q entry arg r.trace (conduct way entry arg r) events last
      (liveAt live entry arg r) := by
  obtain ⟨store, fuel, trace⟩ := r
  unfold liveAt
  dsimp only
  cases hshape : Outcome.shape (store.resultShape entry) store with
  | error e t =>
    refine ⟨[], .runFatal, ?_, hnil, rfl, fun _ h => by cases h⟩
    rw [conduct_of_no_shape hshape]
    rfl
  | ok shape t =>
    rw [conduct_of_shape hshape rfl]
    dsimp only
    let r : RunState := ⟨t, fuel, trace.emit (.runStart entry arg)⟩
    have hrun := runEntry_tells hnil hw entry arg r
    obtain ⟨events, hevents, hbetween⟩ := hrun.told
    obtain ⟨last, hlast, hends, hok⟩ := settle_last shape (runEntry way entry arg r).answer
      (runEntry way entry arg r).state
    refine ⟨events, last, ?_, hbetween, hends, fun outcome h => ?_⟩
    · rw [hlast, hevents, Trace.tell_cons, Trace.tell_append]
      rfl
    · obtain ⟨value, hvalue⟩ := hok outcome h
      cases hx : runEntry way entry arg r with
      | ok value u => exact hrun.returned value u hx
      | error stop u =>
        rw [hx] at hvalue
        cases hvalue

end Evaluation

namespace Account

variable {ε ε' α α' : Type} {Q Q' : List TraceEvent → List Scope → Prop} {entry arg : Addr}
  {mask mask' : TraceMask} {x : EStateM.Result ε RunState α} {x' : EStateM.Result ε' RunState α'}
  {last last' : TraceEvent} {live live' : List Scope}

/-- All but the instructions of what a whole evaluation tells. -/
theorem calls (h : Account Q entry arg (.start mask) x events last live)
    (hmask : mask.WantsCalls) :
    x.state.trace.calls =
      .runStart entry arg :: ((events.filter fun e => !e.isInstr) ++ [last]) := by
  have hlast := TraceEvent.isInstr_of_isEnd h.ends
  rw [h.told, Trace.calls_tell _ hmask, List.filter_cons_of_pos rfl, List.filter_append,
    List.filter_cons_of_pos (by rw [hlast]; rfl)]
  rfl

/-- All that is told if everything is wanted. -/
theorem toList (h : Account Q entry arg (.start .all) x events last live) :
    x.state.trace.events.toList = .runStart entry arg :: (events ++ [last]) := by
  rw [h.told, Trace.toList_tell]
  exact List.filter_eq_self.mpr fun e _ => TraceMask.all_wants e

/-- If two evaluations tell of the same calls, so do their accounts. -/
theorem calls_unique (h : Account Q entry arg (.start mask) x events last live)
    (hmask : mask.WantsCalls) (h' : Account Q' entry arg (.start mask') x' events' last' live')
    (hmask' : mask'.WantsCalls) (hcalls : x.state.trace.calls = x'.state.trace.calls) :
    (events.filter fun e => !e.isInstr) = (events'.filter fun e => !e.isInstr) ∧ last = last' := by
  rw [h.calls hmask, h'.calls hmask', List.cons_inj_right] at hcalls
  obtain ⟨hevents, hlast⟩ := List.append_inj' hcalls rfl
  exact ⟨hevents, List.singleton_inj.mp hlast⟩

end Account

namespace Executor

/-- The scopes of the frames that are live when the run of an activation ends. -/
def liveIn : Executor → Activation → RunState → List Scope
  | machine limits, act, r => Machine.live limits.maxCallDepth r.fuel (.entry act r)
  | composed program limits, act, r => Exec.frameLive program (limits.maxCallDepth - 1) 1 act r

/-- The scopes of the frames that are live when the run of an entry ends. -/
def live (e : Executor) (entry arg : Addr) (mask : TraceMask) (s : Store) : List Scope :=
  Evaluation.liveAt e.liveIn entry arg ⟨s, e.limits.steps, .start mask⟩

theorem account {Q : List TraceEvent → List Scope → Prop} (e : Executor) (hnil : Q [] [])
    (hw : ∀ act r, Tells Q r.trace (e.way act r) (e.liveIn act r)) (entry arg : Addr)
    (mask : TraceMask) (s : Store) :
    ∃ events last, Account Q entry arg (.start mask) (e.run entry arg mask s) events last
      (e.live entry arg mask s) :=
  Evaluation.conduct_account hnil hw entry arg ⟨s, e.limits.steps, .start mask⟩

theorem machine_account (limits : Limits) (entry arg : Addr) (mask : TraceMask) (s : Store) :
    ∃ events last, Account (Paces (max 1 limits.maxCallDepth)) entry arg (.start mask)
      ((machine limits).run entry arg mask s) events last
      ((machine limits).live entry arg mask s) :=
  (machine limits).account .nil (Machine.evaluate_tells (Nat.le_max_right 1 _)) entry arg mask s

theorem composed_account (p : Program) (limits : Limits) (entry arg : Addr) (mask : TraceMask)
    (s : Store) :
    ∃ events last, Account (Nests (max 1 limits.maxCallDepth) []) entry arg (.start mask)
      ((composed p limits).run entry arg mask s) events last
      ((composed p limits).live entry arg mask s) := by
  refine (composed p limits).account (.nil []) (fun act r => ?_) entry arg mask s
  have hroom : ([] : List Scope).length + 1 + (limits.maxCallDepth - 1) ≤
      max 1 limits.maxCallDepth := by
    rw [List.length_nil]
    omega
  have h := Exec.runFrame_leaves p (limits.maxCallDepth - 1) [] hroom act r
  simp only [Exec.Leaves, List.append_nil] at h
  exact h

/-- What is told of the calls of an evaluation, by a machine and by the code that is composed
from its store. -/
structure CallTrace (limits : Limits) (entry arg : Addr) (mask : TraceMask) (s : Store)
    (calls : List TraceEvent) (last : TraceEvent) (live : List Scope) : Prop where
  machine : ((machine limits).run entry arg mask s).state.trace.calls =
    .runStart entry arg :: (calls ++ [last])
  composed : ((composed (.compose s) limits).run entry arg mask s).state.trace.calls =
    .runStart entry arg :: (calls ++ [last])
  /-- Between the start and the end there are calls only. -/
  between : ∀ e ∈ calls, e.isCall = true
  ends : last.isEnd = true
  nests : Nests (max 1 limits.maxCallDepth) [] calls live
  machineLive : (Executor.machine limits).live entry arg mask s = live
  composedLive : (Executor.composed (.compose s) limits).live entry arg mask s = live
  /-- No scope is open at the end of a run that returns a value. -/
  returned : ∀ outcome, last = .runOk outcome → live = []
  /-- The calls are among what the machine does if it tells of everything. -/
  paces : ∃ events, Paces (max 1 limits.maxCallDepth) events live ∧
    ((Executor.machine limits).run entry arg .all s).state.trace.events.toList =
      .runStart entry arg :: (events ++ [last]) ∧
    calls = events.filter fun e => !e.isInstr

variable {s : Store}

/-- **Both executors tell of the same calls, which nest.** -/
theorem call_traces (hs : Reachable s) (limits : Limits) (entry arg : Addr) {mask : TraceMask}
    (h : mask.WantsCalls) :
    ∃ calls last live, CallTrace limits entry arg mask s calls last live := by
  have hall : TraceMask.all.WantsCalls := ⟨rfl, rfl⟩
  obtain ⟨calls, last, hcomposed⟩ := composed_account (.compose s) limits entry arg mask s
  obtain ⟨events, last', hmachine⟩ := machine_account limits entry arg mask s
  obtain ⟨events', last'', hfull⟩ := machine_account limits entry arg .all s
  have hagree := calls_eq hs limits entry arg h
  have hcalls := hcomposed.calls h
  -- The three runs tell of the same calls, which determine what each of them leaves open.
  obtain ⟨hevents, rfl⟩ := hcomposed.calls_unique h hmachine h hagree.symm
  obtain ⟨hevents', rfl⟩ := hmachine.calls_unique h hfull hall (calls_of_masks _ entry arg h hall s)
  have hnests := hcomposed.between
  have hmachineNests := hmachine.between.nests (Nat.le_max_left ..)
  have hfullNests := hfull.between.nests (Nat.le_max_left ..)
  rw [hnests.filter_eq] at hcalls hevents
  rw [← hevents', ← hevents] at hfullNests
  rw [← hevents] at hmachineNests
  exact ⟨calls, last, (composed (.compose s) limits).live entry arg mask s, {
    machine := hagree.trans hcalls
    composed := hcalls
    between := hnests.isCall
    ends := hcomposed.ends
    nests := hnests
    machineLive := hmachineNests.left_unique hnests
    composedLive := rfl
    returned := hcomposed.returned
    paces := ⟨events', hfullNests.left_unique hnests ▸ hfull.between, hfull.toList,
      hevents.trans hevents'⟩ }⟩

/-- The scopes of the relay. The function that it calls is left for the one which takes its
place, at the same depth. -/
def relayScopes : List TraceEvent :=
  [.enter (.frame ⟨2⟩) 1, .enter (.frame ⟨1⟩) 2, .exit (.frame ⟨1⟩) 2, .enter (.frame ⟨0⟩) 2,
    .exit (.frame ⟨0⟩) 2, .exit (.frame ⟨2⟩) 1]

theorem call_traces_relay :
    (⟨true, false, true⟩ : TraceMask).WantsCalls ∧ ∃ outcome,
      CallTrace ⟨100, 2⟩ ⟨5⟩ Addr.unit ⟨true, false, true⟩ .withRelay relayScopes
        (.runOk outcome) [] := by
  have hmask : (⟨true, false, true⟩ : TraceMask).WantsCalls := ⟨rfl, rfl⟩
  obtain ⟨calls, last, live, h⟩ := call_traces Reachable.withRelay ⟨100, 2⟩ ⟨5⟩ Addr.unit hmask
  have hrun : Evaluation.runEntry (machine ⟨100, 2⟩).way ⟨5⟩ Addr.unit ⟨.withRelayOutcome, 100,
      (Trace.start ⟨true, false, true⟩).emit (.runStart ⟨5⟩ Addr.unit)⟩ =
        .ok Addr.unit ⟨.withRelayOutcome, 93,
          ⟨⟨true, false, true⟩, (.runStart ⟨5⟩ Addr.unit :: relayScopes).toArray⟩⟩ := rfl
  obtain ⟨a, t, ht⟩ := settle_relay 93
    ⟨⟨true, false, true⟩, (.runStart ⟨5⟩ Addr.unit :: relayScopes).toArray⟩
  have heval : (machine ⟨100, 2⟩).run ⟨5⟩ Addr.unit ⟨true, false, true⟩ .withRelay = .ok a _ :=
    (Evaluation.conduct_of_shape Store.shape_relay hrun).trans ht
  have htold := h.machine
  rw [heval] at htold
  have hcalls : relayScopes ++ [.runOk a] = calls ++ [last] := (List.cons.inj htold).2
  obtain ⟨rfl, hlast⟩ := List.append_inj' hcalls rfl
  cases hlast
  obtain rfl := h.returned a rfl
  exact ⟨hmask, a, h⟩

end Executor

end ValueMachine
