import ValueMachine.Proofs.Eval.Fuel
import ValueMachine.Proofs.Eval.Gains

/-! What a budget of steps lets an evaluation write.

An evaluation adds the shape of its outcome, what its run adds, and what is told of the end
of the run: an outcome, and before it the report of a fault. A run pays for each value that
it adds (`RunState.PaysFor`), so the budget of steps bounds what is written, too
(`Executor.writes_within_budget`). Only the report of an entry that is refused may be written
without a step, and this only to the last place of a store (`Executor.exceeds_budget_iff`). -/
namespace ValueMachine

variable {α : Type} {s t : Store}

/-! ### Outcomes -/

/-- The number of values that are added to tell what a run has ended with. -/
def Evaluation.told : Except Stop Addr → Nat
  | .ok _ => 1
  | .error (.fault _ _) => 2
  | .error (.fatal _) => 0

theorem RunState.PaysFor.answer {r : RunState} {x : EStateM.Result Stop RunState Addr}
    (h : r.PaysFor x) : r.Pays (Evaluation.told x.answer - 1) x.state := by
  cases x with
  | ok value r' => exact h
  | error stop r' => cases stop <;> exact h

theorem Executor.way_pays {e : Executor} (he : e.Composed) {act : Activation} {r : RunState}
    (hr : r.store.WellFormed) (hact : act.Sound r.store) : r.PaysFor (e.way act r) := by
  cases he with
  | machine limits =>
    exact Machine.run_pays (Machine.sound_entry hr hact) limits.maxCallDepth r.fuel
  | composed hbase limits =>
    exact Exec.runFrame_pays hbase.wellFormed (Program.from_compose _) _ 1 act r

namespace Evaluation

theorem lift_addsOne {op : StoreM α} (h : Store.AddsOne op) :
    Store.AddsOne (liftM op : EStateM EvalError Store α) := fun s => lift_ends (h s)

/-- What is told of a result is added; if it cannot all be told, less is. -/
theorem outcomeOf_gains (shape : ShapeId) (x : Except Stop Addr) (s : Store) :
    Ends (outcomeOf shape x s) (fun _ t => s.Gains (told x) t) fun _ t => s.Gains (told x - 1) t := by
  have hmake (v : Value) (ha : v.isAbstract = true) :
      Store.AddsOne (liftM (Store.intern v) : EStateM EvalError Store Addr) :=
    lift_addsOne (Store.intern_addsOne ha)
  cases x with
  | ok value => exact Ends.bind (hmake (.cotuple shape 0 value) rfl s)
  | error stop =>
    cases stop with
    | fatal err => exact .refl s 0
    | fault f site =>
      refine Ends.bind ((hmake (.text (f.report site)) rfl s).imp (fun text t ht => ?_)
        fun _ _ ht => ht.mono (Nat.zero_le 1))
      exact Ends.bind ((hmake (.cotuple shape 1 text) rfl t).imp (fun _ _ hu => ht.trans hu)
        fun _ _ hu => ht.trans hu)

theorem settle_gains (shape : ShapeId) (x : Except Stop Addr) (r : RunState) :
    Ends (settle shape x r) (fun _ r' => r.store.Gains (told x) r'.store)
      fun _ r' => r.store.Gains (told x - 1) r'.store :=
  settle_ends (outcomeOf_gains shape x r.store)

/-- If a report is added and no outcome, the report has taken the last place. -/
theorem outcomeOf_unreported (h : s.WellFormed) {shape result : ShapeId}
    (hs : s.shape? shape = some (.cotuple #[result, ShapeId.text])) (f : Fault)
    (site : Option Site) :
    Ends (outcomeOf shape (.error (.fault f site)) s) (fun _ _ => True) fun _ t =>
      t = s ∨ t = { s with values := s.values.insert (.text (f.report site)) } ∧
        Store.maxValues ≤ t.size := by
  have hadds := Store.intern_adds (v := .text (f.report site)) rfl s
  have hends := Store.intern_ends h (v := .text (f.report site)) rfl
  have hgrows := Store.intern_grows (.text (f.report site)) s h
  refine Ends.bind ?_
  show Ends ((liftM (Store.intern (.text (f.report site))) : EStateM EvalError Store Addr) s) _ _
  rw [lift_eq]
  cases hi : Store.intern (.text (f.report site)) s with
  | error e t => exact .inl (hadds.of_error hi)
  | ok text t =>
    rw [hi] at hgrows
    obtain ⟨hst, ht⟩ := hgrows
    have hvalid : t.Valid (.cotuple shape 1 text) :=
      cotuple_valid (hst.shape? hs) rfl (text_fits ht (hends.of_ok hi))
    have hcotuple := Store.intern_valid ht rfl hvalid
    refine Ends.bind ?_
    show Ends ((liftM (Store.intern (.cotuple shape 1 text)) : EStateM EvalError Store Addr) t) _ _
    rw [lift_eq]
    cases hc : Store.intern (.cotuple shape 1 text) t with
    | ok a u => trivial
    | error e u =>
      obtain ⟨rfl, -, hfull⟩ := hcotuple.of_error hc
      exact (hadds.of_ok hi).imp_right fun hu => ⟨hu, hfull⟩

theorem settle_unreported {r : RunState} (h : r.store.WellFormed) {shape result : ShapeId}
    (hs : r.store.shape? shape = some (.cotuple #[result, ShapeId.text])) (f : Fault)
    (site : Option Site) :
    Ends (settle shape (.error (.fault f site)) r) (fun _ _ => True) fun _ r' =>
      r'.fuel = r.fuel ∧ (r'.store = r.store ∨
        r'.store = { r.store with values := r.store.values.insert (.text (f.report site)) } ∧
          Store.maxValues ≤ r'.store.size) :=
  settle_ends ((outcomeOf_unreported h hs f site).imp (fun _ _ hout => hout)
    fun _ _ hout => ⟨rfl, hout⟩)

/-- The entry is refused, or the run pays for what it adds. -/
theorem runEntry_pays {e : Executor} (he : e.Composed) {r : RunState} (hr : r.store.WellFormed)
    (entry arg : Addr) :
    (∃ f, prepareEntry entry arg r.store = .error (.fault f) r.store ∧
      runEntry e.way entry arg r = .error (.fault f none) r) ∨
      r.PaysFor (runEntry e.way entry arg r) := by
  obtain ⟨store, fuel, trace⟩ := r
  dsimp only
  cases hp : prepareEntry entry arg store with
  | error h t =>
    rw [runEntry_of_unready hp]
    have ht : store = t := (prepareEntry_follows entry arg).of_error hp
    subst ht
    cases h with
    | fault f => exact .inl ⟨f, rfl, rfl⟩
    | fatal err => exact .inr (.refl _)
  | ok act t =>
    rw [runEntry_of_ready hp]
    obtain ⟨rfl, hact, -⟩ := (prepareEntry_ends hr entry arg).of_ok hp
    exact .inr (Executor.way_pays he (r := ⟨_, fuel, trace⟩) hr hact)

end Evaluation

/-- Interning a shape adds it, unless it is there. -/
theorem Store.shape_adds (x : Shape) (s : Store) :
    Ends (shape x s) (fun _ t => t = s ∨ t = { s with shapes := s.shapes.insert x })
      fun _ t => t = s := by
  unfold shape
  split
  · exact .inl rfl
  · split
    · rfl
    · dsimp only
      split
      · exact .inr rfl
      · rfl

theorem Store.prepared_adds (s : Store) (entry : Addr) :
    s.prepared entry = s ∨ s.prepared entry =
      { s with shapes := s.shapes.insert (.cotuple #[s.resultShape entry, ShapeId.text]) } := by
  have hadds := shape_adds (.cotuple #[s.resultShape entry, ShapeId.text]) s
  unfold prepared Outcome.shape
  cases hx : shape (.cotuple #[s.resultShape entry, ShapeId.text]) s with
  | ok id t => exact hadds.of_ok hx
  | error err t => exact .inl (hadds.of_error hx)

/-- With the shape of the outcome an evaluation gains nothing else. -/
theorem Store.Gains.of_prepared {entry : Addr} {n : Nat} (h : (s.prepared entry).Gains n t) :
    t.functions = s.functions ∧
      (t.shapes = s.shapes ∨
        t.shapes = s.shapes.insert (.cotuple #[s.resultShape entry, ShapeId.text])) ∧
      ∃ vs, t.values.toList = s.values.toList ++ vs ∧ vs.length ≤ n ∧
        ∀ v ∈ vs, v.isAbstract = true := by
  obtain ⟨hf, hs, hv⟩ := h
  rcases s.prepared_adds entry with hp | hp
  · rw [hp] at hf hs hv
    exact ⟨hf, .inl hs, hv⟩
  · rw [hp] at hf hs hv
    exact ⟨hf, .inr hs, hv⟩

/-- The outcome tells how the run has ended. -/
theorem Outcome.Tells.decode {shape result : ShapeId} {a : Addr} {x : Except Stop Addr}
    (h : Tells s t shape a x) (hs : t.shape? shape = some (.cotuple #[result, ShapeId.text])) :
    (∃ payload, decode t a = .ok (.ok payload) ∧ Evaluation.told x = 1) ∨
      ∃ text, decode t a = .ok (.err text) ∧ Evaluation.told x = 2 := by
  cases h with
  | ok hv => exact .inl ⟨_, decode_eq hv hs, rfl⟩
  | fault hv htext => exact .inr ⟨_, decode_eq hv hs, rfl⟩

namespace Executor

variable {e : Executor}

/-- The state that an evaluation is run from, once the shape of the outcome is there. -/
def attemptFrom (entry arg : Addr) (r : RunState) : RunState :=
  ⟨r.store.prepared entry, r.fuel, r.trace.emit (.runStart entry arg)⟩

/-- Once the shape of the outcome is there, the run is made and its result is settled. -/
theorem evaluate_of_shape {shape : ShapeId} {entry : Addr} {r : RunState}
    (hx : Outcome.shape (r.store.resultShape entry) r.store = .ok shape t) (arg : Addr) :
    e.evaluate entry arg r =
      Evaluation.settle shape (e.attempt entry arg r).answer (e.attempt entry arg r).state := by
  have ht : r.store.prepared entry = t := congrArg EStateM.Result.state hx
  subst ht
  exact Evaluation.conduct_of_shape hx rfl

/-- Otherwise nothing is done. -/
theorem evaluate_of_no_shape {entry : Addr} {r : RunState} {err : StoreError}
    (hx : Outcome.shape (r.store.resultShape entry) r.store = .error err t) (arg : Addr) :
    ∃ trace, e.evaluate entry arg r =
      .error (.store err) ⟨r.store.prepared entry, r.fuel, trace⟩ := by
  have ht : r.store.prepared entry = t := congrArg EStateM.Result.state hx
  subst ht
  exact ⟨_, Evaluation.conduct_of_no_shape hx⟩

theorem attempt_pays (he : e.Composed) {r : RunState} (hr : r.store.WellFormed) (entry arg : Addr) :
    (∃ f, Evaluation.prepareEntry entry arg (r.store.prepared entry) =
        .error (.fault f) (r.store.prepared entry) ∧
      e.attempt entry arg r = .error (.fault f none) (attemptFrom entry arg r)) ∨
      (attemptFrom entry arg r).PaysFor (e.attempt entry arg r) :=
  Evaluation.runEntry_pays he (r := attemptFrom entry arg r) (hr.prepared entry).2 entry arg

/-- The entry is refused when the store has one place left. The report of this takes it, and
there is none for the outcome. -/
def Unreported (s : Store) (entry arg : Addr) (t : Store) : Prop :=
  ∃ f, Evaluation.prepareEntry entry arg s = .error (.fault f) s ∧
    t = { s with values := s.values.insert (.text (f.report none)) } ∧ Store.maxValues ≤ t.size

theorem Unreported.gains {entry arg : Addr} (h : Unreported s entry arg t) : s.Gains 1 t := by
  obtain ⟨f, -, rfl, -⟩ := h
  exact .insert rfl

/-- An evaluation that runs its entry adds no more values than it takes steps, and what is
told of the end. If this cannot be told, the step that ended the run makes up for it. -/
theorem settle_pays {shape : ShapeId} {r : RunState} {x : EStateM.Result Stop RunState Addr}
    (h : r.PaysFor x) :
    Ends (Evaluation.settle shape x.answer x.state)
      (fun _ r' => r.store.Gains (r.fuel - r'.fuel + Evaluation.told x.answer) r'.store)
      fun _ r' => r.store.Gains (r.fuel - r'.fuel) r'.store := by
  obtain ⟨n, hgains, hfuel⟩ := h.answer
  have hsettle := Evaluation.settle_gains shape x.answer x.state
  have hleft := Evaluation.settle_fuel shape x.answer x.state
  cases hv : Evaluation.settle shape x.answer x.state with
  | ok a r' =>
    rw [hv, EStateM.Result.state_ok] at hleft
    exact (hgains.trans (hsettle.of_ok hv)).mono (by omega)
  | error err r' =>
    rw [hv, EStateM.Result.state_error] at hleft
    exact (hgains.trans (hsettle.of_error hv)).mono (by omega)

/-- What is told of an entry that is refused is not paid for. -/
theorem settle_refused {r : RunState} (h : r.store.WellFormed) {shape result : ShapeId}
    (hs : r.store.shape? shape = some (.cotuple #[result, ShapeId.text])) {entry arg : Addr}
    {f : Fault} (hf : Evaluation.prepareEntry entry arg r.store = .error (.fault f) r.store) :
    Ends (Evaluation.settle shape (.error (.fault f none)) r)
      (fun _ r' => r.store.Gains
        (r.fuel - r'.fuel + Evaluation.told (.error (.fault f none))) r'.store)
      fun _ r' => r.store.Gains (r.fuel - r'.fuel) r'.store ∨
        r'.fuel = r.fuel ∧ Unreported r.store entry arg r'.store := by
  have hgains := Evaluation.settle_gains shape (.error (.fault f none)) r
  have hreport := Evaluation.settle_unreported h hs f none
  cases hv : Evaluation.settle shape (.error (.fault f none)) r with
  | ok a r' => exact (hgains.of_ok hv).mono (Nat.le_add_left _ _)
  | error err r' =>
    obtain ⟨hfuel, heq | ⟨heq, hfull⟩⟩ := hreport.of_error hv
    · left
      rw [heq]
      exact .refl _ _
    · right
      exact ⟨hfuel, f, hf, heq, hfull⟩

theorem evaluate_gains (he : e.Composed) {r : RunState} (hr : r.store.WellFormed)
    (entry arg : Addr) :
    Ends (e.evaluate entry arg r)
      (fun _ r' => (r.store.prepared entry).Gains
        (r.fuel - r'.fuel + Evaluation.told (e.attempt entry arg r).answer) r'.store)
      fun _ r' => (r.store.prepared entry).Gains (r.fuel - r'.fuel) r'.store ∨
        r'.fuel = r.fuel ∧ Unreported (r.store.prepared entry) entry arg r'.store := by
  have hends := Store.shape_ends hr (hr.outcome_sound (hr.knows_resultShape entry))
  cases hx : Outcome.shape (r.store.resultShape entry) r.store with
  | error err t =>
    obtain ⟨trace, heval⟩ := e.evaluate_of_no_shape hx arg
    rw [heval]
    exact .inl (.refl _ _)
  | ok shape t =>
    rw [evaluate_of_shape hx]
    rcases attempt_pays he hr entry arg with ⟨f, hprepare, hattempt⟩ | hrun
    · have ht : r.store.prepared entry = t := congrArg EStateM.Result.state hx
      have hshape : (r.store.prepared entry).shape? shape =
          some (.cotuple #[r.store.resultShape entry, ShapeId.text]) := ht ▸ hends.of_ok hx
      rw [hattempt]
      exact settle_refused (r := attemptFrom entry arg r) (hr.prepared entry).2 hshape hprepare
    · exact (settle_pays hrun).imp (fun _ _ hg => hg) fun _ _ hg => .inl hg

/-- What an evaluation with an outcome adds is paid for by its steps, but for what tells of the
end. -/
theorem gains_of_ok (hs : Reachable s) (he : e.Composed) {steps : Nat} {entry arg a : Addr}
    {r : RunState} (h : e.evaluateWith steps entry arg s = .ok a r) :
    (∃ payload, Outcome.decode r.store a = .ok (.ok payload) ∧
      (s.prepared entry).Gains ((e.executed steps entry arg s).length + 1) r.store) ∨
      ∃ text, Outcome.decode r.store a = .ok (.err text) ∧
        (s.prepared entry).Gains ((e.executed steps entry arg s).length + 2) r.store := by
  have hw : (RunState.mk s steps (.start .none)).store.WellFormed := hs.wellFormed
  have hspent := e.spent_eq steps entry arg s
  have hk : steps - r.fuel = (e.executed steps entry arg s).length := by
    rw [h, EStateM.Result.state_ok] at hspent
    omega
  have hgains := (evaluate_gains he hw entry arg).of_ok h
  obtain ⟨-, -, shape, hshape, htells⟩ := (evaluate_tells he hw entry arg).of_ok h
  dsimp only at hgains
  rw [hk] at hgains
  rcases htells.decode hshape with ⟨payload, hd, htold⟩ | ⟨text, hd, htold⟩
  · rw [htold] at hgains
    exact .inl ⟨payload, hd, hgains⟩
  · rw [htold] at hgains
    exact .inr ⟨text, hd, hgains⟩

/-- What an evaluation without an outcome adds is paid for by its steps, but for the report of an
entry that is refused. -/
theorem gains_of_error (hs : Reachable s) (he : e.Composed) {steps : Nat} {entry arg : Addr}
    {err : EvalError} {r : RunState} (h : e.evaluateWith steps entry arg s = .error err r) :
    (s.prepared entry).Gains (e.executed steps entry arg s).length r.store ∨
      (e.executed steps entry arg s).length = 0 ∧
        Unreported (s.prepared entry) entry arg r.store := by
  have hw : (RunState.mk s steps (.start .none)).store.WellFormed := hs.wellFormed
  have hspent := e.spent_eq steps entry arg s
  have hfuel : r.fuel + (e.executed steps entry arg s).length = steps := by
    rw [h] at hspent
    exact hspent
  rcases (evaluate_gains he hw entry arg).of_error h with hgains | ⟨hleft, hunreported⟩
  · refine .inl (hgains.mono ?_)
    show steps - r.fuel ≤ _
    omega
  · have hleft : r.fuel = steps := hleft
    exact .inr ⟨by omega, hunreported⟩

/-- **The budget bounds what is written.** An evaluation that takes so many steps, by either
executor, even by a program that was composed from another store, adds no function and no
shape but that of its outcome. It adds no concrete value, and at most one other value for
each step, with one more for the outcome and one more for the report of a fault. This is said of
the evaluations that take a step or leave room; `exceeds_budget_iff` tells of the others. -/
theorem writes_within_budget (hs : Reachable s) (he : e.Composed) (steps : Nat)
    (entry arg : Addr) :
    let x := e.evaluateWith steps entry arg s
    let k := (e.executed steps entry arg s).length
    x.state.fuel + k = steps ∧
      x.state.store.functions = s.functions ∧
      (x.state.store.shapes = s.shapes ∨
        x.state.store.shapes = s.shapes.insert (.cotuple #[s.resultShape entry, ShapeId.text])) ∧
      ∃ vs, x.state.store.values.toList = s.values.toList ++ vs ∧
        (∀ v ∈ vs, v.isAbstract = true) ∧
        match x with
        | .ok a r =>
          (∃ payload, Outcome.decode r.store a = .ok (.ok payload) ∧ vs.length ≤ k + 1) ∨
            ∃ text, Outcome.decode r.store a = .ok (.err text) ∧ vs.length ≤ k + 2
        | .error _ r => 0 < k ∨ r.store.size < Store.maxValues → vs.length ≤ k := by
  intro x k
  have hspent : x.state.fuel + k = steps := e.spent_eq steps entry arg s
  have hok (a : Addr) (r : RunState) (h : x = .ok a r) := gains_of_ok hs he h
  have herror (err : EvalError) (r : RunState) (h : x = .error err r) := gains_of_error hs he h
  clear_value x
  cases x with
  | ok a r =>
    rcases hok a r rfl with ⟨payload, hd, hgains⟩ | ⟨text, hd, hgains⟩
    · obtain ⟨hf, hsh, vs, hvs, hlen, ha⟩ := hgains.of_prepared
      exact ⟨hspent, hf, hsh, vs, hvs, ha, .inl ⟨payload, hd, hlen⟩⟩
    · obtain ⟨hf, hsh, vs, hvs, hlen, ha⟩ := hgains.of_prepared
      exact ⟨hspent, hf, hsh, vs, hvs, ha, .inr ⟨text, hd, hlen⟩⟩
  | error err r =>
    rcases herror err r rfl with hgains | ⟨hk, hunreported⟩
    · obtain ⟨hf, hsh, vs, hvs, hlen, ha⟩ := hgains.of_prepared
      exact ⟨hspent, hf, hsh, vs, hvs, ha, fun _ => hlen⟩
    · obtain ⟨hf, hsh, vs, hvs, -, ha⟩ := hunreported.gains.of_prepared
      refine ⟨hspent, hf, hsh, vs, hvs, ha, fun hpaid => ?_⟩
      -- No step was taken, and the report has taken the last place.
      obtain ⟨f, -, -, hfull⟩ := hunreported
      omega

/-- The relay takes seven steps and has an outcome, so it adds no more than nine values. -/
theorem writes_within_budget_relay :
    ∃ vs, ((machine .standard).evaluateWith 100 ⟨5⟩ Addr.unit .withRelay).state.store.values.toList =
        Store.withRelay.values.toList ++ vs ∧ vs.length ≤ 9 := by
  obtain ⟨a, r, heval⟩ := evaluate_relay Store.shape_relay
  have h := writes_within_budget .withRelay (.machine .standard) 100 ⟨5⟩ Addr.unit
  rw [executed_relay, heval] at h
  obtain ⟨-, -, -, vs, hvs, -, hend⟩ := h
  refine ⟨vs, heval ▸ hvs, ?_⟩
  rcases hend with ⟨payload, -, hle⟩ | ⟨text, -, hle⟩
  · exact Nat.le_succ_of_le hle
  · exact hle

/-- **One report may be there without an outcome.** Of the evaluations that have no outcome
only those add more values than they take steps that are refused when the store has one place
left: they take no step, and the report of the refusal takes the last place. -/
theorem exceeds_budget_iff (hs : Reachable s) (he : e.Composed) {steps : Nat} {entry arg : Addr}
    {err : EvalError} {r : RunState} (h : e.evaluateWith steps entry arg s = .error err r)
    {vs : List Value} (hvs : r.store.values.toList = s.values.toList ++ vs) :
    (e.executed steps entry arg s).length < vs.length ↔
      (e.executed steps entry arg s).length = 0 ∧
        Unreported (s.prepared entry) entry arg r.store := by
  constructor
  · intro hlt
    refine (gains_of_error hs he h).resolve_left fun hgains => ?_
    obtain ⟨-, -, added, hadded, hle, -⟩ := hgains.of_prepared
    obtain rfl := List.append_cancel_left (hvs.symm.trans hadded)
    omega
  · rintro ⟨hk, f, -, hstore, -⟩
    have hvalues : (s.prepared entry).values = s.values := by
      rcases s.prepared_adds entry with hp | hp
      · rw [hp]
      · rw [hp]
    rw [hstore, hvalues, Interner.toList_insert] at hvs
    obtain rfl := List.append_cancel_left hvs
    rw [hk]
    exact Nat.zero_lt_one

end Executor

end ValueMachine
