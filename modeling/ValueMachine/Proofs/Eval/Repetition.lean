import ValueMachine.Proofs.Eval.Independence
import ValueMachine.Proofs.Store.Repetition

/-! Evaluations that are done again.

Every instruction repeats, so a step of a machine that stands on a larger store is the
same step if that store has all that the step adds (`Machine.step_again`). A run, and then
a whole evaluation, `Reruns`: on any store that has come of the one it leaves, it ends in
the same way, with the same fuel, and adds nothing (`Executor.evaluate_again`). -/
namespace ValueMachine

open Store EStateM.Result

variable {base s t : Store}

/-! ### Instructions -/

namespace Work

variable {α : Type} {a b : Addr}

theorem lift_repeats {op : StoreM α} (h : Repeats op s) : Repeats (liftM op : Work α) s :=
  h.adapt Halt.ofStoreError fun t => by
    rw [lift_eq]
    cases op t <;> rfl

section
variable (h : s.WellFormed)
include h

theorem ask_bind {question : Store → Except StoreError α} {β : Type} {next : α → Work β}
    (hq : Lasts question s) (hn : ∀ x, question s = .ok x → Repeats (next x) s) :
    Repeats (Work.ask question >>= next) s :=
  (lift_repeats (ask_repeats h hq)).bind_same (E := fun _ _ => True)
    (ask_ends (fun _ hx => ⟨rfl, hx⟩) fun _ _ => trivial) hn

theorem value_bind {β : Type} {next : Value → Work β} (ha : s.Holds a)
    (hn : ∀ v, s.value? a = some v → Repeats (next v) s) : Repeats (value a >>= next) s :=
  ask_bind h (resolve_lasts ha) fun v hv => hn v (lift_resolve_eq_ok_iff.mp hv)

theorem readReg_bind {β : Type} {regs : Regs} {body : Body} (hr : regs.Sound s body) {r : Reg}
    (hlt : r < body.registers) {next : Addr → Work β} (hn : ∀ a, s.Holds a → Repeats (next a) s) :
    Repeats (readReg regs r >>= next) s := by
  have hread : Repeats (readReg regs r) s := by
    unfold readReg
    split
    · exact .pure h _
    · exact .throw h _
  exact hread.bind_same (readReg_ends (i := .nop) hr hlt) hn

theorem readRegs_bind {β : Type} {regs : Regs} {body : Body} (hr : regs.Sound s body)
    {rs : List Reg} (hlt : ∀ r ∈ rs, r < body.registers) {next : List Addr → Work β}
    (hn : ∀ found, (∀ a ∈ found, s.Holds a) → Repeats (next found) s) :
    Repeats (readRegs regs rs >>= next) s := by
  have hread : Repeats (readRegs regs rs) s := by
    refine .mapM h fun r _ s' _ hs' => ?_
    unfold readReg
    split
    · exact .pure hs' _
    · exact .throw hs' _
  exact hread.bind_same (readRegs_ends (i := .nop) hr hlt) hn

theorem arith_repeats (ha : s.Holds a) (hb : s.Holds b) (op : ArithOp) :
    Repeats (arith op a b) s := by
  refine value_bind h ha fun v _ => value_bind h hb fun w _ => ?_
  split
  · split
    · exact .throw h _
    · split
      · exact lift_repeats (intern_repeats_leaf h rfl rfl rfl fun _ _ hv => by cases hv)
      · exact .throw h _
  · exact lift_repeats (intern_repeats_leaf h rfl rfl rfl fun _ _ hv => by cases hv)
  all_goals exact .throw h _

theorem compare_repeats (ha : s.Holds a) (hb : s.Holds b) (op : CmpOp) :
    Repeats (compare op a b) s := by
  refine value_bind h ha fun v _ => value_bind h hb fun w _ => ?_
  split
  · exact .pure h _
  · split
    · exact .throw h _
    · exact .pure h _
  · exact .pure h _
  all_goals exact .throw h _

theorem project_repeats (ha : s.Holds a) (index : UInt32) : Repeats (project a index) s := by
  refine value_bind h ha fun v _ => ?_
  split
  · split
    · exact .pure h _
    · exact .throw h _
  · exact .throw h _

theorem untag_repeats (ha : s.Holds a) : Repeats (untag a) s := by
  refine value_bind h ha fun v _ => ?_
  split
  · exact .pure h _
  · exact .throw h _

theorem targetFor_repeats (targets : Array UInt32) (tag : UInt32) :
    Repeats (targetFor targets tag) s := by
  unfold targetFor
  split
  · exact .pure h _
  · exact .throw h _

theorem head_repeats (ha : s.Holds a) : Repeats (head a) s := by
  refine value_bind h ha fun v _ => ?_
  split
  · exact .pure h _
  all_goals exact .throw h _

theorem tail_repeats (ha : s.Holds a) : Repeats (tail a) s := by
  refine value_bind h ha fun v _ => ?_
  split
  · exact .pure h _
  all_goals exact .throw h _

theorem isNil_repeats (ha : s.Holds a) : Repeats (isNil a) s := by
  refine value_bind h ha fun v _ => ?_
  split
  · exact .pure h _
  · exact .pure h _
  · exact .throw h _

theorem readTruth_repeats (ha : s.Holds a) : Repeats (readTruth a) s := by
  refine value_bind h ha fun v _ => ?_
  split
  · split
    · exact .pure h _
    · exact .throw h _
  · exact .throw h _

theorem checkConforms_repeats {id : ShapeId} (ha : s.Holds a) (hid : s.Knows id) :
    Repeats (Work.ask (·.checkConforms a id)) s :=
  lift_repeats (ask_repeats h (checkConforms_lasts h ha hid))

theorem checkArgs_repeats {args : List Addr} {params : List ShapeId} (ha : ∀ a ∈ args, s.Holds a)
    (hk : ∀ id ∈ params, s.Knows id) : Repeats (checkArgs args params) s := by
  induction args generalizing params with
  | nil => exact .pure h _
  | cons arg args ih =>
    cases params with
    | nil => exact .pure h _
    | cons param params =>
      obtain ⟨harg, hargs⟩ := List.forall_mem_cons.mp ha
      obtain ⟨hparam, hparams⟩ := List.forall_mem_cons.mp hk
      exact ask_bind h (checkConforms_lasts h harg hparam) fun _ _ => ih hargs hparams

theorem prepare_repeats {args : List Addr} (ha : s.Holds a) (hargs : ∀ x ∈ args, s.Holds x)
    (owed : Option ShapeId) : Repeats (prepare a args owed) s := by
  refine value_bind h ha fun v hv => ?_
  cases v with
  | function f captures =>
    obtain ⟨-, -, body, hbody⟩ := h.valid' hv
    refine ask_bind h (body_lasts hbody) fun found hfound => ?_
    have hfound : s.body? f = some found := lift_body_eq_ok_iff.mp hfound
    split
    · exact .throw h _
    · exact (checkArgs_repeats h hargs (h.verified' hfound).params).bind_any
        fun _ _ _ hs => .pure hs _
  | _ => exact .throw h _

theorem checkResult_repeats {act : Activation} (hact : act.Sound s) (ha : s.Holds a) :
    Repeats (checkResult act a) s := by
  have hresult : s.Knows act.body.result := (h.verified' hact.body).result
  refine ask_bind h (checkConforms_lasts h ha hresult) fun _ _ => ?_
  split
  · exact checkConforms_repeats h ha hact.owed
  · exact .pure h _

theorem unpack_repeats (ha : s.Holds a) (arity : Nat) : Repeats (unpack arity a) s := by
  refine value_bind h ha fun v _ => ?_
  split
  · exact .pure h _
  · split
    · exact .pure h _
    · exact .throw h _
  · exact .throw h _

end

theorem into_repeats {x : Work Addr} (hx : Repeats x s) (regs : Regs) (dst : Reg) :
    Repeats (into regs dst x) s := hx.bind_any fun _ _ _ hs => .pure hs _

end Work

open Work in
/-- An instruction of a sound frame does the same again. -/
theorem Instr.exec_repeats (h : s.WellFormed) {act : Activation} (hact : act.Sound s)
    {regs : Regs} (hr : regs.Sound s act.body) {i : Instr} (hi : i.Bounded s act.body) :
    Repeats (i.exec act regs) s := by
  obtain ⟨hregs, hi⟩ := hi
  cases i with
  | nop => exact .pure h _
  | trap code => exact .throw h _
  | const dst addr =>
    have hask := lift_repeats (ask_repeats h (resolve_lasts hi))
    exact into_repeats ((hask.map _).bind_any fun _ _ _ hs => .pure hs _) _ _
  | arg dst index =>
    refine into_repeats ?_ regs dst
    split
    · exact .pure h _
    · exact .throw h _
  | capture dst index =>
    refine into_repeats ?_ regs dst
    split
    · exact .pure h _
    · exact .throw h _
  | mov dst src =>
    refine into_repeats ?_ regs dst
    rw [← bind_pure (readReg regs src)]
    exact readReg_bind h hr (hregs src (by simp [Instr.regs])) fun _ _ => .pure h _
  | arith op dst a b =>
    refine into_repeats ?_ regs dst
    refine readReg_bind h hr (hregs a (by simp [Instr.regs])) fun x hx => ?_
    refine readReg_bind h hr (hregs b (by simp [Instr.regs])) fun y hy => ?_
    exact arith_repeats h hx hy op
  | cmp op dst a b =>
    refine into_repeats ?_ regs dst
    refine readReg_bind h hr (hregs a (by simp [Instr.regs])) fun x hx => ?_
    refine readReg_bind h hr (hregs b (by simp [Instr.regs])) fun y hy => ?_
    exact (compare_repeats h hx hy op).bind_any fun _ _ _ hs => .pure hs _
  | tupleNew dst items =>
    refine into_repeats ?_ regs dst
    exact readRegs_bind h hr (fun r hm => hregs r (by simp [Instr.regs, hm])) fun found hfound =>
      lift_repeats (tuple_repeats h hfound)
  | tupleGet dst tuple index =>
    refine into_repeats ?_ regs dst
    exact readReg_bind h hr (hregs tuple (by simp [Instr.regs])) fun x hx =>
      project_repeats h hx index
  | cotupleNew dst id tag payload =>
    obtain ⟨alternatives, hid, -⟩ := hi
    refine into_repeats ?_ regs dst
    exact readReg_bind h hr (hregs payload (by simp [Instr.regs])) fun x hx =>
      lift_repeats (cotuple_repeats h (Interner.lt_size hid) hx tag)
  | branch scrutinee payload targets =>
    refine readReg_bind h hr (hregs scrutinee (by simp [Instr.regs])) fun x hx => ?_
    refine (untag_repeats h hx).bind_any fun out _ _ hs => ?_
    exact (targetFor_repeats hs targets out.1).bind_any fun _ _ _ hs => .pure hs _
  | nil dst elem => exact into_repeats (lift_repeats (nil_repeats h hi)) regs dst
  | cons dst first rest =>
    refine into_repeats ?_ regs dst
    refine readReg_bind h hr (hregs first (by simp [Instr.regs])) fun x hx => ?_
    refine readReg_bind h hr (hregs rest (by simp [Instr.regs])) fun xs hxs => ?_
    exact lift_repeats (cons_repeats h hx hxs)
  | head dst list =>
    refine into_repeats ?_ regs dst
    exact readReg_bind h hr (hregs list (by simp [Instr.regs])) fun xs hxs => head_repeats h hxs
  | tail dst list =>
    refine into_repeats ?_ regs dst
    exact readReg_bind h hr (hregs list (by simp [Instr.regs])) fun xs hxs => tail_repeats h hxs
  | isNil dst list =>
    refine into_repeats ?_ regs dst
    refine readReg_bind h hr (hregs list (by simp [Instr.regs])) fun xs hxs => ?_
    exact (isNil_repeats h hxs).bind_any fun _ _ _ hs => .pure hs _
  | refl dst a b =>
    refine into_repeats ?_ regs dst
    refine readReg_bind h hr (hregs a (by simp [Instr.regs])) fun x hx => ?_
    refine readReg_bind h hr (hregs b (by simp [Instr.regs])) fun y hy => ?_
    exact lift_repeats (identity_repeats h hx hy)
  | jmp target => exact .pure h _
  | closure dst func captures =>
    refine into_repeats ?_ regs dst
    have hall : ∀ r ∈ captures, r < act.body.registers := fun r hm =>
      hregs r (by simp [Instr.regs, hm])
    refine readRegs_bind h hr hall fun found hfound => ?_
    refine readReg_bind h hr (hregs func (by simp [Instr.regs])) fun f hf => ?_
    exact lift_repeats (closure_repeats h hf hfound)
  | call dst func args =>
    refine readReg_bind h hr (hregs func (by simp [Instr.regs])) fun f hf => ?_
    have hall : ∀ r ∈ args, r < act.body.registers := fun r hm =>
      hregs r (by simp [Instr.regs, hm])
    refine readRegs_bind h hr hall fun found hfound => ?_
    exact (prepare_repeats h hf hfound _).bind_any fun _ _ _ hs => .pure hs _
  | tailCall func args =>
    refine readReg_bind h hr (hregs func (by simp [Instr.regs])) fun f hf => ?_
    have hall : ∀ r ∈ args, r < act.body.registers := fun r hm =>
      hregs r (by simp [Instr.regs, hm])
    refine readRegs_bind h hr hall fun found hfound => ?_
    exact (prepare_repeats h hf hfound _).bind_any fun _ _ _ hs => .pure hs _
  | defer cond onProved onDisproved args =>
    refine readReg_bind h hr (hregs cond (by simp [Instr.regs])) fun x hx => ?_
    have hends := (readTruth_ends (i := .nop) (b := act.body) hx).imp_value
      fun _ _ he => And.intro he trivial
    refine (readTruth_repeats h hx).bind_same hends fun proved _ => ?_
    refine readReg_bind h hr (hregs _ (by cases proved <;> simp [Instr.regs])) fun f hf => ?_
    have hall : ∀ r ∈ args, r < act.body.registers := fun r hm =>
      hregs r (by simp [Instr.regs, hm])
    refine readRegs_bind h hr hall fun found hfound => ?_
    exact (prepare_repeats h hf hfound _).bind_any fun _ _ _ hs => .pure hs _
  | ret src =>
    refine readReg_bind h hr (hregs src (by simp [Instr.regs])) fun x hx => ?_
    exact (checkResult_repeats h hact hx).bind_any fun _ _ _ hs => .pure hs _

/-! ### Runs -/

/-- Done again on a store that has come of the one it leaves, the run ends with the same
value or the same complaint, with the same fuel and the same trace, and leaves that store
as it is. -/
structure Reruns {ε α : Type} (run : Store → EStateM.Result ε RunState α) (s : Store) : Prop where
  grown : s.Extends (run s).state.store
  sound : (run s).state.store.WellFormed
  again : ∀ t : Store, t.WellFormed → (run s).state.store.Extends t →
    run t = (run s).leaving { (run s).state with store := t }

theorem Reruns.of_eq {ε α : Type} {run : Store → EStateM.Result ε RunState α}
    {r : EStateM.Result ε RunState α} (hr : run s = r) (hgrown : s.Extends r.state.store)
    (hsound : r.state.store.WellFormed)
    (hagain : ∀ t : Store, t.WellFormed → r.state.store.Extends t →
      run t = r.leaving { r.state with store := t }) : Reruns run s := by
  subst hr
  exact ⟨hgrown, hsound, hagain⟩

/-- The machine on another store. -/
def Machine.on (m : Machine) (t : Store) : Machine := { m with store := t }

/-- The result of a step with another store. -/
def Step.on (x : Step) (t : Store) : Step :=
  match x with
  | more m => more (m.on t)
  | done value _ trace => done value t trace
  | stop e _ trace => stop e t trace

namespace Machine

variable {m : Machine} {i : Instr}

theorem step_grows (h : m.Sound) (maxDepth : Nat) (i : Instr) :
    m.store.Extends (m.step maxDepth i).store ∧ (m.step maxDepth i).store.WellFormed :=
  (step_follows interns_grows maxDepth i m).1 h.store

/-- On a store that has all that a step adds, the step is the same. -/
theorem step_again (h : m.Sound) (hi : m.fetch = some i) (maxDepth : Nat) (ht : t.WellFormed)
    (hst : (m.step maxDepth i).store.Extends t) :
    (m.on t).step maxDepth i = (m.step maxDepth i).on t := by
  obtain ⟨hs, ⟨hact, hregs, -⟩, -⟩ := h
  have hexec := (Instr.exec_repeats hs hact hregs (hs.bounded_at hact hi)).again t ht
  have htakes := m.step_takes maxDepth i
  generalize m.step maxDepth i = x at htakes hst
  cases htakes with
  | halt hx =>
    rw [hx] at hexec
    exact Takes.eq (.halt (hexec hst))
  | next hx =>
    rw [hx] at hexec
    exact Takes.eq (.next (hexec hst))
  | goto hx =>
    rw [hx] at hexec
    exact Takes.eq (.goto (hexec hst))
  | deep hx hd =>
    rw [hx] at hexec
    exact Takes.eq (.deep (hexec hst) hd)
  | call hx hd =>
    rw [hx] at hexec
    exact Takes.eq (.call (hexec hst) hd)
  | replace hx =>
    rw [hx] at hexec
    exact Takes.eq (.replace (hexec hst))
  | done hx hc =>
    rw [hx] at hexec
    exact Takes.eq (.done (hexec hst) hc)
  | resume hx hc hd =>
    rw [hx] at hexec
    exact Takes.eq (.resume (m := m.on t) (hexec hst) hc hd)

/-- A run of a sound machine does the same again. -/
theorem runWithin_reruns (p : Program) (maxDepth fuel : Nat) (h : m.Sound) :
    Reruns (fun t => runWithin p maxDepth fuel (m.on t)) m.store := by
  induction fuel using Nat.strongRecOn generalizing m with
  | _ fuel ih =>
    obtain ⟨i, hi⟩ := h.fetch
    cases hhas : p.has m.frame.act.func with
    | false =>
      have hlacks (t : Store) := runWithin_of_lacks (m := m.on t) maxDepth hhas fuel
      exact .of_eq (hlacks m.store) (.refl _) h.store fun t _ _ => hlacks t
    | true =>
      cases fuel with
      | zero =>
        have hzero (t : Store) := runWithin_zero (m := m.on t) maxDepth hhas hi
        exact .of_eq (hzero m.store) (.refl _) h.store fun t _ _ => hzero t
      | succ fuel =>
        have hstep := step_sound h hi maxDepth
        have hgrows := step_grows h maxDepth i
        have hagain (t : Store) := step_again (t := t) h hi maxDepth
        have hsucc (t : Store) := runWithin_succ (m := m.on t) maxDepth hhas hi fuel
        have hself := hsucc m.store
        rw [show m.on m.store = m from rfl] at hself
        cases hm : m.step maxDepth i with
        | done value u trace =>
          rw [hm] at hgrows hagain hself
          refine .of_eq hself hgrows.1 hgrows.2 fun t ht hst => ?_
          rw [hsucc, hagain t ht hst]
          rfl
        | stop e u trace =>
          rw [hm] at hgrows hagain hself
          refine .of_eq hself hgrows.1 hgrows.2 fun t ht hst => ?_
          rw [hsucc, hagain t ht hst]
          rfl
        | more m' =>
          rw [hm] at hstep hgrows hagain hself
          obtain ⟨hgrown, hsound, hrest⟩ := ih fuel (Nat.lt_succ_self fuel) hstep
          refine .of_eq hself (hgrows.1.trans hgrown) hsound fun t ht hst => ?_
          rw [hsucc, hagain t ht (hgrown.trans hst)]
          exact hrest t ht hst

end Machine

/-! ### Evaluations -/

namespace Executor

variable {e : Executor}

/-- An activation that is run as the entry frame does the same again. -/
theorem way_reruns (he : e.For base) (hb : base.Extends s) (hs : s.WellFormed) {act : Activation}
    (hact : act.Sound s) (fuel : Nat) {trace : Trace} (hq : trace.mask.instr = false) :
    Reruns (fun t => e.way act ⟨t, fuel, trace⟩) s := by
  obtain ⟨p, hp⟩ := way_eq_runWithin he
  have hrun := Machine.runWithin_reruns p e.limits.maxCallDepth fuel
    (Machine.sound_entry (r := ⟨s, fuel, trace⟩) hs hact)
  refine .of_eq (hp act ⟨s, fuel, trace⟩ hb hs hact hq) hrun.grown hrun.sound fun t ht hst => ?_
  have hst' : s.Extends t := hrun.grown.trans hst
  rw [hp act ⟨t, fuel, trace⟩ (hb.trans hst') ht (hact.mono hst') hq]
  exact hrun.again t ht hst

end Executor

namespace Evaluation

theorem lift_repeats {α : Type} {op : StoreM α} (h : Repeats op s) :
    Repeats (liftM op : EStateM EvalError Store α) s :=
  h.adapt EvalError.store fun t => by
    rw [lift_eq]
    cases op t <;> rfl

theorem prepareEntry_repeats (h : s.WellFormed) {entry arg : Addr} (hentry : s.Holds entry)
    (harg : s.Holds arg) : Repeats (prepareEntry entry arg) s := by
  refine Work.value_bind h hentry fun v hv => ?_
  cases v with
  | function f captures =>
    obtain ⟨-, -, body, hbody⟩ := h.valid' hv
    refine Work.ask_bind h (body_lasts hbody) fun found _ => ?_
    exact (Work.unpack_repeats h harg found.arity).bind_same (unpack_ends h found.arity arg)
      fun args hargs => Work.prepare_repeats h hentry hargs none
  | _ => exact .throw h _

theorem runEntry_reruns {e : Executor} (he : e.For base) (hb : base.Extends s) (hs : s.WellFormed)
    {entry arg : Addr} (hentry : s.Holds entry) (harg : s.Holds arg) (fuel : Nat) {trace : Trace}
    (hq : trace.mask.instr = false) :
    Reruns (fun t => runEntry e.way entry arg ⟨t, fuel, trace⟩) s := by
  have hprepare := prepareEntry_repeats hs hentry harg
  have hends := prepareEntry_ends hs entry arg
  cases hp : prepareEntry entry arg s with
  | error h u =>
    obtain ⟨hgrown, hsound, hagain⟩ := hprepare
    rw [hp] at hgrown hsound hagain
    exact .of_eq (runEntry_of_unready hp) hgrown hsound fun t ht hst =>
      runEntry_of_unready (hagain t ht hst)
  | ok act u =>
    obtain ⟨rfl, hact, -⟩ := hends.of_ok hp
    have hagain := hprepare.again
    rw [hp] at hagain
    have hway := Executor.way_reruns he hb hs hact fuel hq
    refine .of_eq (runEntry_of_ready hp) hway.grown hway.sound fun t ht hst => ?_
    exact (runEntry_of_ready (hagain t ht (hway.grown.trans hst))).trans (hway.again t ht hst)

theorem outcomeOf_repeats (h : s.WellFormed) {shape : ShapeId} (hs : s.Knows shape)
    {result : Except Stop Addr} (hr : ∀ value, result = .ok value → s.Holds value) :
    Repeats (outcomeOf shape result) s := by
  cases result with
  | ok value =>
    exact (lift_repeats (cotuple_repeats h hs (hr value rfl) 0)).bind_any
      fun _ _ _ hs => .pure hs _
  | error stop =>
    cases stop with
    | fatal e => exact .throw h e
    | fault f site =>
      have htext : Repeats (Store.text (f.report site)) s :=
        intern_repeats_leaf h rfl rfl rfl fun _ _ hv => by cases hv
      have hends : Ends ((liftM (Store.text (f.report site)) : EStateM EvalError Store Addr) s)
          (fun a t => t.Holds a) fun _ _ => True := by
        rw [lift_eq]
        cases ht : Store.text (f.report site) s with
        | ok a t => exact ⟨_, (intern_ends h rfl).of_ok ht⟩
        | error e t => trivial
      refine (lift_repeats htext).bind hends fun a t hst ht ha => ?_
      exact (lift_repeats (cotuple_repeats ht (hs.mono hst) ha 1)).bind_any
        fun _ _ _ hs => .pure hs _

theorem emit_quiet {trace : Trace} (h : trace.mask = .none) (e : TraceEvent) :
    trace.emit e = trace := by
  unfold Trace.emit
  rw [h]
  cases e <;> rfl

theorem settle_reruns (h : s.WellFormed) {shape : ShapeId} (hs : s.Knows shape)
    {result : Except Stop Addr} (hr : ∀ value, result = .ok value → s.Holds value) (fuel : Nat)
    {trace : Trace} (hq : trace.mask = .none) :
    Reruns (fun t => settle shape result ⟨t, fuel, trace⟩) s := by
  obtain ⟨hgrown, hsound, hagain⟩ := outcomeOf_repeats h hs hr
  cases ho : outcomeOf shape result s with
  | ok out u =>
    rw [ho] at hgrown hsound hagain
    have hsettle {t u : Store} (ht : outcomeOf shape result t = .ok out u) :
        settle shape result ⟨t, fuel, trace⟩ = .ok out.1 ⟨u, fuel, trace⟩ := by
      rw [settle_of_ok ht, emit_quiet hq]
    exact .of_eq (hsettle ho) hgrown hsound fun t ht hst => hsettle (hagain t ht hst)
  | error e u =>
    rw [ho] at hgrown hsound hagain
    have hsettle {t u : Store} (ht : outcomeOf shape result t = .error e u) :
        settle shape result ⟨t, fuel, trace⟩ = .error e ⟨u, fuel, trace⟩ := by
      rw [settle_of_error ht, emit_quiet hq]
    exact .of_eq (hsettle ho) hgrown hsound fun t ht hst => hsettle (hagain t ht hst)

theorem resultShape_of_extends (hs : s.WellFormed) (hst : s.Extends t) {entry : Addr}
    (hentry : s.Holds entry) : t.resultShape entry = s.resultShape entry := by
  obtain ⟨v, hv⟩ := hentry
  unfold Store.resultShape
  rw [hv, hst.value? hv]
  cases v with
  | function f captures =>
    obtain ⟨-, -, b, hb⟩ := hs.valid' hv
    dsimp only
    rw [hb, hst.body? hb]
  | _ => rfl

/-- An evaluation that tells nothing does the same again. -/
theorem conduct_reruns {e : Executor} (he : e.For base) (hb : base.Extends s) (hs : s.WellFormed)
    {entry arg : Addr} (hentry : s.Holds entry) (harg : s.Holds arg) (fuel : Nat) {trace : Trace}
    (hq : trace.mask = .none) : Reruns (fun t => conduct e.way entry arg ⟨t, fuel, trace⟩) s := by
  have hshape := hs.outcome_sound (hs.knows_resultShape entry)
  obtain ⟨hgrown, hsound, hagain⟩ := shape_repeats hs hshape
  have hends := shape_ends hs hshape
  -- On a larger store it is the same shape that is asked for.
  have hagain : ∀ t : Store, t.WellFormed → _ → Outcome.shape (t.resultShape entry) t = _ :=
    fun t ht hst => by
      rw [resultShape_of_extends hs (hgrown.trans hst) hentry]
      exact hagain t ht hst
  cases hx : Outcome.shape (s.resultShape entry) s with
  | error err u =>
    rw [show shape _ s = _ from hx] at hgrown hsound hagain
    have hconduct {t u : Store} (ht : Outcome.shape (t.resultShape entry) t = .error err u) :
        conduct e.way entry arg ⟨t, fuel, trace⟩ = .error (.store err) ⟨u, fuel, trace⟩ := by
      rw [conduct_of_no_shape ht, emit_quiet hq, emit_quiet hq]
    exact .of_eq (hconduct hx) hgrown hsound fun t ht hst => hconduct (hagain t ht hst)
  | ok id u =>
    rw [show shape _ s = _ from hx] at hgrown hsound hagain hends
    have hknown : u.Knows id := Interner.lt_size hends
    have hquiet : trace.mask.instr = false := by
      rw [hq]
      rfl
    have hrun := runEntry_reruns he (hb.trans hgrown) hsound (hentry.mono hgrown)
      (harg.mono hgrown) fuel hquiet
    have hconduct {t u : Store} (ht : Outcome.shape (t.resultShape entry) t = .ok id u) :
        conduct e.way entry arg ⟨t, fuel, trace⟩ =
          settle id (runEntry e.way entry arg ⟨u, fuel, trace⟩).answer
            (runEntry e.way entry arg ⟨u, fuel, trace⟩).state :=
      conduct_of_shape ht (by rw [emit_quiet hq])
    have howes := e.runEntry_owes he.composed (r := ⟨u, fuel, trace⟩) hsound entry arg
    have hmask := (runEntry_follows (e.way_follows interns_grows) entry arg ⟨u, fuel, trace⟩).mask
    have hself := hconduct hx
    generalize hr : runEntry e.way entry arg ⟨u, fuel, trace⟩ = x at hrun howes hmask hself
    obtain ⟨hgrown', hsound', hagain'⟩ := hrun
    dsimp only [state_ok] at hgrown' hsound' hagain'
    rw [hr] at hgrown' hsound' hagain'
    have hholds : ∀ value, x.answer = .ok value → x.state.store.Holds value := by
      intro value hvalue
      cases x with
      | ok a r =>
        cases hvalue
        exact (holds_of_fits howes).1
      | error e r => cases hvalue
    have hsettle := settle_reruns hsound' (hknown.mono hgrown') hholds x.state.fuel (hmask.trans hq)
    refine .of_eq hself ((hgrown.trans hgrown').trans hsettle.grown) hsettle.sound
      fun t ht hst => ?_
    have hst' := hsettle.grown.trans hst
    rw [hconduct (hagain t ht (hgrown'.trans hst')), hagain' t ht hst', answer_leaving,
      state_leaving]
    exact hsettle.again t ht hst

end Evaluation

namespace Executor

variable {e : Executor} {entry arg : Addr}

/-- An evaluation with a budget of steps does the same again, by a program that was
composed from the base or before. -/
theorem evaluateWith_reruns (he : e.For base) (hb : base.Extends s) (hs : s.WellFormed)
    (hentry : s.Holds entry) (harg : s.Holds arg) (steps : Nat) :
    Reruns (e.evaluateWith steps entry arg) s :=
  Evaluation.conduct_reruns he hb hs hentry harg steps rfl

/-- **Running an evaluation again does nothing.** On any store that comes of the one that
an evaluation leaves, the same evaluation has the same answer and leaves the same fuel and
the very same store. -/
theorem evaluate_again (hs : Reachable s) (he : e.For s) (hentry : s.Holds entry)
    (harg : s.Holds arg) (steps : Nat)
    (ht : Leads (e.evaluateWith steps entry arg s).state.store t) :
    (e.evaluateWith steps entry arg t).answer = (e.evaluateWith steps entry arg s).answer ∧
      (e.evaluateWith steps entry arg t).state.fuel =
        (e.evaluateWith steps entry arg s).state.fuel ∧
      (e.evaluateWith steps entry arg t).state.store = t := by
  have hruns := evaluateWith_reruns he (.refl s) hs.wellFormed hentry harg steps
  obtain ⟨hst, htw⟩ := ht.grows hruns.sound
  rw [hruns.again t htw hst, answer_leaving, state_leaving]
  exact ⟨rfl, rfl, rfl⟩

/-- The relay, run again after another value has been stored. -/
theorem evaluate_again_relay :
    let r := (machine .standard).evaluateWith 100 ⟨5⟩ Addr.unit .withRelay
    let t := (Operation.ring 8 5).apply r.state.store
    let r' := (machine .standard).evaluateWith 100 ⟨5⟩ Addr.unit t
    r'.answer = r.answer ∧ r'.state.fuel = r.state.fuel ∧ r'.state.store = t :=
  evaluate_again (e := machine .standard) .withRelay trivial ⟨_, rfl⟩ ⟨_, rfl⟩ 100 (.step _ .refl)

end Executor

end ValueMachine
