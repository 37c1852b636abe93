import ValueMachine.Proofs.Eval.Composed

/-! Verified code never goes wrong.

`Visit` is what both ways of running code have in common when they stand before an
instruction. An instruction writes only registers that it names (`Instr.exec_writes`), and
in a sound frame these are there, so no write is lost (`Visit.Sound`). The main theorem,
`Executor.never_goes_wrong`, says this of every visit of a run on a store that can be
reached, and of every fault that it comes from an instruction that allows it. -/
namespace ValueMachine

variable {s t : Store}

/-! ### Writes -/

namespace Instr

/-- The registers that the instruction may write. -/
def writes : Instr → List Reg
  | const dst _ | arg dst _ | capture dst _ | mov dst _ | arith _ dst _ _ | cmp _ dst _ _
  | tupleNew dst _ | tupleGet dst _ _ | cotupleNew dst _ _ _ | nil dst _ | cons dst _ _
  | head dst _ | tail dst _ | isNil dst _ | refl dst _ _ | closure dst _ _ | call dst _ _ => [dst]
  | branch _ payload _ => [payload]
  | nop | trap _ | jmp _ | tailCall _ _ | defer _ _ _ _ | ret _ => []

theorem writes_subset (i : Instr) : i.writes ⊆ i.regs := by
  cases i <;> simp [writes, regs]

/-- The registers after an instruction, and the one that a result will go to. -/
structure Writes (i : Instr) (regs : Regs) (out : Regs × Effect) : Prop where
  only : out.1 = regs ∨ ∃ r ∈ i.writes, ∃ a, out.1 = regs.set r a
  call : ∀ dst callee, out.2 = .call dst callee → out.1 = regs ∧ dst ∈ i.writes

theorem into_writes {i : Instr} (regs : Regs) {dst : Reg} (hd : dst ∈ i.writes) (x : Work Addr)
    (s : Store) : Ends (Work.into regs dst x s) (fun out _ => i.Writes regs out) fun _ _ => True :=
  .bind_any fun a _ => ⟨.inr ⟨dst, hd, a, rfl⟩, fun _ _ h => by cases h⟩

/-- An instruction writes no register but those that it may write. -/
theorem exec_writes (act : Activation) (regs : Regs) (i : Instr) (s : Store) :
    Ends (i.exec act regs s) (fun out _ => i.Writes regs out) fun _ _ => True := by
  have hkept {i : Instr} {e : Effect} (h : ∀ dst callee, e = .call dst callee → dst ∈ i.writes) :
      i.Writes regs (regs, e) := ⟨.inl rfl, fun dst callee he => ⟨rfl, h dst callee he⟩⟩
  cases i with
  | nop => exact hkept fun _ _ he => by cases he
  | jmp target => exact hkept fun _ _ he => by cases he
  | trap code => trivial
  | branch scrutinee payload targets =>
    refine .bind_any fun _ _ => .bind_any fun (tag, inner) _ => .bind_any fun target _ => ?_
    exact ⟨.inr ⟨payload, List.mem_singleton_self payload, inner, rfl⟩, fun _ _ he => by cases he⟩
  | call dst func args =>
    refine .bind_any fun _ _ => .bind_any fun _ _ => .bind_any fun callee _ => hkept ?_
    rintro _ _ ⟨⟩
    exact List.mem_singleton_self dst
  | tailCall func args =>
    exact .bind_any fun _ _ => .bind_any fun _ _ => .bind_any fun _ _ =>
      hkept fun _ _ he => by cases he
  | defer cond onProved onDisproved args =>
    exact .bind_any fun _ _ => .bind_any fun _ _ => .bind_any fun _ _ => .bind_any fun _ _ =>
      .bind_any fun _ _ => hkept fun _ _ he => by cases he
  | ret src => exact .bind_any fun _ _ => .bind_any fun _ _ => hkept fun _ _ he => by cases he
  | _ => exact into_writes regs (List.mem_singleton_self _) _ s

end Instr

/-- A write to a register that is there is not lost. -/
theorem Regs.getElem?_set {regs : Regs} {r : Reg} (h : r.toNat < regs.size) (a : Addr) :
    (regs.set r a)[r.toNat]? = some (some a) := by
  unfold Regs.set
  rw [Array.getElem?_setIfInBounds, if_pos rfl, if_pos h]

/-! ### Visits -/

/-- A frame that stands before an instruction. -/
structure Visit where
  act : Activation
  regs : Regs
  place : Nat
  store : Store

/-- The frame runs a registered function. Its instruction writes no register but those
that it may write, and no write to these is lost. -/
structure Visit.Sound (v : Visit) : Prop where
  body : v.store.body? v.act.func = some v.act.body
  instr : ∃ i, v.act.body.code[v.place]? = some i ∧
    (∀ out t, i.exec v.act v.regs v.store = .ok out t → i.Writes v.regs out) ∧
    ∀ r ∈ i.writes, ∀ a, (v.regs.set r a)[r.toNat]? = some (some a)

def Machine.visit (m : Machine) : Visit := ⟨m.frame.act, m.frame.regs, m.frame.pc.toNat, m.store⟩

def Spot.visit (a : Spot) : Visit := ⟨a.act, a.regs, a.place, a.state.store⟩

/-- The run of an activation comes to the visit. -/
def Executor.Visits (e : Executor) (act : Activation) (r : RunState) (v : Visit) : Prop :=
  match e with
  | machine limits => ∃ m, (Machine.entry act r).Reaches limits.maxCallDepth m ∧ m.visit = v
  | composed p limits => ∃ a b, Spot.start? p (limits.maxCallDepth - 1) 1 act r = some a ∧
      Spot.Visits p a b ∧ b.visit = v

/-- A machine, or a program composed from the store as it is now or was earlier. -/
def Executor.For (e : Executor) (s : Store) : Prop :=
  match e with
  | machine _ => True
  | composed p _ => ∃ s₀, Reachable s₀ ∧ Leads s₀ s ∧ p = Program.compose s₀

theorem Executor.For.step {e : Executor} (h : e.For s) (op : Operation) : e.For (op.apply s) := by
  cases e with
  | machine limits => trivial
  | composed p limits =>
    obtain ⟨s₀, hs₀, hl, hp⟩ := h
    exact ⟨s₀, hs₀, hl.step op, hp⟩

theorem Visit.Sound.of {v : Visit} (hact : v.act.Sound v.store)
    (hregs : v.regs.Sound v.store v.act.body) (hs : v.store.WellFormed)
    (hlt : v.place < v.act.body.code.size) : v.Sound := by
  have hi := Array.getElem?_eq_getElem hlt
  have hb := hs.bounded_at hact hi
  refine ⟨hact.body, _, hi, fun out t hx => (Instr.exec_writes _ _ _ _).of_ok hx, fun r hr a => ?_⟩
  refine Regs.getElem?_set ?_ a
  rw [hregs.size]
  exact UInt32.lt_iff_toNat_lt.mp (hb.1 r (Instr.writes_subset _ hr))

namespace Executor

variable {e : Executor} {act : Activation} {r : RunState}

theorem Visits.sound {v : Visit} (hv : e.Visits act r v) (he : e.For r.store)
    (hr : r.store.WellFormed) (hact : act.Sound r.store) : v.Sound := by
  cases e with
  | machine limits =>
    obtain ⟨m, hm, rfl⟩ := hv
    have h := hm.sound (Machine.sound_entry hr hact)
    exact .of h.frame.act h.frame.regs h.store h.frame.place
  | composed p limits =>
    obtain ⟨s₀, hs₀, hl, rfl⟩ := he
    obtain ⟨a, b, ha, hb, rfl⟩ := hv
    obtain ⟨h, hp⟩ := Spot.Ready.sound ha (.first (Program.from_of_leads hs₀ hl) hr hact)
    obtain ⟨h, -⟩ := hb.sound h hp
    exact .of h.act h.regs h.store h.within.place_lt

theorem way_sound {stop : Stop} {r' : RunState} (h : e.way act r = .error stop r')
    (he : e.For r.store) (hr : r.store.WellFormed) (hact : act.Sound r.store) :
    stop.Sound r'.store := by
  cases e with
  | machine limits =>
    have hrun := Machine.run_sound (Machine.sound_entry hr hact) limits.maxCallDepth r.fuel
    exact (hrun.of_error h).2
  | composed p limits =>
    obtain ⟨s₀, hs₀, hl, rfl⟩ := he
    have hp := Program.from_of_leads hs₀ hl
    have hrun := Program.runFrame_ends (.compose s₀) (limits.maxCallDepth - 1) 1 act r hp hr hact
    have hfails := hrun.of_error h
    cases stop with
    | fatal e => trivial
    | fault f site =>
      obtain ⟨a, b, ha, hb, hf⟩ := hfails
      obtain ⟨h, hp⟩ := Spot.Ready.sound ha (.first hp hr hact)
      exact hf.sound (hb.sound h hp).1

/-- **Verified code never goes wrong.** Once the entry has passed its checks, a run by
either executor comes only to instructions of registered functions whose registers are
there, and a fault comes from an instruction that allows it. -/
theorem never_goes_wrong (hs : Reachable s) (he : e.For s) {entry arg : Addr} {shape : ShapeId}
    (hshape : Outcome.shape (s.resultShape entry) s = .ok shape t)
    (hentry : Evaluation.prepareEntry entry arg t = .ok act r.store) :
    (∀ v, e.Visits act r v → v.Sound) ∧
    ∀ f site r', e.way act r = .error (.fault f site) r' →
      ∃ func place b i, site = some ⟨func, place⟩ ∧ r'.store.body? func = some b ∧
        b.code[place]? = some i ∧ Fault.Of i b f := by
  have ht : t = (Operation.outcomeShape (s.resultShape entry)).apply s := by
    show t = (Outcome.shape (s.resultShape entry) s).state
    rw [hshape]
    rfl
  have htw : t.WellFormed := ht ▸ (hs.step _).wellFormed
  obtain ⟨hrt, hact, -⟩ := (Evaluation.prepareEntry_ends htw entry arg).of_ok hentry
  have het : e.For r.store := by
    rw [hrt, ht]
    exact he.step _
  have hr : r.store.WellFormed := hrt ▸ htw
  have hact : act.Sound r.store := hrt ▸ hact
  exact ⟨fun v hv => hv.sound het hr hact, fun f site r' h => way_sound h het hr hact⟩

/-- The relay comes to the function that replaces the one it calls, and has no room for the call
where only one frame may live; composed code visits what is sound, too. -/
theorem relay_never_goes_wrong :
    (∃ v, (machine .standard).Visits .relay ⟨.withRelayOutcome, 100, .start .none⟩ v ∧
      v.act.func = ⟨0⟩ ∧ v.Sound) ∧
    (∃ r' func place b i, (machine ⟨100, 1⟩).way .relay ⟨.withRelayOutcome, 100, .start .none⟩ =
        .error (.fault .callDepth (some ⟨func, place⟩)) r' ∧
      r'.store.body? func = some b ∧ b.code[place]? = some i ∧ Fault.Of i b .callDepth) ∧
    ∀ v, (composed (.compose .withRelay) .standard).Visits .relay
      ⟨.withRelayOutcome, 100, .start .none⟩ v → v.Sound := by
  have hrelay {e : Executor} (he : e.For .withRelay) :=
    never_goes_wrong (r := ⟨.withRelayOutcome, 100, .start .none⟩) .withRelay he Store.shape_relay
      Evaluation.prepareEntry_relay
  refine ⟨?_, ?_, ?_⟩
  · have hvisits : (machine .standard).Visits .relay ⟨.withRelayOutcome, 100, .start .none⟩ _ :=
      ⟨_, .step (.step (.step (.step .refl rfl rfl) rfl rfl) rfl rfl) rfl rfl, rfl⟩
    exact ⟨_, hvisits, rfl, (hrelay (e := machine .standard) trivial).1 _ hvisits⟩
  · have hway : (machine ⟨100, 1⟩).way .relay ⟨.withRelayOutcome, 100, .start .none⟩ =
        .error (.fault .callDepth (some ⟨⟨2⟩, 1⟩)) _ := rfl
    obtain ⟨func, place, b, i, hsite, hallowed⟩ :=
      (hrelay (e := machine ⟨100, 1⟩) trivial).2 _ _ _ hway
    cases hsite
    exact ⟨_, ⟨2⟩, 1, b, i, hway, hallowed⟩
  · exact (hrelay (e := composed (.compose .withRelay) .standard)
      ⟨_, .withRelay, .refl, rfl⟩).1

end Executor

end ValueMachine
