import ValueMachine.Proofs.Eval.Soundness

/-! The machine never goes wrong.

A machine is sound if its store is well-formed, its frames are sound and stand inside
their code, and every result that is waited for has a register to go to. A step of a
sound machine leaves a sound machine, gives back a value that exists, or stops at the
instruction that it was about to do, for a reason that this instruction allows
(`step_sound`). So does a run. -/
namespace ValueMachine

/-- The stop is not for want of anything that verified code may rely on: a fault is
raised at an instruction of a registered function, which allows it. -/
def Stop.Sound (s : Store) : Stop → Prop
  | fault f site => ∃ func place b i, site = some ⟨func, place⟩ ∧ s.body? func = some b ∧
      b.code[place]? = some i ∧ Fault.Of i b f
  | fatal _ => True

/-- The frame stands before an instruction of a function that it may run. -/
structure Frame.Sound (s : Store) (f : Frame) : Prop where
  act : f.act.Sound s
  regs : f.regs.Sound s f.act.body
  place : f.pc.toNat < f.act.body.code.size

/-- A frame that waits goes on at an instruction, with the result in a register. -/
structure Caller.Sound (s : Store) (c : Caller) : Prop where
  frame : c.frame.Sound s
  dst : c.dst < c.frame.act.body.registers

structure Machine.Sound (m : Machine) : Prop where
  store : m.store.WellFormed
  frame : m.frame.Sound m.store
  callers : ∀ c ∈ m.callers, c.Sound m.store

/-- What a step may lead to. -/
def Step.Sound : Step → Prop
  | more m => m.Sound
  | done value s _ => s.WellFormed ∧ s.Holds value
  | stop e s _ => s.WellFormed ∧ e.Sound s

variable {s t : Store}

theorem Frame.Sound.mono {f : Frame} (h : f.Sound s) (hst : s.Extends t) : f.Sound t :=
  ⟨h.act.mono hst, h.regs.mono hst, h.place⟩

theorem Caller.Sound.mono {c : Caller} (h : c.Sound s) (hst : s.Extends t) : c.Sound t :=
  ⟨h.frame.mono hst, h.dst⟩

/-! ### Places in verified code -/

namespace Store.WellFormed

variable {act : Activation} {place : Nat} {i : Instr}

theorem verified_act (h : s.WellFormed) (hact : act.Sound s) :
    act.body.Verified s.shapes s.size := h.verified' hact.body

theorem code_pos (h : s.WellFormed) (hact : act.Sound s) : 0 < act.body.code.size :=
  (h.verified_act hact).code_pos

theorem next_lt (h : s.WellFormed) (hact : act.Sound s) (hi : act.body.code[place]? = some i)
    (ht : i.isTerminator = false) : place + 1 < act.body.code.size :=
  (h.verified_act hact).next_lt hi ht

theorem bounded_at (h : s.WellFormed) (hact : act.Sound s)
    (hi : act.body.code[place]? = some i) : i.Bounded s act.body :=
  ((h.verified_act hact).instrs place i hi).bounded

theorem target_lt (h : s.WellFormed) (hact : act.Sound s) (hi : act.body.code[place]? = some i)
    {target : UInt32} (ht : target ∈ i.targets) : target.toNat < act.body.code.size :=
  ((h.verified_act hact).instrs place i hi).2.2.1 target ht

end Store.WellFormed

/-! ### Entries -/

namespace Evaluation

/-- The arguments that an argument value stands for are there. -/
theorem unpack_ends (h : s.WellFormed) (arity : Nat) (arg : Addr) :
    Ends (Work.unpack arity arg s) (fun args t => t = s ∧ ∀ a ∈ args, s.Holds a)
      fun _ _ => True := by
  refine Ends.bind (Work.ask_ends (fun v hv => ?_) fun _ _ => trivial)
  have hv : s.value? arg = some v := Store.lift_resolve_eq_ok_iff.mp hv
  split
  · exact ⟨rfl, List.forall_mem_singleton.mpr ⟨v, hv⟩⟩
  · split
    · exact ⟨rfl, fun a ha => h.holds_of_child hv ha⟩
    · trivial
  · trivial

/-- An entry that passes the checks is sound. -/
theorem prepareEntry_ends (h : s.WellFormed) (entry arg : Addr) :
    Ends (prepareEntry entry arg s)
      (fun act t => t = s ∧ act.Sound s ∧ act.owed = act.body.result) fun _ _ => True := by
  refine Ends.bind (Work.ask_ends (fun v hv => ?_) fun _ _ => trivial)
  have hv : s.value? entry = some v := Store.lift_resolve_eq_ok_iff.mp hv
  cases v with
  | function f captures =>
    refine Ends.bind (Work.ask_ends (fun b _ => ?_) fun _ _ => trivial)
    refine (unpack_ends h b.arity arg).bind_same fun args hargs => ?_
    exact (Work.prepare_ends (i := .nop) (b := b) h ⟨_, hv⟩ hargs (by simp)).imp
      (fun _ _ hact => hact) fun _ _ _ => trivial
  | _ => trivial

end Evaluation

/-! ### Steps -/

/-- The next place, counted in 32 bits, is the next place. -/
theorem next_place {pc : UInt32} {n : Nat} (h : pc.toNat + 1 < n) (hn : n < 2 ^ 32) :
    (pc + 1).toNat = pc.toNat + 1 := by
  rw [UInt32.toNat_add]
  exact Nat.mod_eq_of_lt (by simp; omega)

theorem Frame.Sound.enter {act : Activation} (h : s.WellFormed) (hact : act.Sound s)
    (scope : Scope) : (Frame.enter act scope).Sound s :=
  ⟨hact, .fresh s act, h.code_pos hact⟩

theorem Caller.Sound.resume {c : Caller} (h : c.Sound s) {value : Addr} (hv : s.Holds value) :
    (c.resume value).Sound s :=
  ⟨h.frame.act, h.frame.regs.set hv c.dst, h.frame.place⟩

namespace Machine

/-- A step of a sound machine. -/
theorem step_sound {m : Machine} (h : m.Sound) {i : Instr} (hi : m.fetch = some i) (maxDepth : Nat) :
    (m.step maxDepth i).Sound := by
  obtain ⟨hs, ⟨hact, hregs, -⟩, hcallers⟩ := h
  have hexec := Instr.exec_sound hs hact hregs (hs.bounded_at hact hi)
  have hgrows := Instr.exec_follows Store.interns_grows m.frame.act m.frame.regs i
  have hnext (hterm : i.isTerminator = false) :
      (m.frame.pc + 1).toNat < m.frame.act.body.code.size := by
    have hlt := hs.next_lt hact hi hterm
    rw [next_place hlt (hs.verified_act hact).size_lt]
    exact hlt
  have htakes := m.step_takes maxDepth i
  generalize m.step maxDepth i = x at htakes
  cases htakes with
  | @halt e t hx =>
    obtain ⟨hst, ht⟩ := hgrows.of_error hx hs
    refine ⟨ht, ?_⟩
    cases e with
    | fault f => exact ⟨_, _, _, _, rfl, hst.body? hact.body, hi, hexec.of_error hx⟩
    | fatal e => trivial
  | next hx =>
    obtain ⟨hst, ht⟩ := hgrows.of_ok hx hs
    obtain ⟨-, hregs', hterm⟩ := hexec.of_ok hx
    exact ⟨ht, ⟨hact.mono hst, hregs', hnext hterm⟩, fun c hc => (hcallers c hc).mono hst⟩
  | goto hx =>
    obtain ⟨hst, ht⟩ := hgrows.of_ok hx hs
    obtain ⟨-, hregs', htarget⟩ := hexec.of_ok hx
    exact ⟨ht, ⟨hact.mono hst, hregs', hs.target_lt hact hi htarget⟩,
      fun c hc => (hcallers c hc).mono hst⟩
  | deep hx hd =>
    obtain ⟨hst, ht⟩ := hgrows.of_ok hx hs
    exact ⟨ht, _, _, _, _, rfl, hst.body? hact.body, hi, .plain trivial⟩
  | call hx hd =>
    obtain ⟨hst, ht⟩ := hgrows.of_ok hx hs
    obtain ⟨-, hregs', hterm, hdst, hcallee⟩ := hexec.of_ok hx
    refine ⟨ht, .enter ht hcallee _, List.forall_mem_cons.mpr ⟨?_, fun c hc =>
      (hcallers c hc).mono hst⟩⟩
    exact ⟨⟨hact.mono hst, hregs', hnext hterm⟩, (hs.bounded_at hact hi).1 _ hdst⟩
  | replace hx =>
    obtain ⟨hst, ht⟩ := hgrows.of_ok hx hs
    obtain ⟨-, -, hcallee, -⟩ := hexec.of_ok hx
    exact ⟨ht, .enter ht hcallee _, fun c hc => (hcallers c hc).mono hst⟩
  | done hx hc =>
    obtain ⟨-, -, hfits, -⟩ := hexec.of_ok hx
    exact ⟨(hgrows.of_ok hx hs).2, (Store.holds_of_fits hfits).1⟩
  | resume hx hc =>
    obtain ⟨hst, ht⟩ := hgrows.of_ok hx hs
    obtain ⟨-, -, hfits, -⟩ := hexec.of_ok hx
    rw [hc] at hcallers
    obtain ⟨hcaller, hrest⟩ := List.forall_mem_cons.mp hcallers
    exact ⟨ht, (hcaller.mono hst).resume (Store.holds_of_fits hfits).1,
      fun c hc => (hrest c hc).mono hst⟩

/-- A sound machine has an instruction to do. -/
theorem Sound.fetch {m : Machine} (h : m.Sound) : ∃ i, m.fetch = some i :=
  ⟨_, Array.getElem?_eq_getElem h.frame.place⟩

/-- A run of a sound machine. -/
theorem run_sound {m : Machine} (h : m.Sound) (maxDepth fuel : Nat) :
    Ends (run maxDepth fuel m) (fun value r => r.store.WellFormed ∧ r.store.Holds value)
      (fun e r => r.store.WellFormed ∧ e.Sound r.store) := by
  refine run_ends (fun m _ => m.Sound) h (fun m fuel h hi => ?_) (fun m h => ⟨h.store, trivial⟩)
    fun m fuel i h hi => ?_
  · obtain ⟨i, hi'⟩ := h.fetch
    cases hi.symm.trans hi'
  · have hstep := step_sound h hi maxDepth
    generalize m.step maxDepth i = x at hstep
    cases x <;> exact hstep

/-- The second machine comes from the first by steps. -/
inductive Reaches (maxDepth : Nat) (m : Machine) : Machine → Prop
  | refl : Reaches maxDepth m m
  | step {m' m'' : Machine} {i : Instr} (h : Reaches maxDepth m m') (hi : m'.fetch = some i)
    (hm : m'.step maxDepth i = .more m'') : Reaches maxDepth m m''

theorem Reaches.sound {maxDepth : Nat} {m m' : Machine} (hr : Reaches maxDepth m m')
    (h : m.Sound) : m'.Sound := by
  induction hr with
  | refl => exact h
  | step _ hi hm ih =>
    have hstep := step_sound ih hi maxDepth
    rw [hm] at hstep
    exact hstep

theorem sound_entry {act : Activation} {r : RunState} (hr : r.store.WellFormed)
    (hact : act.Sound r.store) : (entry act r).Sound :=
  ⟨hr, .enter hr hact _, fun _ hc => absurd hc List.not_mem_nil⟩

end Machine

end ValueMachine
