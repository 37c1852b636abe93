import ValueMachine.Proofs.Eval.Equality
import ValueMachine.Proofs.Eval.Nesting
import ValueMachine.Proofs.Eval.Safety

/-! Calls are kept apart from the frames that wait for them.

A frame that has been pushed by a call, or a function that has taken its place since, may
call others in turn; it returns when the depth sinks below its own for the first time
(`Machine.Keeps`, `Machine.Returns`). Until then the frames below are what they were. Right
above them there is always a frame that owes what the called function declares (`Above`):
whatever takes the place of this frame takes over its debt. So the value that is given back
has the declared shape, and only the register that waits for it changes
(`Machine.calls_are_isolated`). -/
namespace ValueMachine

variable {s t : Store} {act : Activation} {regs : Regs} {i : Instr} {maxDepth : Nat}

/-! ### Calls and returns -/

namespace Work

theorem readReg_eq_ok_iff {r : Reg} {a : Addr} :
    readReg regs r s = .ok a t ↔ regs[r.toNat]? = some (some a) ∧ s = t := by
  constructor
  · intro h
    unfold readReg at h
    rcases hr : regs[r.toNat]? with _ | _ | found
    · rw [hr] at h
      cases h
    · rw [hr] at h
      cases h
    · rw [hr] at h
      cases h
      exact ⟨rfl, rfl⟩
  · intro h
    obtain ⟨hr, rfl⟩ := h
    exact readReg_of_some hr

theorem readRegs_same {rs : List Reg} {found : List Addr} (h : readRegs regs rs s = .ok found t) :
    s = t := (readRegs_follows (R := Eq) regs rs).of_ok h

/-- A prepared activation runs the function that the value at the address stands for. -/
theorem prepare_names {callee : Addr} {args : List Addr} {owed : Option ShapeId} {act : Activation}
    (h : prepare callee args owed s = .ok act t) : s = t ∧
      (∃ captures, s.value? callee = some (.function act.func captures)) ∧
      s.body? act.func = some act.body ∧ act.owed = owed.getD act.body.result := by
  have hsame : s = t := (prepare_follows (R := Eq) callee args owed).of_ok h
  obtain ⟨v, s', hv, hcall⟩ := run_bind_eq_ok_iff.mp h
  obtain ⟨hvalue, rfl⟩ := value_eq_ok_iff.mp hv
  cases v with
  | function f captures =>
    obtain ⟨b, s'', hb, hchecks⟩ := run_bind_eq_ok_iff.mp hcall
    obtain ⟨hbody, rfl⟩ := ask_eq_ok_iff.mp hb
    by_cases hl : args.length ≠ b.arity
    · rw [if_pos hl] at hchecks
      cases hchecks
    · rw [if_neg hl] at hchecks
      obtain ⟨_, _, -, hact⟩ := run_bind_eq_ok_iff.mp hchecks
      cases hact
      exact ⟨hsame, ⟨captures, hvalue⟩, Store.lift_body_eq_ok_iff.mp hbody, rfl⟩
  | _ => cases hcall

end Work

namespace Instr

/-- A call leaves the registers as they are and runs the function that it names. -/
theorem exec_call {dst func : Reg} {args : List Reg} {out : Regs × Effect}
    (h : (call dst func args).exec act regs s = .ok out t) :
    s = t ∧ ∃ f callee captures, out = (regs, .call dst callee) ∧
      regs[func.toNat]? = some (some f) ∧ s.value? f = some (.function callee.func captures) ∧
      s.body? callee.func = some callee.body ∧ callee.owed = callee.body.result := by
  obtain ⟨f, s1, hread, h⟩ := run_bind_eq_ok_iff.mp h
  obtain ⟨found, s2, hfound, h⟩ := run_bind_eq_ok_iff.mp h
  obtain ⟨callee, s3, hcallee, h⟩ := run_bind_eq_ok_iff.mp h
  obtain ⟨hf, rfl⟩ := Work.readReg_eq_ok_iff.mp hread
  obtain rfl := Work.readRegs_same hfound
  obtain ⟨rfl, ⟨captures, hvalue⟩, hbody, howed⟩ := Work.prepare_names hcallee
  cases h
  exact ⟨rfl, f, callee, captures, rfl, hf, hvalue, hbody, howed⟩

/-- Only a return finishes a function, with the value of its register. -/
theorem exec_finish {regs' : Regs} {value : Addr} (h : i.exec act regs s = .ok (regs', .finish value) t) :
    ∃ src, i = .ret src ∧ regs[src.toNat]? = some (some value) := by
  have hop : i.opcode = .ret := (i.exec_asked act regs s).of_ok h
  cases i with
  | ret src =>
    obtain ⟨found, s1, hfound, h⟩ := run_bind_eq_ok_iff.mp h
    obtain ⟨_, s2, -, h⟩ := run_bind_eq_ok_iff.mp h
    cases h
    exact ⟨src, rfl, (Work.readReg_eq_ok_iff.mp hfound).1⟩
  | _ => cases hop

end Instr

/-! ### What a step makes of the frames -/

/-- The running frame and its callers, after an instruction has left these registers and
this to be done. -/
inductive Effect.Turns (f : Frame) (regs : Regs) : List Caller → Effect → Frame → List Caller → Prop
  | next {callers : List Caller} :
    Turns f regs callers .next { f with regs := regs, pc := f.pc + 1 } callers
  | goto {callers : List Caller} (target : UInt32) :
    Turns f regs callers (.goto target) { f with regs := regs, pc := target } callers
  | call {callers : List Caller} (dst : Reg) (callee : Activation) :
    Turns f regs callers (.call dst callee) (.enter callee (.frame callee.func))
      (⟨{ f with regs := regs, pc := f.pc + 1 }, dst⟩ :: callers)
  | replace {callers : List Caller} (callee : Activation) (inner : Scope) :
    Turns f regs callers (.replace callee inner) (.enter callee inner) callers
  | finish {callers : List Caller} (value : Addr) (c : Caller) :
    Turns f regs (c :: callers) (.finish value) (c.resume value) callers

theorem Effect.Turns.of_call {f g : Frame} {callers callers' : List Caller} {dst : Reg}
    {callee : Activation} (h : (Effect.call dst callee).Turns f regs callers g callers') :
    g = .enter callee (.frame callee.func) ∧
      callers' = ⟨{ f with regs := regs, pc := f.pc + 1 }, dst⟩ :: callers := by
  cases h
  exact ⟨rfl, rfl⟩

theorem Machine.step_turns {m m' : Machine} (h : m.step maxDepth i = .more m') : ∃ regs effect,
    i.exec m.frame.act m.frame.regs m.store = .ok (regs, effect) m'.store ∧
    effect.Turns m.frame regs m.callers m'.frame m'.callers := by
  cases takes_of_more h with
  | next hx => exact ⟨_, _, hx, .next⟩
  | goto hx => exact ⟨_, _, hx, .goto _⟩
  | call hx hd => exact ⟨_, _, hx, .call _ _⟩
  | replace hx => exact ⟨_, _, hx, .replace _ _⟩
  | resume hx hc =>
    rw [hc]
    exact ⟨_, _, hx, .finish _ _⟩

/-! ### The frame above some callers -/

/-- Right above these callers stands a frame that owes the shape. It is the running frame, or
it waits for others above it. -/
inductive Above (below : List Caller) (owed : ShapeId) : Frame → List Caller → Prop
  | top {f : Frame} (h : f.act.owed = owed) : Above below owed f below
  | under {f : Frame} {c : Caller} {callers : List Caller} (h : Above below owed c.frame callers) :
    Above below owed f (c :: callers)

namespace Above

variable {below callers callers' : List Caller} {owed : ShapeId} {f g : Frame} {e : Effect}

theorem callers_eq (h : Above below owed f callers) : ∃ above, callers = above ++ below := by
  induction h with
  | top => exact ⟨[], rfl⟩
  | under _ ih =>
    obtain ⟨above, rfl⟩ := ih
    exact ⟨_ :: above, rfl⟩

theorem length_le (h : Above below owed f callers) : below.length ≤ callers.length := by
  obtain ⟨above, rfl⟩ := h.callers_eq
  simp

/-- Only what the running frame owes matters. -/
theorem of_owed (h : Above below owed f callers) (hg : g.act.owed = f.act.owed) :
    Above below owed g callers := by
  cases h with
  | top h => exact .top (hg.trans h)
  | under h => exact .under h

/-- As long as no frame below is reached, the frame stays where it is and owes the same. -/
theorem turns (h : Above below owed f callers) (ht : e.Turns f regs callers g callers')
    (he : e.Sound t f.act i) (hlength : below.length ≤ callers'.length) :
    Above below owed g callers' := by
  cases ht with
  | next => exact h.of_owed rfl
  | goto target => exact h.of_owed rfl
  | call dst callee => exact .under (h.of_owed rfl)
  | replace callee inner => exact h.of_owed he.2
  | finish value c =>
    cases h with
    | top => exact absurd hlength (Nat.not_succ_le_self _)
    | under h => exact h.of_owed rfl

/-- The frame below is reached when the frame itself finishes, with a value of the shape. -/
theorem turns_back {c : Caller} (h : Above (c :: below) owed f callers)
    (ht : e.Turns f regs callers g callers') (he : e.Sound t f.act i)
    (hlength : callers'.length ≤ below.length) : ∃ value, e = .finish value ∧
      g = c.resume value ∧ callers' = below ∧ t.fits value owed = true := by
  have hle := h.length_le
  cases ht with
  | finish value c' =>
    cases h with
    | top h => exact ⟨value, rfl, rfl, rfl, h ▸ he.2⟩
    | under h =>
      have := h.length_le
      simp at this
      omega
  | _ =>
    simp at hle hlength
    omega

end Above

/-! ### Calls in progress -/

namespace Machine

/-- All frames, the running one first. -/
def liveFrames (m : Machine) : List Frame := m.frame :: m.callers.map (·.frame)

/-- The second machine comes from the first by steps on which the frame that runs in the
first, or what has taken its place, does not return. -/
inductive Keeps (maxDepth : Nat) (m : Machine) : Machine → Prop
  | refl : Keeps maxDepth m m
  | step {n n' : Machine} {i : Instr} (h : Keeps maxDepth m n) (hi : n.fetch = some i)
    (hn : n.step maxDepth i = .more n') (hd : m.depth ≤ n'.depth) : Keeps maxDepth m n'

/-- The frame that runs in the first machine, or what has taken its place, returns a value
and leaves the second machine. -/
def Returns (maxDepth : Nat) (m : Machine) (value : Addr) (n : Machine) : Prop :=
  ∃ last src, m.Keeps maxDepth last ∧ last.fetch = some (.ret src) ∧
    last.frame.regs[src.toNat]? = some (some value) ∧
    last.step maxDepth (.ret src) = .more n ∧ n.depth < m.depth

variable {m n : Machine}

theorem Keeps.reaches (h : m.Keeps maxDepth n) : m.Reaches maxDepth n := by
  induction h with
  | refl => exact .refl
  | step _ hi hn _ ih => exact .step ih hi hn

/-- A step of a sound machine, and what it leaves to be done. -/
theorem step_effect (h : m.Sound) (hi : m.fetch = some i) (hm : m.step maxDepth i = .more n) :
    ∃ regs effect, i.exec m.frame.act m.frame.regs m.store = .ok (regs, effect) n.store ∧
      effect.Turns m.frame regs m.callers n.frame n.callers ∧
      effect.Sound n.store m.frame.act i := by
  obtain ⟨regs, effect, hexec, hturns⟩ := step_turns hm
  have hsound := Instr.exec_sound h.store h.frame.act h.frame.regs
    (h.store.bounded_at h.frame.act hi)
  exact ⟨regs, effect, hexec, hturns, (hsound.of_ok hexec).2.2⟩

/-- While a frame does not return, it stands above the same callers and owes the same. -/
theorem Keeps.above (h : m.Keeps maxDepth n) (hm : m.Sound) :
    Above m.callers m.frame.act.owed n.frame n.callers := by
  induction h with
  | refl => exact .top rfl
  | @step n n' i hk hi hn hd ih =>
    obtain ⟨regs, effect, -, hturns, hsound⟩ := step_effect (hk.reaches.sound hm) hi hn
    apply ih.turns hturns hsound
    rw [m.depth_eq, n'.depth_eq] at hd
    omega

/-- A step that leaves the frame is a return to the innermost of its callers. -/
theorem Keeps.back {n' : Machine} (h : m.Keeps maxDepth n) (hm : m.Sound) (hi : n.fetch = some i)
    (hn : n.step maxDepth i = .more n') (hd : n'.depth < m.depth) :
    ∃ src value c, i = .ret src ∧ n.frame.regs[src.toNat]? = some (some value) ∧
      m.callers = c :: n'.callers ∧ n'.frame = c.resume value ∧
      n'.store.fits value m.frame.act.owed = true := by
  obtain ⟨regs, effect, hexec, hturns, hsound⟩ := step_effect (h.reaches.sound hm) hi hn
  have habove := h.above hm
  rw [m.depth_eq, n'.depth_eq] at hd
  cases hcallers : m.callers with
  | nil =>
    rw [hcallers] at hd
    exact absurd hd (by simp)
  | cons c below =>
    rw [hcallers] at habove hd
    have hlength : n'.callers.length ≤ below.length := by
      rw [List.length_cons] at hd
      omega
    obtain ⟨value, rfl, hframe, rfl, hfits⟩ := habove.turns_back hturns hsound hlength
    obtain ⟨src, hret, hsrc⟩ := Instr.exec_finish hexec
    exact ⟨src, value, c, hret, hsrc, rfl, hframe, hfits⟩

/-- A frame is kept until it returns. -/
theorem Reaches.kept_or_returned (h : m.Reaches maxDepth n) (hm : m.Sound) :
    m.Keeps maxDepth n ∨ ∃ value back, m.Returns maxDepth value back ∧ back.Reaches maxDepth n := by
  induction h with
  | refl => exact .inl .refl
  | @step n n' i hr hi hn ih =>
    rcases ih with hkept | ⟨value, back, hreturns, hback⟩
    · by_cases hd : m.depth ≤ n'.depth
      · exact .inl (hkept.step hi hn hd)
      · have hd : n'.depth < m.depth := Nat.not_le.mp hd
        obtain ⟨src, value, c, rfl, hsrc, -⟩ := hkept.back hm hi hn hd
        exact .inr ⟨value, n', ⟨n, src, hkept, hi, hsrc, hn, hd⟩, .refl⟩
    · exact .inr ⟨value, back, hreturns, .step hback hi hn⟩

/-- What a frame gives back goes to the innermost of its callers and has the shape that the
frame owes. -/
theorem Returns.resumes {value : Addr} (h : m.Returns maxDepth value n) (hm : m.Sound) :
    ∃ c, m.callers = c :: n.callers ∧ n.frame = c.resume value ∧
      n.store.fits value m.frame.act.owed = true := by
  obtain ⟨last, src, hkept, hi, hvalue, hn, hd⟩ := h
  obtain ⟨src', value', c, hret, hvalue', hresumes⟩ := hkept.back hm hi hn hd
  cases hret
  rw [hvalue] at hvalue'
  cases hvalue'
  exact ⟨c, hresumes⟩

end Machine

/-! ### Typed frames -/

/-- The frame runs a registered function on arguments of the shapes of its parameters, and
what it has captured and put into registers is there. -/
structure Frame.Typed (s : Store) (f : Frame) : Prop where
  body : s.body? f.act.func = some f.act.body
  args : List.Forall₂ (fun a t => s.fits a t = true) f.act.args.toList f.act.body.params
  captures : ∀ a ∈ f.act.captures.toList, s.Holds a
  regs : ∀ (i : Nat) a, f.regs[i]? = some (some a) → s.Holds a

/-- The second frame is the first one with a value in a register. -/
structure Frame.Receives (f : Frame) (dst : Reg) (value : Addr) (g : Frame) : Prop where
  act : g.act = f.act
  pc : g.pc = f.pc
  scope : g.scope = f.scope
  given : g.regs[dst.toNat]? = some (some value)
  others : ∀ i, i ≠ dst.toNat → g.regs[i]? = f.regs[i]?

theorem Frame.Sound.typed {f : Frame} (h : f.Sound s) : f.Typed s :=
  ⟨h.act.body, h.act.args, h.act.captures, h.regs.holds⟩

theorem Caller.Sound.receives {c : Caller} (h : c.Sound s) (value : Addr) :
    c.frame.Receives c.dst value (c.resume value) := by
  have hlt : c.dst.toNat < c.frame.regs.size := by
    rw [h.frame.regs.size]
    exact UInt32.lt_iff_toNat_lt.mp h.dst
  refine ⟨rfl, rfl, rfl, Regs.getElem?_set hlt value, fun i hi => ?_⟩
  exact Array.getElem?_setIfInBounds_ne hi.symm

theorem Machine.Sound.typed {m : Machine} (h : m.Sound) : ∀ f ∈ m.liveFrames, f.Typed m.store := by
  intro f hf
  rcases List.mem_cons.mp hf with rfl | hwaits
  · exact h.frame.typed
  · obtain ⟨c, hc, rfl⟩ := List.mem_map.mp hwaits
    exact (h.callers c hc).frame.typed

namespace Machine

/-- A call by the first machine that has led to the second: the frame that waits stands
right after the call, and while the called function or what has taken its place does not
return, the frames below are as they were then. When it returns, a value of the declared
shape goes to the register of the call, and nothing else has changed. -/
structure Isolated (maxDepth : Nat) (m inner : Machine) (dst : Reg) (declared : ShapeId) : Prop where
  waits : inner.callers = ⟨{ m.frame with pc := m.frame.pc + 1 }, dst⟩ :: m.callers
  kept : ∀ n, inner.Keeps maxDepth n → ∃ above, n.callers = above ++ inner.callers
  given : ∀ value n, inner.Returns maxDepth value n →
    { m.frame with pc := m.frame.pc + 1 }.Receives dst value n.frame ∧ n.callers = m.callers ∧
      n.store.fits value declared = true
  ends : ∀ n, inner.Reaches maxDepth n → inner.Keeps maxDepth n ∨
    ∃ value back, inner.Returns maxDepth value back ∧ back.Reaches maxDepth n

/-- A call by a sound machine is isolated, with the result that is declared by the function
that it names. -/
theorem Sound.isolated {m inner : Machine} (h : m.Sound) {dst func : Reg} {args : List Reg}
    (hi : m.fetch = some (.call dst func args))
    (hm : m.step maxDepth (.call dst func args) = .more inner) :
    ∃ f id captures b, m.frame.regs[func.toNat]? = some (some f) ∧
      m.store.value? f = some (.function id captures) ∧ m.store.body? id = some b ∧
      inner.frame.act.body = b ∧ m.Isolated maxDepth inner dst b.result := by
  have hinner : inner.Sound := Reaches.sound (.step .refl hi hm) h
  obtain ⟨regs, effect, hexec, hturns⟩ := step_turns hm
  obtain ⟨-, f, callee, captures, hout, hf, hvalue, hbody, howed⟩ := Instr.exec_call hexec
  cases hout
  obtain ⟨hframe, hcallers⟩ := hturns.of_call
  have hact : inner.frame.act = callee := congrArg Frame.act hframe
  refine ⟨f, callee.func, captures, callee.body, hf, hvalue, hbody, congrArg Activation.body hact, ?_⟩
  refine ⟨hcallers, fun n hn => (hn.above hinner).callers_eq, fun value n hn => ?_,
    fun n hn => hn.kept_or_returned hinner⟩
  obtain ⟨c, hc, hresume, hfits⟩ := hn.resumes hinner
  rw [hcallers] at hc
  obtain ⟨rfl, hbelow⟩ := List.cons.inj hc
  have hwaits := hinner.callers _ (hcallers ▸ List.mem_cons_self)
  rw [hact, howed] at hfits
  exact ⟨hresume ▸ hwaits.receives value, hbelow.symm, hfits⟩

end Machine

/-! ### Isolation -/

namespace Machine

/-- **Frames are typed, and calls are kept apart from the frames that wait.** At any step of a
run, arguments have the shapes of their parameters, and what is captured or stands in a
register is there. A call changes nothing of the frames below until its result is given
back, and the result has the shape that is declared by the function that was called. -/
theorem calls_are_isolated (hs : Reachable s) {entry arg : Addr} {shape : ShapeId} {r : RunState}
    (hshape : Outcome.shape (s.resultShape entry) s = .ok shape t)
    (hentry : Evaluation.prepareEntry entry arg t = .ok act r.store) {m : Machine}
    (hm : (Machine.entry act r).Reaches maxDepth m) :
    (∀ f ∈ m.liveFrames, f.Typed m.store) ∧
    ∀ dst func args inner, m.fetch = some (.call dst func args) →
      m.step maxDepth (.call dst func args) = .more inner →
      ∃ f id captures b, m.frame.regs[func.toNat]? = some (some f) ∧
        m.store.value? f = some (.function id captures) ∧ m.store.body? id = some b ∧
        inner.frame.act.body = b ∧ m.Isolated maxDepth inner dst b.result := by
  have ht : t = (Operation.outcomeShape (s.resultShape entry)).apply s := by
    show t = (Outcome.shape (s.resultShape entry) s).state
    rw [hshape]
    rfl
  have htw : t.WellFormed := ht ▸ (hs.step _).wellFormed
  obtain ⟨hrt, hact, -⟩ := (Evaluation.prepareEntry_ends htw entry arg).of_ok hentry
  have hsound : m.Sound := hm.sound (sound_entry (hrt ▸ htw) (hrt ▸ hact))
  exact ⟨hsound.typed, fun dst func args inner hi hstep => hsound.isolated hi hstep⟩

/-- The second function is called and replaced by the first one, and what that returns is given
back to the register of the call. -/
theorem calls_are_isolated_relay :
    ∃ m inner, (entry .relay ⟨.withRelayOutcome, 100, .start .none⟩).Reaches 2 m ∧
      m.fetch = some (.call 1 0 []) ∧ m.step 2 (.call 1 0 []) = .more inner ∧
      m.Isolated 2 inner 1 ShapeId.unit ∧
      ∃ n, inner.Returns 2 Addr.unit n ∧ n.frame.regs = #[some ⟨4⟩, some Addr.unit] := by
  have hm : (entry .relay ⟨.withRelayOutcome, 100, .start .none⟩).Reaches 2 _ :=
    .step .refl rfl rfl
  obtain ⟨-, hcalls⟩ := calls_are_isolated .withRelay Store.shape_relay
    Evaluation.prepareEntry_relay hm
  obtain ⟨f, id, captures, b, hf, hvalue, hbody, -, hisolated⟩ := hcalls 1 0 [] _ rfl rfl
  cases hf
  cases hvalue
  cases hbody
  refine ⟨_, _, hm, rfl, rfl, hisolated, _, ⟨_, 0,
    .step (.step (.step .refl rfl rfl ?_) rfl rfl ?_) rfl rfl ?_, rfl, rfl, rfl, ?_⟩, ?_⟩
  · exact Nat.le_refl 2
  · exact Nat.le_refl 2
  · exact Nat.le_refl 2
  · exact Nat.lt_succ_self 1
  · rfl

end Machine

end ValueMachine
