import ValueMachine.Proofs.Eval.Chunks
import ValueMachine.Proofs.Eval.Frames
import ValueMachine.Proofs.Operation

/-! Composed code never goes wrong.

A `Spot` is where composed code stands: what remains of a chunk, in a frame, with the
state of the run. `Spot.Next` leads to the spots that come after it, into a call as well
as behind it. A sound spot leads to sound spots only (`Spot.Next.sound`), and a run ends
with a value that exists or fails at a spot that it has come to (`runFrame_ends`). -/
namespace ValueMachine

variable {s t : Store}

/-! ### Instructions with numbers for targets -/

/-- What is left to be done, with another target. -/
def Effect.retarget (f : UInt32 → UInt32) : Effect → Effect
  | goto target => goto (f target)
  | e => e

theorem Work.targetFor_map (f : UInt32 → UInt32) (targets : Array UInt32) (tag : UInt32) :
    targetFor (targets.map f) tag = f <$> targetFor targets tag := by
  unfold targetFor
  rw [Array.getElem?_map, Array.size_map]
  cases targets[tag.toNat]? <;> rfl

theorem Work.into_retarget (f : UInt32 → UInt32) (regs : Regs) (dst : Reg) (x : Work Addr) :
    into regs dst x = (fun out => (out.1, out.2.retarget f)) <$> into regs dst x := by
  unfold into
  simp only [map_bind, map_pure]
  rfl

/-- An instruction with other targets does the same, and goes elsewhere. -/
theorem Instr.exec_retarget (f : UInt32 → UInt32) (act : Activation) (regs : Regs) (i : Instr) :
    (i.retarget f).exec act regs =
      (fun out => (out.1, out.2.retarget f)) <$> i.exec act regs := by
  cases i with
  | branch scrutinee payload targets =>
    simp only [retarget, exec, map_bind, Work.targetFor_map, bind_map_left, map_pure]
    rfl
  | call | tailCall | defer | ret =>
    simp only [retarget, exec, map_bind, map_pure]
    rfl
  | nop | jmp | trap => rfl
  | _ => exact Work.into_retarget f regs _ _

/-- What is left to be done in a chunk is sound, at a place of which so much code remains. -/
def Effect.Within (s : Store) (act : Activation) (number : Nat) (rest : List Instr) (place : Nat) :
    Effect → Prop
  | next => Chunk.Within act.body.code number rest (place + 1)
  | goto target => ∃ place, Chunk.At act.body.code target.toNat place
  | call dst callee => Chunk.Within act.body.code number rest (place + 1) ∧
      dst < act.body.registers ∧ callee.Sound s
  | replace callee _ => callee.Sound s ∧ callee.owed = act.owed
  | finish value => s.fits value act.owed = true

section Instruction
variable {act : Activation} {regs : Regs} {i : Instr} {rest : List Instr} {number place : Nat}

/-- An instruction of a chunk. -/
theorem Chunk.exec_ends (h : s.WellFormed) (hact : act.Sound s) (hr : regs.Sound s act.body)
    (hw : Chunk.Within act.body.code number (i :: rest) place) :
    Ends (i.exec act regs s)
      (fun out t => s.Extends t ∧ t.WellFormed ∧ out.1.Sound t act.body ∧
        out.2.Within t act number rest place)
      (fun e t => s.Extends t ∧ t.WellFormed ∧ ∃ j, act.body.code[place]? = some j ∧
        e.If (Fault.Of j act.body)) := by
  obtain ⟨j, hj, rfl⟩ := hw.head
  have hexec := Instr.exec_sound h hact hr (h.bounded_at hact hj)
  have hgrows := Instr.exec_follows Store.interns_grows act regs j s h
  rw [Instr.exec_retarget]
  refine Ends.map ?_
  cases hx : j.exec act regs s with
  | error e t =>
    rw [hx] at hgrows hexec
    exact ⟨hgrows.1, hgrows.2, j, hj, hexec⟩
  | ok out t =>
    rw [hx] at hgrows hexec
    obtain ⟨regs', effect⟩ := out
    obtain ⟨hst, hregs, heffect⟩ := hexec
    refine ⟨hst, hgrows.2, hregs, ?_⟩
    have hnext (hterm : j.isTerminator = false) :
        Chunk.Within act.body.code number rest (place + 1) := hw.next (h.next_lt hact hj hterm)
    cases effect with
    | next => exact hnext heffect
    | goto target =>
      exact ⟨_, Chunk.at_target (Array.mem_of_getElem? hj) heffect (h.target_lt hact hj heffect)
        (h.verified_act hact).size_lt⟩
    | call dst callee =>
      exact ⟨hnext heffect.1, (h.bounded_at hact hj).1 dst heffect.2.1, heffect.2.2⟩
    | replace callee inner => exact heffect
    | finish value => exact heffect.2

end Instruction

/-! ### Runs -/

namespace Exec

/-- Pays for an instruction and does it. -/
def instr (act : Activation) (i : Instr) (place : Nat) (regs : Regs) : Exec (Regs × Effect) := do
  tick
  work ⟨act.func, place⟩ (i.exec act regs)

section Instruction
variable {act : Activation} {i : Instr} {regs : Regs} {store : Store}

theorem work_of_ok {α : Type} {w : Work α} {x : α} (h : w store = .ok x t) (site : Site) (fuel : Nat)
    (trace : Trace) : work site w ⟨store, fuel, trace⟩ = .ok x ⟨t, fuel, trace⟩ := by
  unfold work
  dsimp only
  rw [h]

theorem work_of_error {α : Type} {w : Work α} {e : Halt} (h : w store = .error e t) (site : Site)
    (fuel : Nat) (trace : Trace) :
    work site w ⟨store, fuel, trace⟩ = .error (e.at (some site)) ⟨t, fuel, trace⟩ := by
  unfold work
  dsimp only
  rw [h]

theorem instr_of_ok {out : Regs × Effect} (h : i.exec act regs store = .ok out t)
    (place fuel : Nat) (trace : Trace) :
    instr act i place regs ⟨store, fuel + 1, trace⟩ = .ok out ⟨t, fuel, trace⟩ :=
  work_of_ok h _ fuel trace

theorem instr_of_error {e : Halt} (h : i.exec act regs store = .error e t)
    (place fuel : Nat) (trace : Trace) :
    instr act i place regs ⟨store, fuel + 1, trace⟩ =
      .error (e.at (some ⟨act.func, place⟩)) ⟨t, fuel, trace⟩ :=
  work_of_error h _ fuel trace

end Instruction

/-- How the functions are run that a frame calls, under which so many more may be
opened. -/
def callees (p : Program) : Nat → Nat → Runner
  | 0, _ => tooDeep
  | deeper + 1, depth => fun _ callee => runFrame p deeper (depth + 1) callee

theorem runFrame_eq (p : Program) (deeper depth : Nat) (act : Activation) (r : RunState) :
    runFrame p deeper depth act r =
      runChunks (callees p deeper depth) p depth (r.fuel + 1) act (.frame act.func) 0 act.freshRegs
        { r with trace := r.trace.emit (.enter (.frame act.func) depth) } := by
  cases deeper <;> rfl

/-- What a chunk leaves to be done after an instruction. -/
def afterInstr (runner : Runner) (act : Activation) (following : Nat) (rest : List Instr)
    (place : Nat) (out : Regs × Effect) : Exec ChunkEnd :=
  match out.2 with
  | .next => runCode runner act following rest (place + 1) out.1
  | .goto target => return .jump target.toNat out.1
  | .call dst callee => do
    let value ← runner ⟨act.func, place⟩ callee
    runCode runner act following rest (place + 1) (out.1.set dst value)
  | .replace callee scope => return .replace callee scope
  | .finish value => return .finish value

theorem runCode_cons (runner : Runner) (act : Activation) (following : Nat) (i : Instr)
    (rest : List Instr) (place : Nat) (regs : Regs) :
    runCode runner act following (i :: rest) place regs =
      instr act i place regs >>= afterInstr runner act following rest place := by
  rw [instr, bind_assoc]
  rfl

/-- What a frame leaves to be done after a chunk. -/
def afterChunk (runner : Runner) (p : Program) (depth n : Nat) (act : Activation) (scope : Scope) :
    ChunkEnd → Exec Addr
  | .jump number regs => runChunks runner p depth n act scope number regs
  | .finish value => do
    emit (.exit scope depth)
    return value
  | .replace callee inner => do
    emit (.exit scope depth)
    emit (.enter inner depth)
    runChunks runner p depth n callee inner 0 callee.freshRegs

theorem runChunks_succ (runner : Runner) {p : Program} (depth n : Nat) {act : Activation}
    (scope : Scope) {number : Nat} (regs : Regs) {chunks : Array Chunk} {c : Chunk}
    (hp : p.functions[act.func.index]? = some chunks) (hc : chunks[number]? = some c) :
    runChunks runner p depth (n + 1) act scope number regs =
      runCode runner act (number + 1) c.code c.start regs >>=
        afterChunk runner p depth n act scope := by
  rw [runChunks, hp]
  dsimp only
  rw [hc]
  rfl

theorem runChunks_of_absent (runner : Runner) {p : Program} (depth n : Nat) {act : Activation}
    (scope : Scope) (number : Nat) (regs : Regs) (hp : p.functions[act.func.index]? = none) :
    runChunks runner p depth (n + 1) act scope number regs =
      throw (.fatal (.notComposed act.func)) := by
  rw [runChunks, hp]

theorem runChunks_of_missing (runner : Runner) {p : Program} (depth n : Nat) {act : Activation}
    (scope : Scope) {number : Nat} (regs : Regs) {chunks : Array Chunk}
    (hp : p.functions[act.func.index]? = some chunks) (hc : chunks[number]? = none) :
    runChunks runner p depth (n + 1) act scope number regs =
      throw (.fault (.mismatch .missingTerminator) (some ⟨act.func, 0⟩)) := by
  rw [runChunks, hp]
  dsimp only
  rw [hc]

end Exec

/-! ### Spots -/

/-- The program is made of functions of the store. -/
def Program.From (p : Program) (s : Store) : Prop :=
  ∀ (i : Nat) chunks, p.functions[i]? = some chunks →
    ∃ b, s.functions[i]? = some b ∧ chunks = Chunk.ofCode b.code

theorem Program.From.mono {p : Program} (h : p.From s) (hst : s.Extends t) : p.From t :=
  fun i chunks hi => (h i chunks hi).imp fun b hb => ⟨hst.functions i b hb.1, hb.2⟩

theorem Program.from_compose (s : Store) : (Program.compose s).From s := by
  intro i chunks h
  unfold compose at h
  rw [Array.getElem?_map] at h
  obtain ⟨b, hb, rfl⟩ := Option.map_eq_some_iff.mp h
  exact ⟨b, hb, rfl⟩

/-- A program that was composed from the store earlier is made of its functions. -/
theorem Program.from_of_leads {s₀ : Store} (h : Reachable s₀) (hl : Leads s₀ s) :
    (Program.compose s₀).From s := (from_compose s₀).mono (hl.grows h.wellFormed).1

/-- Where composed code stands. -/
structure Spot where
  /-- How many more frames may be opened. -/
  deeper : Nat
  depth : Nat
  act : Activation
  scope : Scope
  number : Nat
  /-- What remains of the chunk. -/
  code : List Instr
  place : Nat
  regs : Regs
  state : RunState

namespace Spot

/-- The spot at the start of a chunk. -/
def onChunk (a : Spot) (c : Chunk) : Spot := { a with code := c.code, place := c.start }

/-- The spot at the start of its chunk, if the program has the chunk. -/
def open? (p : Program) (a : Spot) : Option Spot := do
  let chunks ← p.functions[a.act.func.index]?
  let c ← chunks[a.number]?
  return a.onChunk c

/-- The spot at the start of a frame, before its code is looked at. -/
def first (deeper depth : Nat) (act : Activation) (scope : Scope) (r : RunState) : Spot :=
  ⟨deeper, depth, act, scope, 0, [], 0, act.freshRegs, r⟩

/-- The spot at the start of a frame that is opened. -/
def start? (p : Program) (deeper depth : Nat) (act : Activation) (r : RunState) : Option Spot :=
  open? p (first deeper depth act (.frame act.func)
    { r with trace := r.trace.emit (.enter (.frame act.func) depth) })

/-- The spot behind an instruction of a chunk. -/
def past (a : Spot) (rest : List Instr) (regs : Regs) (r : RunState) : Spot :=
  { a with code := rest, place := a.place + 1, regs := regs, state := r }

/-- The spot in another chunk of the frame. -/
def jump (a : Spot) (number : Nat) (regs : Regs) (r : RunState) : Spot :=
  { a with number := number, regs := regs, state := r }

/-- The spot in a frame that takes the place of this one. -/
def replace (a : Spot) (callee : Activation) (inner : Scope) (r : RunState) : Spot :=
  first a.deeper a.depth callee inner
    { r with trace := (r.trace.emit (.exit a.scope a.depth)).emit (.enter inner a.depth) }

/-- The instruction at the spot is done. -/
def Does (a : Spot) (rest : List Instr) (regs : Regs) (e : Effect) (r : RunState) : Prop :=
  ∃ i, a.code = i :: rest ∧ Exec.instr a.act i a.place a.regs a.state = .ok (regs, e) r

/-- The second spot comes right after the first. -/
inductive Next (p : Program) (a : Spot) : Spot → Prop
  | next {rest regs r} (h : a.Does rest regs .next r) : Next p a (a.past rest regs r)
  | jump {rest regs target r b} (h : a.Does rest regs (.goto target) r)
    (hb : (a.jump target.toNat regs r).open? p = some b) : Next p a b
  | fall {b} (h : a.code = []) (hb : (a.jump (a.number + 1) a.regs a.state).open? p = some b) :
    Next p a b
  | enter {rest regs dst callee r deeper b} (h : a.Does rest regs (.call dst callee) r)
    (hd : a.deeper = deeper + 1) (hb : start? p deeper (a.depth + 1) callee r = some b) : Next p a b
  | resume {rest regs dst callee r deeper value r'} (h : a.Does rest regs (.call dst callee) r)
    (hd : a.deeper = deeper + 1)
    (hv : Exec.runFrame p deeper (a.depth + 1) callee r = .ok value r') :
    Next p a (a.past rest (regs.set dst value) r')
  | replace {rest regs callee inner r b} (h : a.Does rest regs (.replace callee inner) r)
    (hb : (a.replace callee inner r).open? p = some b) : Next p a b

/-- The run comes to the second spot from the first. -/
def Visits (p : Program) : Spot → Spot → Prop := Relation.ReflTransGen (Next p)

/-- The run fails at the spot. -/
inductive Fails (a : Spot) : Stop → RunState → Prop
  | instr {i rest e r} (hi : a.code = i :: rest)
    (h : Exec.instr a.act i a.place a.regs a.state = .error e r) : Fails a e r
  | deep {rest regs dst callee r} (h : a.Does rest regs (.call dst callee) r) (hd : a.deeper = 0) :
    Fails a (.fault .callDepth (some ⟨a.act.func, a.place⟩)) r

/-- A fault comes from a spot that the run has come to from the first one. -/
def FailsFrom (p : Program) (first : Option Spot) (e : Stop) (r : RunState) : Prop :=
  match e with
  | .fault _ _ => ∃ a b, first = some a ∧ Visits p a b ∧ b.Fails e r
  | .fatal _ => True

/-- The spot is in a sound frame of a well-formed store, and its code remains of its
chunk. -/
structure Sound (a : Spot) : Prop where
  store : a.state.store.WellFormed
  act : a.act.Sound a.state.store
  regs : a.regs.Sound a.state.store a.act.body
  within : Chunk.Within a.act.body.code a.number a.code a.place

/-- The same before the code is looked at. -/
structure Ready (p : Program) (a : Spot) : Prop where
  program : p.From a.state.store
  store : a.state.store.WellFormed
  act : a.act.Sound a.state.store
  regs : a.regs.Sound a.state.store a.act.body
  number : ∃ place, Chunk.At a.act.body.code a.number place

variable {p : Program} {a b : Spot}

theorem FailsFrom.head {e : Stop} {r : RunState} (h : FailsFrom p (some b) e r) (hn : Next p a b) :
    FailsFrom p (some a) e r := by
  cases e with
  | fault f site =>
    obtain ⟨c, d, hc, hv, hf⟩ := h
    cases hc
    exact ⟨a, d, rfl, .head hn hv, hf⟩
  | fatal e => trivial

theorem Ready.first {act : Activation} (hp : p.From s) (hs : s.WellFormed) (hact : act.Sound s)
    {deeper depth fuel : Nat} {scope : Scope} {trace : Trace} :
    (first deeper depth act scope ⟨s, fuel, trace⟩).Ready p :=
  ⟨hp, hs, hact, .fresh _ act, 0, Chunk.at_zero (hs.code_pos hact)⟩

/-- If the program has the function, it has the chunk as well. -/
theorem Ready.opens (h : a.Ready p) {chunks : Array Chunk}
    (hp : p.functions[a.act.func.index]? = some chunks) :
    ∃ c, chunks[a.number]? = some c ∧ a.open? p = some (a.onChunk c) ∧
      (a.onChunk c).Sound ∧ c.code ≠ [] := by
  obtain ⟨body, hbody, rfl⟩ := h.program _ _ hp
  have hb : some body = some a.act.body := hbody.symm.trans h.act.body
  cases hb
  obtain ⟨_, c, hc, -⟩ := h.number
  obtain ⟨hw, hne⟩ := Chunk.Within.ofChunk (h.store.code_pos h.act) hc
  refine ⟨c, hc, ?_, ⟨h.store, h.act, h.regs, hw⟩, hne⟩
  unfold open?
  rw [hp]
  show ((Chunk.ofCode a.act.body.code)[a.number]?).bind _ = _
  rw [hc]
  rfl

theorem Ready.sound (hb : a.open? p = some b) (h : a.Ready p) :
    b.Sound ∧ p.From b.state.store := by
  cases hp : p.functions[a.act.func.index]? with
  | none =>
    unfold open? at hb
    rw [hp] at hb
    cases hb
  | some chunks =>
    obtain ⟨c, -, ho, hs, -⟩ := h.opens hp
    rw [ho] at hb
    cases hb
    exact ⟨hs, h.program⟩

theorem Sound.instr_ends (h : a.Sound) {i : Instr} {rest : List Instr} (hi : a.code = i :: rest) :
    Ends (Exec.instr a.act i a.place a.regs a.state)
      (fun out r => a.state.store.Extends r.store ∧ r.store.WellFormed ∧
        out.1.Sound r.store a.act.body ∧ out.2.Within r.store a.act a.number rest a.place)
      (fun e r => a.state.store.Extends r.store ∧ r.store.WellFormed ∧ e.Sound r.store) := by
  obtain ⟨deeper, depth, act, scope, number, code, place, regs, store, fuel, trace⟩ := a
  obtain ⟨hs, hact, hregs, hw⟩ := h
  cases hi
  have hexec := Chunk.exec_ends hs hact hregs hw
  cases fuel with
  | zero => exact ⟨.refl store, hs, trivial⟩
  | succ fuel =>
    cases hx : i.exec act regs store with
    | ok out t =>
      rw [Exec.instr_of_ok hx]
      rw [hx] at hexec
      exact hexec
    | error e t =>
      rw [Exec.instr_of_error hx]
      rw [hx] at hexec
      obtain ⟨hst, ht, j, hj, he⟩ := hexec
      refine ⟨hst, ht, ?_⟩
      cases e with
      | fault f => exact ⟨_, _, _, j, rfl, hst.body? hact.body, hj, he⟩
      | fatal e => trivial

end Spot

/-! ### Runs of composed code -/

/-- What a chunk leaves to be done, from a spot in it. -/
def ChunkEnd.After (p : Program) (a : Spot) (r : RunState) : ChunkEnd → Prop
  | jump number regs => (∃ place, Chunk.At a.act.body.code number place) ∧
      regs.Sound r.store a.act.body ∧
      ∀ b, (a.jump number regs r).open? p = some b → Spot.Visits p a b
  | finish value => r.store.fits value a.act.owed = true
  | replace callee inner => callee.Sound r.store ∧ callee.owed = a.act.owed ∧
      ∀ b, (a.replace callee inner r).open? p = some b → Spot.Visits p a b

/-- A frame under which so many more may be opened gives what it owes, or fails at a spot
that it has come to. -/
def Program.RunsAt (p : Program) (deeper : Nat) : Prop :=
  ∀ depth (act : Activation) (r : RunState), p.From r.store → r.store.WellFormed →
    act.Sound r.store →
    Ends (Exec.runFrame p deeper depth act r)
      (fun value r' => r.store.Extends r'.store ∧ r'.store.WellFormed ∧
        r'.store.fits value act.owed = true)
      (Spot.FailsFrom p (Spot.start? p deeper depth act r))

namespace Spot

variable {p : Program} {a b : Spot}

theorem after_of_next {e : ChunkEnd} {r : RunState} {rest : List Instr} {regs : Regs}
    {r' : RunState} (h : e.After p (a.past rest regs r') r) (hn : Next p a (a.past rest regs r')) :
    e.After p a r := by
  cases e with
  | jump number regs => exact ⟨h.1, h.2.1, fun b hb => .head hn (h.2.2 b hb)⟩
  | finish value => exact h
  | replace callee inner => exact ⟨h.1, h.2.1, fun b hb => .head hn (h.2.2 b hb)⟩

/-- The run of what remains of a chunk. -/
theorem runCode_ends (hrun : ∀ d, a.deeper = d + 1 → p.RunsAt d) (h : a.Sound)
    (hp : p.From a.state.store) :
    Ends (Exec.runCode (Exec.callees p a.deeper a.depth) a.act (a.number + 1) a.code a.place a.regs
        a.state)
      (fun e r => a.state.store.Extends r.store ∧ r.store.WellFormed ∧ e.After p a r)
      (FailsFrom p (some a)) := by
  -- Behind each instruction that control passes stands a sound spot.
  obtain ⟨code, hcode⟩ : ∃ code, a.code = code := ⟨_, rfl⟩
  induction code generalizing a with
  | nil =>
    rw [hcode]
    have hw := h.within
    rw [hcode] at hw
    exact ⟨.refl _, h.store, ⟨_, hw.fall⟩, h.regs, fun b hb => .single (.fall hcode hb)⟩
  | cons i rest ih =>
    have hinstr := h.instr_ends hcode
    rw [hcode, Exec.runCode_cons]
    cases hx : Exec.instr a.act i a.place a.regs a.state with
    | error e r =>
      rw [run_bind_of_error hx]
      cases e with
      | fault f site => exact ⟨a, a, rfl, .refl, .instr hcode hx⟩
      | fatal e => trivial
    | ok out r =>
      obtain ⟨regs, effect⟩ := out
      rw [hx] at hinstr
      obtain ⟨hst, hr, hregs, heffect⟩ := hinstr
      have hact : a.act.Sound r.store := h.act.mono hst
      rw [run_bind_of_ok hx]
      cases effect with
      | next =>
        have hn : Next p a (a.past rest regs r) := .next ⟨i, hcode, hx⟩
        have hrest := ih (a := a.past rest regs r) hrun ⟨hr, hact, hregs, heffect⟩ (hp.mono hst) rfl
        refine hrest.imp (fun e r' he => ?_) fun e r' he => he.head hn
        exact ⟨hst.trans he.1, he.2.1, after_of_next he.2.2 hn⟩
      | goto target =>
        exact ⟨hst, hr, heffect, hregs, fun b hb => .single (.jump ⟨i, hcode, hx⟩ hb)⟩
      | call dst callee =>
        obtain ⟨hw, hdst, hcallee⟩ := heffect
        refine Ends.bind ?_
        cases hd : a.deeper with
        | zero => exact ⟨a, a, rfl, .refl, .deep ⟨i, hcode, hx⟩ hd⟩
        | succ deeper =>
          show Ends (Exec.runFrame p deeper (a.depth + 1) callee r) _ _
          have hframe := hrun deeper hd (a.depth + 1) callee r (hp.mono hst) hr hcallee
          cases hv : Exec.runFrame p deeper (a.depth + 1) callee r with
          | ok value r' =>
            rw [hv] at hframe
            obtain ⟨hst', hr', hvalue⟩ := hframe
            have hn : Next p a (a.past rest (regs.set dst value) r') :=
              .resume ⟨i, hcode, hx⟩ hd hv
            have hheld := (Store.holds_of_fits hvalue).1
            have hrest := ih (a := a.past rest (regs.set dst value) r') hrun
              ⟨hr', hact.mono hst', (hregs.mono hst').set hheld dst, hw⟩
              ((hp.mono hst).mono hst') rfl
            rw [← hd]
            refine hrest.imp (fun e r' he => ?_) fun e r' he => he.head hn
            exact ⟨(hst.trans hst').trans he.1, he.2.1, after_of_next he.2.2 hn⟩
          | error e r' =>
            rw [hv] at hframe
            cases e with
            | fatal e => trivial
            | fault f site =>
              obtain ⟨b, c, hb, hv, hf⟩ := hframe
              exact ⟨a, c, rfl, .head (.enter ⟨i, hcode, hx⟩ hd hb) hv, hf⟩
      | replace callee inner =>
        exact ⟨hst, hr, heffect.1, heffect.2, fun b hb => .single (.replace ⟨i, hcode, hx⟩ hb)⟩
      | finish value => exact ⟨hst, hr, heffect⟩

theorem FailsFrom.through {e : Stop} {r : RunState} {b? : Option Spot} (h : FailsFrom p b? e r)
    (hv : ∀ b, b? = some b → Visits p a b) : FailsFrom p (some a) e r := by
  cases e with
  | fault f site =>
    obtain ⟨b, c, hb, hc, hf⟩ := h
    exact ⟨a, c, rfl, (hv b hb).trans hc, hf⟩
  | fatal e => trivial

/-- The run of a frame from the start of a chunk. -/
theorem runChunks_ends (hrun : ∀ d, a.deeper = d + 1 → p.RunsAt d) (h : a.Ready p) (n : Nat) :
    Ends (Exec.runChunks (Exec.callees p a.deeper a.depth) p a.depth n a.act a.scope a.number a.regs
        a.state)
      (fun value r => a.state.store.Extends r.store ∧ r.store.WellFormed ∧
        r.store.fits value a.act.owed = true)
      (FailsFrom p (a.open? p)) := by
  induction n generalizing a with
  | zero => exact trivial
  | succ n ih =>
    cases hp : p.functions[a.act.func.index]? with
    | none =>
      rw [Exec.runChunks_of_absent _ _ _ _ _ _ hp]
      trivial
    | some chunks =>
      obtain ⟨c, hc, hopen, hsound, -⟩ := h.opens hp
      have hcode := runCode_ends (a := a.onChunk c) hrun hsound h.program
      rw [Exec.runChunks_succ _ _ _ _ _ hp hc, hopen]
      refine Ends.bind (hcode.imp_value ?_)
      rintro e r ⟨hst, hr, hafter⟩
      cases e with
      | jump number regs =>
        obtain ⟨hat, hregs, hvisits⟩ := hafter
        have hready : (a.jump number regs r).Ready p :=
          ⟨h.program.mono hst, hr, h.act.mono hst, hregs, hat⟩
        refine (ih (a := a.jump number regs r) hrun hready).imp ?_ fun e r' he => he.through hvisits
        exact fun value r' hv => ⟨hst.trans hv.1, hv.2⟩
      | finish value => exact ⟨hst, hr, hafter⟩
      | replace callee inner =>
        obtain ⟨hcallee, howed, hvisits⟩ := hafter
        have hready : (a.replace callee inner r).Ready p :=
          .first (h.program.mono hst) hr hcallee
        refine (ih (a := a.replace callee inner r) hrun hready).imp ?_
          fun e r' he => he.through hvisits
        exact fun value r' hv => ⟨hst.trans hv.1, hv.2.1, howed ▸ hv.2.2⟩

end Spot

namespace Program

variable {p : Program}

/-- A frame of composed code gives what it owes, or fails at a spot that it has come
to. -/
theorem runFrame_ends (p : Program) (deeper : Nat) : p.RunsAt deeper := by
  induction deeper with
  | zero =>
    intro depth act r hp hr hact
    rw [Exec.runFrame_eq]
    exact Spot.runChunks_ends (a := .first 0 depth act (.frame act.func) _) (fun d hd => by cases hd)
      (.first hp hr hact) _
  | succ deeper ih =>
    intro depth act r hp hr hact
    rw [Exec.runFrame_eq]
    exact Spot.runChunks_ends (a := .first (deeper + 1) depth act (.frame act.func) _)
      (fun d hd => by cases hd; exact ih) (.first hp hr hact) _

end Program

namespace Spot

variable {p : Program} {a b : Spot}

theorem Does.sound {rest : List Instr} {regs : Regs} {e : Effect} {r : RunState}
    (hd : a.Does rest regs e r) (h : a.Sound) :
    a.state.store.Extends r.store ∧ r.store.WellFormed ∧ regs.Sound r.store a.act.body ∧
      e.Within r.store a.act a.number rest a.place := by
  obtain ⟨i, hi, hx⟩ := hd
  exact (h.instr_ends hi).of_ok hx

/-- A sound spot leads to sound spots. -/
theorem Next.sound (hn : Next p a b) (h : a.Sound) (hp : p.From a.state.store) :
    b.Sound ∧ p.From b.state.store := by
  cases hn with
  | next hd =>
    obtain ⟨hst, hr, hregs, he⟩ := hd.sound h
    exact ⟨⟨hr, h.act.mono hst, hregs, he⟩, hp.mono hst⟩
  | jump hd hb =>
    obtain ⟨hst, hr, hregs, he⟩ := hd.sound h
    exact Ready.sound hb ⟨hp.mono hst, hr, h.act.mono hst, hregs, he⟩
  | fall hc hb =>
    have hw := h.within
    rw [hc] at hw
    exact Ready.sound hb ⟨hp, h.store, h.act, h.regs, _, hw.fall⟩
  | enter hd _ hb =>
    obtain ⟨hst, hr, hregs, he⟩ := hd.sound h
    exact Ready.sound hb (.first (hp.mono hst) hr he.2.2)
  | resume hd _ hv =>
    obtain ⟨hst, hr, hregs, he⟩ := hd.sound h
    obtain ⟨hst', hr', hvalue⟩ := (p.runFrame_ends _ _ _ _ (hp.mono hst) hr he.2.2).of_ok hv
    have hheld := (Store.holds_of_fits hvalue).1
    exact ⟨⟨hr', (h.act.mono hst).mono hst', (hregs.mono hst').set hheld _, he.1⟩,
      (hp.mono hst).mono hst'⟩
  | replace hd hb =>
    obtain ⟨hst, hr, hregs, he⟩ := hd.sound h
    exact Ready.sound hb (.first (hp.mono hst) hr he.1)

theorem Visits.sound (hv : Visits p a b) (h : a.Sound) (hp : p.From a.state.store) :
    b.Sound ∧ p.From b.state.store := by
  induction hv with
  | refl => exact ⟨h, hp⟩
  | tail _ hn ih => exact hn.sound ih.1 ih.2

/-- What a sound spot may fail for. -/
theorem Fails.sound {e : Stop} {r : RunState} (hf : a.Fails e r) (h : a.Sound) :
    e.Sound r.store := by
  cases hf with
  | instr hi hx => exact ((h.instr_ends hi).of_error hx).2.2
  | deep hd _ =>
    obtain ⟨hst, -⟩ := hd.sound h
    obtain ⟨i, hi, -⟩ := hd
    have hw := h.within
    rw [hi] at hw
    obtain ⟨j, hj, -⟩ := hw.head
    exact ⟨_, _, _, j, rfl, hst.body? h.act.body, hj, .plain trivial⟩

end Spot

end ValueMachine
