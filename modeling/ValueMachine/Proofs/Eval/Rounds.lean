import ValueMachine.Proofs.Eval.Fuel

/-! The rounds of the driver of composed code.

The driver does one chunk after the other until its frame ends, and a call within a chunk
drives a frame of its own. `Spot.Works` and `Spot.Drives` say how the rest of a chunk and
how a frame come to an end, and after which rounds; neither counts anything. Whatever they
end with, the run with a bound on its chunks ends with as well (`Spot.Drives.runChunks_eq`),
in one way only (`Spot.Drives.unique`). And they do end, because no chunk is empty and an
instruction is paid for before it is done (`Program.drivesAt`). -/
namespace ValueMachine

/-! ### Rounds -/

/-- What the driver goes through. -/
inductive Round
  /-- A frame is opened at the depth. -/
  | frame (depth : Nat)
  /-- A chunk is done from its first instruction on. -/
  | pass (before : RunState) (after : EStateM.Result Stop RunState ChunkEnd)

namespace Round

def isPass : Round → Bool
  | pass _ _ => true
  | frame _ => false

/-- The number of chunks that are done. -/
def passes (rounds : List Round) : Nat := rounds.countP isPass

end Round

namespace Spot

/-- The spot at the start of a frame that is opened for an activation. -/
def opened (deeper depth : Nat) (act : Activation) (r : RunState) : Spot :=
  first deeper depth act (.frame act.func)
    { r with trace := r.trace.emit (.enter (.frame act.func) depth) }

mutual

/-- What remains of the chunk at the spot ends in this way, after these rounds. -/
inductive Works (p : Program) :
    Spot → List Round → EStateM.Result Stop RunState ChunkEnd → Prop
  | fall {a} (hc : a.code = []) : Works p a [] (.ok (.jump (a.number + 1) a.regs) a.state)
  | stop {a i rest e r} (hi : a.code = i :: rest)
    (hx : Exec.instr a.act i a.place a.regs a.state = .error e r) : Works p a [] (.error e r)
  | next {a rest regs r rounds x} (hd : a.Does rest regs .next r)
    (h : Works p (a.past rest regs r) rounds x) : Works p a rounds x
  | goto {a rest regs target r} (hd : a.Does rest regs (.goto target) r) :
    Works p a [] (.ok (.jump target.toNat regs) r)
  | replace {a rest regs callee inner r} (hd : a.Does rest regs (.replace callee inner) r) :
    Works p a [] (.ok (.replace callee inner) r)
  | finish {a rest regs value r} (hd : a.Does rest regs (.finish value) r) :
    Works p a [] (.ok (.finish value) r)
  -- A call opens a frame if one more is allowed, and the chunk goes on once this has returned.
  | deep {a rest regs dst callee r} (hd : a.Does rest regs (.call dst callee) r)
    (hn : a.deeper = 0) :
    Works p a [] (.error (.fault .callDepth (some ⟨a.act.func, a.place⟩)) r)
  | fail {a rest regs dst callee r deeper rounds e r'} (hd : a.Does rest regs (.call dst callee) r)
    (hn : a.deeper = deeper + 1)
    (hv : Drives p (opened deeper (a.depth + 1) callee r) rounds (.error e r')) :
    Works p a (.frame (a.depth + 1) :: rounds) (.error e r')
  | resume {a rest regs dst callee r deeper rounds value r' more x}
    (hd : a.Does rest regs (.call dst callee) r) (hn : a.deeper = deeper + 1)
    (hv : Drives p (opened deeper (a.depth + 1) callee r) rounds (.ok value r'))
    (h : Works p (a.past rest (regs.set dst value) r') more x) :
    Works p a (.frame (a.depth + 1) :: rounds ++ more) x

/-- The frame ends in this way, after these rounds, from the chunk on that it is about to
do. -/
inductive Drives (p : Program) : Spot → List Round → EStateM.Result Stop RunState Addr → Prop
  | absent {a} (hf : p.functions[a.act.func.index]? = none) :
    Drives p a [] (.error (.fatal (.notComposed a.act.func)) a.state)
  | missing {a chunks} (hf : p.functions[a.act.func.index]? = some chunks)
    (hc : chunks[a.number]? = none) :
    Drives p a []
      (.error (.fault (.mismatch .missingTerminator) (some ⟨a.act.func, 0⟩)) a.state)
  | stop {a chunks c rounds e r} (hf : p.functions[a.act.func.index]? = some chunks)
    (hc : chunks[a.number]? = some c) (h : Works p (a.onChunk c) rounds (.error e r)) :
    Drives p a (.pass a.state (.error e r) :: rounds) (.error e r)
  | jump {a chunks c rounds number regs r more x}
    (hf : p.functions[a.act.func.index]? = some chunks) (hc : chunks[a.number]? = some c)
    (h : Works p (a.onChunk c) rounds (.ok (.jump number regs) r))
    (hx : Drives p (a.jump number regs r) more x) :
    Drives p a (.pass a.state (.ok (.jump number regs) r) :: rounds ++ more) x
  | replace {a chunks c rounds callee inner r more x}
    (hf : p.functions[a.act.func.index]? = some chunks) (hc : chunks[a.number]? = some c)
    (h : Works p (a.onChunk c) rounds (.ok (.replace callee inner) r))
    (hx : Drives p (a.replace callee inner r) more x) :
    Drives p a (.pass a.state (.ok (.replace callee inner) r) :: rounds ++ more) x
  | finish {a chunks c rounds value r} (hf : p.functions[a.act.func.index]? = some chunks)
    (hc : chunks[a.number]? = some c)
    (h : Works p (a.onChunk c) rounds (.ok (.finish value) r)) :
    Drives p a (.pass a.state (.ok (.finish value) r) :: rounds)
      (.ok value { r with trace := r.trace.emit (.exit a.scope a.depth) })

end

variable {p : Program} {a : Spot}

/-! ### The run with a bound -/

/-- The run of what remains of the chunk at the spot. -/
def runCode (p : Program) (a : Spot) : EStateM.Result Stop RunState ChunkEnd :=
  Exec.runCode (Exec.callees p a.deeper a.depth) a.act (a.number + 1) a.code a.place a.regs a.state

/-- The run of the frame from the chunk on that it is about to do, for at most so many. -/
def runChunks (p : Program) (n : Nat) (a : Spot) : EStateM.Result Stop RunState Addr :=
  Exec.runChunks (Exec.callees p a.deeper a.depth) p a.depth n a.act a.scope a.number a.regs a.state

theorem runFrame_eq (p : Program) (deeper depth : Nat) (act : Activation) (r : RunState) :
    Exec.runFrame p deeper depth act r = (opened deeper depth act r).runChunks p (r.fuel + 1) :=
  Exec.runFrame_eq p deeper depth act r

theorem Does.runCode_eq {rest : List Instr} {regs : Regs} {e : Effect} {r : RunState}
    (hd : a.Does rest regs e r) :
    a.runCode p = Exec.afterInstr (Exec.callees p a.deeper a.depth) a.act (a.number + 1) rest
      a.place (regs, e) r := by
  obtain ⟨i, hi, hx⟩ := hd
  rw [runCode, hi, Exec.runCode_cons, run_bind_of_ok hx]

theorem runChunks_of_chunk {chunks : Array Chunk} {c : Chunk}
    (hf : p.functions[a.act.func.index]? = some chunks) (hc : chunks[a.number]? = some c)
    (n : Nat) : a.runChunks p (n + 1) =
      (Exec.runCode (Exec.callees p a.deeper a.depth) a.act (a.number + 1) c.code c.start a.regs >>=
        Exec.afterChunk (Exec.callees p a.deeper a.depth) p a.depth n a.act a.scope) a.state :=
  congrFun (Exec.runChunks_succ _ _ _ _ _ hf hc) a.state

/-- A chunk that is done costs fuel. -/
theorem runCode_spends {c : Chunk} (hc : c.code ≠ []) {e : ChunkEnd} {r : RunState}
    (h : (a.onChunk c).runCode p = .ok e r) : r.fuel < a.state.fuel :=
  Exec.runCode_spends (Exec.callees_follows p a.deeper a.depth) hc h

mutual

/-- The run ends in the same way. -/
theorem Works.runCode_eq {p : Program} (hp : p.Small) {a : Spot} {rounds : List Round}
    {x : EStateM.Result Stop RunState ChunkEnd} (h : a.Works p rounds x) : a.runCode p = x := by
  match h with
  | .fall hc =>
    rw [runCode, hc]
    rfl
  | .stop hi hx => rw [runCode, hi, Exec.runCode_cons, run_bind_of_error hx]
  | .next hd h => exact hd.runCode_eq.trans (h.runCode_eq hp)
  | .goto hd | .replace hd | .finish hd => exact hd.runCode_eq
  | .deep hd hn =>
    rw [hd.runCode_eq, hn]
    rfl
  | .fail hd hn hv =>
    have hframe := hv.runChunks_eq hp (Nat.le_refl _)
    rw [hd.runCode_eq, hn]
    exact run_bind_of_error ((runFrame_eq ..).trans hframe)
  | .resume hd hn hv h =>
    have hframe := hv.runChunks_eq hp (Nat.le_refl _)
    have hrest := h.runCode_eq hp
    rw [runCode, show (a.past _ _ _).deeper = _ from hn] at hrest
    rw [hd.runCode_eq, hn]
    exact (run_bind_of_ok ((runFrame_eq ..).trans hframe)).trans hrest

/-- The run ends in the same way, if it may do as many chunks as there is fuel, and one more. -/
theorem Drives.runChunks_eq {p : Program} (hp : p.Small) {a : Spot} {rounds : List Round}
    {x : EStateM.Result Stop RunState Addr} (h : a.Drives p rounds x) {n : Nat}
    (hn : a.state.fuel ≤ n) : a.runChunks p (n + 1) = x := by
  match h with
  | .absent hf =>
    rw [runChunks, Exec.runChunks_of_absent _ _ _ _ _ _ hf]
    rfl
  | .missing hf hc =>
    rw [runChunks, Exec.runChunks_of_missing _ _ _ _ _ hf hc]
    rfl
  | .stop hf hc h =>
    rw [runChunks_of_chunk hf hc]
    exact run_bind_of_error (h.runCode_eq hp)
  | .jump hf hc h hx | .replace hf hc h hx =>
    have hrun := h.runCode_eq hp
    have hspent := Nat.lt_of_lt_of_le (runCode_spends (hp _ _ hf _ _ hc).1 hrun) hn
    obtain ⟨n, rfl⟩ := Nat.exists_eq_succ_of_ne_zero (Nat.ne_zero_of_lt hspent)
    rw [runChunks_of_chunk hf hc]
    exact (run_bind_of_ok hrun).trans (hx.runChunks_eq hp (Nat.le_of_lt_succ hspent))
  | .finish hf hc h =>
    rw [runChunks_of_chunk hf hc]
    exact run_bind_of_ok (h.runCode_eq hp)

end

end Spot

/-! ### One end -/

namespace Spot

variable {p : Program} {a : Spot} {rounds : List Round}

theorem Does.unique {rest rest' : List Instr} {regs regs' : Regs} {e e' : Effect}
    {r r' : RunState} (hd : a.Does rest regs e r) (hd' : a.Does rest' regs' e' r') :
    rest = rest' ∧ regs = regs' ∧ e = e' ∧ r = r' := by
  obtain ⟨i, hi, hx⟩ := hd
  obtain ⟨j, hj, hy⟩ := hd'
  cases hi.symm.trans hj
  cases hx.symm.trans hy
  exact ⟨rfl, rfl, rfl, rfl⟩

theorem Does.code_ne {rest : List Instr} {regs : Regs} {e : Effect} {r : RunState}
    (hd : a.Does rest regs e r) : a.code ≠ [] := by
  obtain ⟨i, hi, -⟩ := hd
  rw [hi]
  exact List.cons_ne_nil i rest

theorem Does.not_fails {i : Instr} {rest rest' : List Instr} {regs : Regs} {e : Effect}
    {r r' : RunState} {s : Stop} (hd : a.Does rest regs e r) (hi : a.code = i :: rest')
    (hx : Exec.instr a.act i a.place a.regs a.state = .error s r') : False := by
  obtain ⟨j, hj, hy⟩ := hd
  cases hi.symm.trans hj
  cases hx.symm.trans hy

/-- How the rest of a chunk ends behind a call, by the end of the frame that is called. -/
def EndsCall (p : Program) (a : Spot) (rest : List Instr) (regs : Regs) (dst : Reg)
    (inner : List Round) (y : EStateM.Result Stop RunState Addr) (rounds : List Round)
    (x : EStateM.Result Stop RunState ChunkEnd) : Prop :=
  match y with
  | .error e r => rounds = .frame (a.depth + 1) :: inner ∧ x = .error e r
  | .ok value r => ∃ more, (a.past rest (regs.set dst value) r).Works p more x ∧
    rounds = .frame (a.depth + 1) :: inner ++ more

/-- How the rest of a chunk ends behind an instruction that is done. -/
def EndsPast (p : Program) (a : Spot) (rest : List Instr) (regs : Regs) (r : RunState)
    (rounds : List Round) (x : EStateM.Result Stop RunState ChunkEnd) : Effect → Prop
  | .next => (a.past rest regs r).Works p rounds x
  | .goto target => rounds = [] ∧ x = .ok (.jump target.toNat regs) r
  | .call dst callee =>
    match a.deeper with
    | 0 => rounds = [] ∧ x = .error (.fault .callDepth (some ⟨a.act.func, a.place⟩)) r
    | deeper + 1 => ∃ inner y, (opened deeper (a.depth + 1) callee r).Drives p inner y ∧
      EndsCall p a rest regs dst inner y rounds x
  | .replace callee inner => rounds = [] ∧ x = .ok (.replace callee inner) r
  | .finish value => rounds = [] ∧ x = .ok (.finish value) r

theorem Works.ends_past {rest : List Instr} {regs : Regs} {e : Effect} {r : RunState}
    {x : EStateM.Result Stop RunState ChunkEnd} (h : a.Works p rounds x)
    (hd : a.Does rest regs e r) : EndsPast p a rest regs r rounds x e := by
  cases h with
  | fall hc => exact absurd hc hd.code_ne
  | stop hi hx => exact (hd.not_fails hi hx).elim
  | next hd' h =>
    obtain ⟨rfl, rfl, rfl, rfl⟩ := hd.unique hd'
    exact h
  | goto hd' | replace hd' | finish hd' =>
    obtain ⟨rfl, rfl, rfl, rfl⟩ := hd.unique hd'
    exact ⟨rfl, rfl⟩
  | deep hd' hn =>
    obtain ⟨rfl, rfl, rfl, rfl⟩ := hd.unique hd'
    unfold EndsPast
    rw [hn]
    exact ⟨rfl, rfl⟩
  | fail hd' hn hv =>
    obtain ⟨rfl, rfl, rfl, rfl⟩ := hd.unique hd'
    unfold EndsPast
    rw [hn]
    exact ⟨_, _, hv, rfl, rfl⟩
  | resume hd' hn hv h =>
    obtain ⟨rfl, rfl, rfl, rfl⟩ := hd.unique hd'
    unfold EndsPast
    rw [hn]
    exact ⟨_, _, hv, _, h, rfl⟩

theorem Works.ends_call {rest : List Instr} {regs : Regs} {dst : Reg} {callee : Activation}
    {r : RunState} {deeper : Nat} {x : EStateM.Result Stop RunState ChunkEnd}
    (h : a.Works p rounds x) (hd : a.Does rest regs (.call dst callee) r)
    (hn : a.deeper = deeper + 1) :
    ∃ inner y, (opened deeper (a.depth + 1) callee r).Drives p inner y ∧
      EndsCall p a rest regs dst inner y rounds x := by
  have hpast := h.ends_past hd
  unfold EndsPast at hpast
  rwa [hn] at hpast

theorem Works.of_nil {x : EStateM.Result Stop RunState ChunkEnd} (h : a.Works p rounds x)
    (hc : a.code = []) : rounds = [] ∧ x = .ok (.jump (a.number + 1) a.regs) a.state := by
  cases h with
  | fall => exact ⟨rfl, rfl⟩
  | stop hi => cases hc.symm.trans hi
  | next hd | goto hd | replace hd | finish hd | deep hd | fail hd | resume hd =>
    exact absurd hc hd.code_ne

theorem Works.of_stop {x : EStateM.Result Stop RunState ChunkEnd} (h : a.Works p rounds x)
    {i : Instr} {rest : List Instr} {e : Stop} {r : RunState} (hi : a.code = i :: rest)
    (hx : Exec.instr a.act i a.place a.regs a.state = .error e r) :
    rounds = [] ∧ x = .error e r := by
  cases h with
  | fall hc => cases hi.symm.trans hc
  | stop hi' hx' =>
    cases hi.symm.trans hi'
    cases hx.symm.trans hx'
    exact ⟨rfl, rfl⟩
  | next hd | goto hd | replace hd | finish hd | deep hd | fail hd | resume hd =>
    exact (hd.not_fails hi hx).elim

/-- How a frame ends behind a chunk that is done. -/
def EndsBehind (p : Program) (a : Spot) (y : EStateM.Result Stop RunState ChunkEnd)
    (rounds : List Round) (x : EStateM.Result Stop RunState Addr) : Prop :=
  match y with
  | .error e r => rounds = [] ∧ x = .error e r
  | .ok (.jump number regs) r => (a.jump number regs r).Drives p rounds x
  | .ok (.replace callee inner) r => (a.replace callee inner r).Drives p rounds x
  | .ok (.finish value) r =>
    rounds = [] ∧ x = .ok value { r with trace := r.trace.emit (.exit a.scope a.depth) }

theorem Drives.ends_behind {chunks : Array Chunk} {c : Chunk}
    {x : EStateM.Result Stop RunState Addr} (h : a.Drives p rounds x)
    (hf : p.functions[a.act.func.index]? = some chunks) (hc : chunks[a.number]? = some c) :
    ∃ inner y more, (a.onChunk c).Works p inner y ∧ EndsBehind p a y more x ∧
      rounds = .pass a.state y :: inner ++ more := by
  cases h with
  | absent hf' => cases hf.symm.trans hf'
  | missing hf' hc' =>
    cases hf.symm.trans hf'
    cases hc.symm.trans hc'
  | stop hf' hc' h | finish hf' hc' h =>
    cases hf.symm.trans hf'
    cases hc.symm.trans hc'
    exact ⟨_, _, [], h, ⟨rfl, rfl⟩, (List.append_nil _).symm⟩
  | jump hf' hc' h hx | replace hf' hc' h hx =>
    cases hf.symm.trans hf'
    cases hc.symm.trans hc'
    exact ⟨_, _, _, h, hx, rfl⟩

mutual

/-- The rest of a chunk has one end, and comes to it in one way. -/
theorem Works.unique {p : Program} {a : Spot} {rounds rounds' : List Round}
    {x x' : EStateM.Result Stop RunState ChunkEnd} (h : a.Works p rounds x)
    (h' : a.Works p rounds' x') : rounds' = rounds ∧ x' = x := by
  match h with
  | .fall hc => exact h'.of_nil hc
  | .stop hi hx => exact h'.of_stop hi hx
  | .next hd h => exact h.unique (h'.ends_past hd)
  | .goto hd | .replace hd | .finish hd => exact h'.ends_past hd
  | .deep hd hn =>
    have hpast := h'.ends_past hd
    unfold EndsPast at hpast
    rwa [hn] at hpast
  | .fail hd hn hv =>
    obtain ⟨inner, y, hv', hend⟩ := h'.ends_call hd hn
    obtain ⟨rfl, rfl⟩ := hv.unique hv'
    exact hend
  | .resume hd hn hv h =>
    obtain ⟨inner, y, hv', hend⟩ := h'.ends_call hd hn
    obtain ⟨rfl, rfl⟩ := hv.unique hv'
    obtain ⟨more, hmore, rfl⟩ := hend
    obtain ⟨rfl, rfl⟩ := h.unique hmore
    exact ⟨rfl, rfl⟩

/-- A frame has one end, and comes to it in one way. -/
theorem Drives.unique {p : Program} {a : Spot} {rounds rounds' : List Round}
    {x x' : EStateM.Result Stop RunState Addr} (h : a.Drives p rounds x)
    (h' : a.Drives p rounds' x') : rounds' = rounds ∧ x' = x := by
  match h with
  | .absent hf =>
    cases h' with
    | absent => exact ⟨rfl, rfl⟩
    | missing hf' | stop hf' | jump hf' | replace hf' | finish hf' => cases hf.symm.trans hf'
  | .missing hf hc =>
    cases h' with
    | absent hf' => cases hf.symm.trans hf'
    | missing => exact ⟨rfl, rfl⟩
    | stop hf' hc' | jump hf' hc' | replace hf' hc' | finish hf' hc' =>
      cases hf.symm.trans hf'
      cases hc.symm.trans hc'
  | .stop hf hc h | .finish hf hc h =>
    obtain ⟨inner, y, more, hy, hbehind, rfl⟩ := h'.ends_behind hf hc
    obtain ⟨rfl, rfl⟩ := h.unique hy
    obtain ⟨rfl, rfl⟩ := hbehind
    exact ⟨List.append_nil _, rfl⟩
  | .jump hf hc h hx | .replace hf hc h hx =>
    obtain ⟨inner, y, more, hy, hbehind, rfl⟩ := h'.ends_behind hf hc
    obtain ⟨rfl, rfl⟩ := h.unique hy
    obtain ⟨rfl, rfl⟩ := hx.unique hbehind
    exact ⟨rfl, rfl⟩

end

end Spot

/-! ### Termination -/

/-- The frames under which so many more may be opened come to an end. -/
def Program.DrivesAt (p : Program) (deeper : Nat) : Prop :=
  ∀ depth act r, ∃ rounds x, (Spot.opened deeper depth act r).Drives p rounds x

namespace Spot

variable {p : Program} {a : Spot}

/-- What remains of a chunk comes to an end if the frames do that it may open. -/
theorem exists_works (hcalls : ∀ d, a.deeper = d + 1 → p.DrivesAt d) :
    ∃ rounds x, a.Works p rounds x := by
  -- Behind each instruction that control passes less remains of the chunk.
  obtain ⟨code, hcode⟩ : ∃ code, a.code = code := ⟨_, rfl⟩
  induction code generalizing a with
  | nil => exact ⟨_, _, .fall hcode⟩
  | cons i rest ih =>
    cases hx : Exec.instr a.act i a.place a.regs a.state with
    | error e r => exact ⟨_, _, .stop hcode hx⟩
    | ok out r =>
      obtain ⟨regs, effect⟩ := out
      have hd : a.Does rest regs effect r := ⟨i, hcode, hx⟩
      cases effect with
      | next =>
        obtain ⟨rounds, x, h⟩ := ih (a := a.past rest regs r) hcalls rfl
        exact ⟨_, _, .next hd h⟩
      | goto target => exact ⟨_, _, .goto hd⟩
      | call dst callee =>
        cases hn : a.deeper with
        | zero => exact ⟨_, _, .deep hd hn⟩
        | succ deeper =>
          obtain ⟨rounds, x, hv⟩ := hcalls deeper hn (a.depth + 1) callee r
          cases x with
          | error e r' => exact ⟨_, _, .fail hd hn hv⟩
          | ok value r' =>
            obtain ⟨more, x, h⟩ := ih (a := a.past rest (regs.set dst value) r') hcalls rfl
            exact ⟨_, _, .resume hd hn hv h⟩
      | replace callee inner => exact ⟨_, _, .replace hd⟩
      | finish value => exact ⟨_, _, .finish hd⟩

/-- A frame comes to an end if the frames do that it may open. -/
theorem exists_drives (hp : p.Small) (hcalls : ∀ d, a.deeper = d + 1 → p.DrivesAt d) :
    ∃ rounds x, a.Drives p rounds x := by
  -- Each chunk leaves less fuel than it found.
  induction hfuel : a.state.fuel using Nat.strong_induction_on generalizing a with
  | h fuel ih =>
    cases hf : p.functions[a.act.func.index]? with
    | none => exact ⟨_, _, .absent hf⟩
    | some chunks =>
      cases hc : chunks[a.number]? with
      | none => exact ⟨_, _, .missing hf hc⟩
      | some c =>
        obtain ⟨rounds, x, h⟩ := exists_works (a := a.onChunk c) hcalls
        cases x with
        | error e r => exact ⟨_, _, .stop hf hc h⟩
        | ok e r =>
          have hspent : r.fuel < fuel :=
            hfuel ▸ runCode_spends (hp _ _ hf _ _ hc).1 (h.runCode_eq hp)
          cases e with
          | jump number regs =>
            obtain ⟨more, x, hx⟩ := ih r.fuel hspent (a := a.jump number regs r) hcalls rfl
            exact ⟨_, _, .jump hf hc h hx⟩
          | finish value => exact ⟨_, _, .finish hf hc h⟩
          | replace callee inner =>
            obtain ⟨more, x, hx⟩ := ih r.fuel hspent (a := a.replace callee inner r) hcalls rfl
            exact ⟨_, _, .replace hf hc h hx⟩

end Spot

/-- Every frame of composed code comes to an end. -/
theorem Program.drivesAt {p : Program} (hp : p.Small) (deeper : Nat) : p.DrivesAt deeper := by
  induction deeper with
  | zero =>
    intro depth act r
    exact Spot.exists_drives hp fun d hd => by cases hd
  | succ deeper ih =>
    intro depth act r
    refine Spot.exists_drives hp fun d hd => ?_
    cases hd
    exact ih

end ValueMachine
