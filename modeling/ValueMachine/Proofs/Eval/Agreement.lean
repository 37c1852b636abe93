import ValueMachine.Proofs.Eval.Composed

/-! Both ways of running code agree.

The machine keeps the frames that wait in a list, composed code keeps them in calls of
its own. What the machine makes of a frame is what composed code makes of it, given back
to the callers in the list (`Machine.giveBack`). A program may lack functions that were
registered after it was composed; so it is compared with a machine that stops where it
enters such a function (`Machine.runWithin`). The agreement is by induction on the fuel:
every instruction uses some, and a frame that is called comes back with less. -/
namespace ValueMachine

variable {s t : Store}

/-- The program has the function. -/
def Program.has (p : Program) (f : FuncId) : Bool := f.index < p.functions.size

theorem Program.has_iff {p : Program} {f : FuncId} :
    p.has f = true ↔ ∃ chunks, p.functions[f.index]? = some chunks := by
  unfold has
  rw [decide_eq_true_iff]
  exact ⟨fun h => ⟨_, Array.getElem?_eq_getElem h⟩,
    fun ⟨_, h⟩ => (Array.getElem?_eq_some_iff.mp h).1⟩

theorem Program.has_compose (s : Store) (f : FuncId) :
    (compose s).has f = decide (f.index < s.functions.size) := by
  unfold has compose
  rw [Array.size_map]

namespace Machine

/-- The machine with the given frames. -/
def of (frame : Frame) (callers : List Caller) (store : Store) (trace : Trace) : Machine :=
  ⟨frame, callers, callers.length + 1, rfl, store, trace⟩

/-- A run that stops where a function is to be run that the program lacks. -/
def runWithin (p : Program) (maxDepth : Nat) : Nat → Machine → EStateM.Result Stop RunState Addr
  | fuel, m =>
    if p.has m.frame.act.func then
      match m.fetch with
      | none => .error (.fault (.mismatch .missingTerminator) (some m.site)) ⟨m.store, fuel, m.trace⟩
      | some i =>
        match fuel with
        | 0 => .error (.fatal .stepBudgetExceeded) ⟨m.store, 0, m.trace⟩
        | fuel + 1 =>
          match m.step maxDepth i with
          | .more m => runWithin p maxDepth fuel m
          | .done value store trace => .ok value ⟨store, fuel, trace⟩
          | .stop s store trace => .error s ⟨store, fuel, trace⟩
    else .error (.fatal (.notComposed m.frame.act.func)) ⟨m.store, fuel, m.trace⟩

section Within
variable {p : Program} {m : Machine} {i : Instr} (maxDepth : Nat)

theorem runWithin_of_lacks (h : p.has m.frame.act.func = false) (fuel : Nat) :
    runWithin p maxDepth fuel m =
      .error (.fatal (.notComposed m.frame.act.func)) ⟨m.store, fuel, m.trace⟩ := by
  rw [runWithin, h]
  rfl

theorem runWithin_zero (h : p.has m.frame.act.func = true) (hi : m.fetch = some i) :
    runWithin p maxDepth 0 m = .error (.fatal .stepBudgetExceeded) ⟨m.store, 0, m.trace⟩ := by
  rw [runWithin, if_pos h, hi]

theorem runWithin_succ (h : p.has m.frame.act.func = true) (hi : m.fetch = some i) (fuel : Nat) :
    runWithin p maxDepth (fuel + 1) m =
      match m.step maxDepth i with
      | .more m => runWithin p maxDepth fuel m
      | .done value store trace => .ok value ⟨store, fuel, trace⟩
      | .stop s store trace => .error s ⟨store, fuel, trace⟩ := by
  rw [runWithin, if_pos h, hi]

end Within

/-- Goes on with the innermost caller once its result is there. -/
def giveBack (p : Program) (maxDepth : Nat) (callers : List Caller) :
    EStateM.Result Stop RunState Addr → EStateM.Result Stop RunState Addr
  | .error e r => .error e r
  | .ok value r =>
    match callers with
    | [] => .ok value r
    | c :: callers => runWithin p maxDepth r.fuel (of (c.resume value) callers r.store r.trace)

/-! ### Steps of a machine that tells nothing of instructions -/

section Steps
variable {act : Activation} {regs regs' : Regs} {pc : UInt32} {scope : Scope} {callers : List Caller}
  {trace : Trace} {maxDepth : Nat} {i : Instr}

theorem traceWith_of_quiet {m : Machine} (hq : m.trace.mask.instr = false) (i : Instr) :
    m.traceWith i = m.trace := if_neg (by simp [TraceMask.wants, hq])

theorem step_of_error (hq : trace.mask.instr = false) {e : Halt}
    (hx : i.exec act regs s = .error e t) :
    (of ⟨act, regs, pc, scope⟩ callers s trace).step maxDepth i =
      .stop (e.at (some ⟨act.func, pc.toNat⟩)) t trace := by
  have hstep : (of ⟨act, regs, pc, scope⟩ callers s trace).step maxDepth i = _ :=
    Takes.eq (.halt hx)
  rw [hstep, traceWith_of_quiet hq]
  rfl

theorem step_of_next (hq : trace.mask.instr = false)
    (hx : i.exec act regs s = .ok (regs', .next) t) :
    (of ⟨act, regs, pc, scope⟩ callers s trace).step maxDepth i =
      .more (of ⟨act, regs', pc + 1, scope⟩ callers t trace) := by
  have hstep : (of ⟨act, regs, pc, scope⟩ callers s trace).step maxDepth i = _ :=
    Takes.eq (.next hx)
  rw [hstep, traceWith_of_quiet hq]
  rfl

theorem step_of_goto (hq : trace.mask.instr = false) {target : UInt32}
    (hx : i.exec act regs s = .ok (regs', .goto target) t) :
    (of ⟨act, regs, pc, scope⟩ callers s trace).step maxDepth i =
      .more (of ⟨act, regs', target, scope⟩ callers t trace) := by
  have hstep : (of ⟨act, regs, pc, scope⟩ callers s trace).step maxDepth i = _ :=
    Takes.eq (.goto hx)
  rw [hstep, traceWith_of_quiet hq]
  rfl

theorem step_of_deep (hq : trace.mask.instr = false) {dst : Reg} {callee : Activation}
    (hx : i.exec act regs s = .ok (regs', .call dst callee) t)
    (hd : maxDepth ≤ callers.length + 1) :
    (of ⟨act, regs, pc, scope⟩ callers s trace).step maxDepth i =
      .stop (.fault .callDepth (some ⟨act.func, pc.toNat⟩)) t trace := by
  have hstep : (of ⟨act, regs, pc, scope⟩ callers s trace).step maxDepth i = _ :=
    Takes.eq (.deep hx hd)
  rw [hstep, traceWith_of_quiet hq]
  rfl

theorem step_of_call (hq : trace.mask.instr = false) {dst : Reg} {callee : Activation}
    (hx : i.exec act regs s = .ok (regs', .call dst callee) t)
    (hd : ¬maxDepth ≤ callers.length + 1) :
    (of ⟨act, regs, pc, scope⟩ callers s trace).step maxDepth i =
      .more (of (.enter callee (.frame callee.func)) (⟨⟨act, regs', pc + 1, scope⟩, dst⟩ :: callers) t
        (trace.emit (.enter (.frame callee.func) (callers.length + 2)))) := by
  have hstep : (of ⟨act, regs, pc, scope⟩ callers s trace).step maxDepth i = _ :=
    Takes.eq (.call hx hd)
  rw [hstep, traceWith_of_quiet hq]
  rfl

theorem step_of_replace (hq : trace.mask.instr = false) {callee : Activation} {inner : Scope}
    (hx : i.exec act regs s = .ok (regs', .replace callee inner) t) :
    (of ⟨act, regs, pc, scope⟩ callers s trace).step maxDepth i =
      .more (of (.enter callee inner) callers t
        ((trace.emit (.exit scope (callers.length + 1))).emit
          (.enter inner (callers.length + 1)))) := by
  have hstep : (of ⟨act, regs, pc, scope⟩ callers s trace).step maxDepth i = _ :=
    Takes.eq (.replace hx)
  rw [hstep, traceWith_of_quiet hq]
  rfl

/-- A frame that returns gives its value back. -/
theorem giveBack_finish (p : Program) (hq : trace.mask.instr = false) {value : Addr} (fuel : Nat)
    (hx : i.exec act regs s = .ok (regs', .finish value) t) :
    (match (of ⟨act, regs, pc, scope⟩ callers s trace).step maxDepth i with
      | .more m => runWithin p maxDepth fuel m
      | .done value store trace => .ok value ⟨store, fuel, trace⟩
      | .stop s store trace => .error s ⟨store, fuel, trace⟩) =
      giveBack p maxDepth callers
        (.ok value ⟨t, fuel, trace.emit (.exit scope (callers.length + 1))⟩) := by
  cases callers with
  | nil =>
    have hstep : (of ⟨act, regs, pc, scope⟩ [] s trace).step maxDepth i = _ :=
      Takes.eq (.done hx rfl)
    rw [hstep, traceWith_of_quiet hq]
    rfl
  | cons c callers =>
    have hstep : (of ⟨act, regs, pc, scope⟩ (c :: callers) s trace).step maxDepth i = _ :=
      Takes.eq (.resume hx rfl rfl)
    rw [hstep, traceWith_of_quiet hq]
    rfl

end Steps

end Machine

/-! ### Spots and machines -/

namespace Spot

/-- What composed code makes of the rest of the frame, from a spot in a chunk. -/
def rest (p : Program) (n : Nat) (a : Spot) : EStateM.Result Stop RunState Addr :=
  (Exec.runCode (Exec.callees p a.deeper a.depth) a.act (a.number + 1) a.code a.place a.regs >>=
    Exec.afterChunk (Exec.callees p a.deeper a.depth) p a.depth n a.act a.scope) a.state

/-- What composed code makes of the rest of the frame, from the start of a chunk. -/
def frame (p : Program) (n : Nat) (a : Spot) : EStateM.Result Stop RunState Addr :=
  Exec.runChunks (Exec.callees p a.deeper a.depth) p a.depth n a.act a.scope a.number a.regs a.state

/-- The machine that stands where composed code stands. -/
def machine (a : Spot) (callers : List Caller) : Machine :=
  .of ⟨a.act, a.regs, a.place.toUInt32, a.scope⟩ callers a.state.store a.state.trace

/-- The spot is as deep as the callers tell, they can go on, and instructions are not to
be told of. -/
structure Fits (p : Program) (maxDepth : Nat) (a : Spot) (callers : List Caller) : Prop where
  program : p.From a.state.store
  depth : a.depth = callers.length + 1
  deeper : a.deeper = maxDepth - a.depth
  quiet : a.state.trace.mask.instr = false

/-- Machine and composed code agree on the rest of a frame with so much fuel. -/
def RestAgrees (p : Program) (maxDepth fuel : Nat) : Prop :=
  ∀ (a : Spot) callers n, a.state.fuel = fuel → a.Sound → a.Fits p maxDepth callers →
    p.has a.act.func = true → a.code ≠ [] → fuel ≤ n →
    Machine.runWithin p maxDepth fuel (a.machine callers) =
      Machine.giveBack p maxDepth callers (a.rest p n)

variable {p : Program} {maxDepth fuel : Nat}

theorem place_toNat {a : Spot} (h : a.Sound) : a.place.toUInt32.toNat = a.place := by
  have hsize := (h.store.verified_act h.act).size_lt
  have hlt := h.within.place_lt
  exact UInt32.toNat_ofNat_of_lt' (show a.place < 2 ^ 32 by omega)

/-- Then they agree on a frame that starts with a chunk. -/
theorem RestAgrees.frame (h : RestAgrees p maxDepth fuel) {a : Spot} {callers : List Caller} {n : Nat}
    (hf : a.state.fuel = fuel) (ha : a.Ready p) (hat : Chunk.At a.act.body.code a.number a.place)
    (hfits : a.Fits p maxDepth callers) (hn : fuel < n) :
    Machine.runWithin p maxDepth fuel (a.machine callers) =
      Machine.giveBack p maxDepth callers (a.frame p n) := by
  subst hf
  obtain ⟨n, rfl⟩ := Nat.exists_eq_succ_of_ne_zero (Nat.ne_of_gt (Nat.zero_lt_of_lt hn))
  cases hp : p.functions[a.act.func.index]? with
  | none =>
    have hlacks : p.has (a.machine callers).frame.act.func = false :=
      Bool.eq_false_iff.mpr fun h => by
        obtain ⟨chunks, hc⟩ := Program.has_iff.mp h
        cases hp.symm.trans hc
    rw [Machine.runWithin_of_lacks maxDepth hlacks]
    unfold Spot.frame
    rw [Exec.runChunks_of_absent _ _ _ _ _ _ hp]
    rfl
  | some chunks =>
    obtain ⟨c, hc, -, hsound, hne⟩ := ha.opens hp
    have hstart : c.start = a.place := by
      obtain ⟨body, hbody, rfl⟩ := ha.program _ _ hp
      cases hbody.symm.trans ha.act.body
      obtain ⟨c', hc', hplace⟩ := hat
      cases hc.symm.trans hc'
      exact hplace
    have hrest := h (a.onChunk c) callers n rfl hsound
      ⟨hfits.program, hfits.depth, hfits.deeper, hfits.quiet⟩ (Program.has_iff.mpr ⟨_, hp⟩) hne
      (Nat.lt_succ_iff.mp hn)
    have hm : (a.onChunk c).machine callers = a.machine callers := by
      unfold machine onChunk
      rw [hstart]
    rw [← hm, hrest]
    unfold Spot.frame
    rw [Exec.runChunks_succ _ _ _ _ _ hp hc]
    rfl

/-- They agree within a chunk, too, if there is nothing left of it. -/
theorem RestAgrees.any (h : RestAgrees p maxDepth fuel) {a : Spot} {callers : List Caller} {n : Nat}
    (hf : a.state.fuel = fuel) (ha : a.Sound) (hfits : a.Fits p maxDepth callers)
    (hhas : p.has a.act.func = true) (hn : fuel < n) :
    Machine.runWithin p maxDepth fuel (a.machine callers) =
      Machine.giveBack p maxDepth callers (a.rest p n) := by
  by_cases hc : a.code = []
  · have hw := ha.within
    rw [hc] at hw
    have hframe := h.frame (a := a.jump (a.number + 1) a.regs a.state) hf
      ⟨hfits.program, ha.store, ha.act, ha.regs, _, hw.fall⟩ hw.fall
      ⟨hfits.program, hfits.depth, hfits.deeper, hfits.quiet⟩ hn
    refine hframe.trans ?_
    unfold Spot.rest
    rw [hc]
    rfl
  · exact h a callers n hf ha hfits hhas hc (Nat.le_of_lt hn)

/-- They agree on a call, from the spot behind it. -/
theorem call_agrees (h : ∀ left ≤ fuel, RestAgrees p maxDepth left) {a : Spot} {n d : Nat}
    {callers : List Caller} {callee : Activation} (hf : a.state.fuel = fuel) (ha : a.Sound)
    (hfits : a.Fits p maxDepth callers) (hhas : p.has a.act.func = true) (hn : fuel < n)
    (hd : a.deeper = d + 1) (hcallee : callee.Sound a.state.store) (dst : Reg) :
    Machine.runWithin p maxDepth fuel
        (.of (.enter callee (.frame callee.func))
          (⟨⟨a.act, a.regs, a.place.toUInt32, a.scope⟩, dst⟩ :: callers) a.state.store
          (a.state.trace.emit (.enter (.frame callee.func) (a.depth + 1)))) =
      Machine.giveBack p maxDepth callers
        (((Exec.runFrame p d (a.depth + 1) callee >>= fun value =>
          Exec.runCode (Exec.callees p a.deeper a.depth) a.act (a.number + 1) a.code a.place
            (a.regs.set dst value)) >>=
          Exec.afterChunk (Exec.callees p a.deeper a.depth) p a.depth n a.act a.scope) a.state) := by
  subst hf
  rw [bind_assoc]
  let b : Spot := .first d (a.depth + 1) callee (.frame callee.func)
    { a.state with trace := a.state.trace.emit (.enter (.frame callee.func) (a.depth + 1)) }
  let caller : Caller := ⟨⟨a.act, a.regs, a.place.toUInt32, a.scope⟩, dst⟩
  have hquiet : b.state.trace.mask.instr = false := by
    simpa [b, first] using hfits.quiet
  have hdepth : a.depth + 1 = callers.length + 1 + 1 := congrArg (· + 1) hfits.depth
  have hdeeper : d = maxDepth - (a.depth + 1) := by
    have := hfits.deeper
    omega
  have hframe : Machine.runWithin p maxDepth a.state.fuel (b.machine (caller :: callers)) =
      Machine.giveBack p maxDepth (caller :: callers)
        (Exec.runFrame p d (a.depth + 1) callee a.state) := by
    rw [Exec.runFrame_eq]
    exact (h _ (Nat.le_refl _)).frame rfl (.first hfits.program ha.store hcallee)
      (Chunk.at_zero (ha.store.code_pos hcallee)) ⟨hfits.program, hdepth, hdeeper, hquiet⟩
      (Nat.lt_succ_self _)
  refine hframe.trans ?_
  have hends := p.runFrame_ends d (a.depth + 1) callee a.state hfits.program ha.store hcallee
  have hlater := Exec.runFrame_follows Store.interns_grows p d (a.depth + 1) callee a.state
  cases hv : Exec.runFrame p d (a.depth + 1) callee a.state with
  | error e r =>
    rw [run_bind_of_error hv]
    rfl
  | ok value r =>
    rw [run_bind_of_ok hv]
    rw [hv] at hends hlater
    obtain ⟨hst, hr, hvalue⟩ := hends
    have hle : r.fuel ≤ a.state.fuel := hlater.fuel
    have hq : r.trace.mask.instr = false := (congrArg TraceMask.instr hlater.mask).trans hfits.quiet
    have hheld := (Store.holds_of_fits hvalue).1
    exact (h r.fuel hle).any (a := { a with regs := a.regs.set dst value, state := r }) rfl
      ⟨hr, ha.act.mono hst, (ha.regs.mono hst).set hheld dst, ha.within⟩
      ⟨hfits.program.mono hst, hfits.depth, hfits.deeper, hq⟩ hhas (Nat.lt_of_le_of_lt hle hn)

/-- Machine and composed code agree with any fuel. -/
theorem rest_agrees (p : Program) (maxDepth fuel : Nat) : RestAgrees p maxDepth fuel := by
  induction fuel using Nat.strongRecOn with
  | ind fuel ih =>
  rintro ⟨deeper, depth, act, scope, number, code, place, regs, store, fuel, trace⟩ callers n rfl ha
    hfits hhas hne hn
  have hpc : place.toUInt32.toNat = place := place_toNat ha
  have hpc' : (place + 1).toUInt32 = place.toUInt32 + 1 := UInt32.ofNat_add place 1
  obtain ⟨hs, hact, hregs, hw⟩ := ha
  obtain ⟨hp, rfl, rfl, hq⟩ : p.From store ∧ depth = callers.length + 1 ∧
      deeper = maxDepth - depth ∧ trace.mask.instr = false :=
    ⟨hfits.program, hfits.depth, hfits.deeper, hfits.quiet⟩
  cases code with
  | nil => exact absurd rfl hne
  | cons i rest =>
  obtain ⟨j, hj, hij⟩ := hw.head
  have hexec := Chunk.exec_ends hs hact hregs hw
  have hfetch : (Machine.of ⟨act, regs, place.toUInt32, scope⟩ callers store trace).fetch =
      some j := by
    show act.body.code[place.toUInt32.toNat]? = some j
    rw [hpc]
    exact hj
  show Machine.runWithin p maxDepth _ (.of ⟨act, regs, place.toUInt32, scope⟩ callers store trace) =
    Machine.giveBack p maxDepth callers ((Exec.runCode _ act _ (i :: rest) place regs >>= _) _)
  rw [Exec.runCode_cons, bind_assoc]
  dsimp only at hn ih
  cases fuel with
  | zero =>
    rw [Machine.runWithin_zero maxDepth hhas hfetch]
    rfl
  | succ fuel =>
    rw [Machine.runWithin_succ maxDepth hhas hfetch]
    cases hx : j.exec act regs store with
    | error e t =>
      have hi : i.exec act regs store = .error e t := by
        rw [hij, Instr.exec_retarget]
        exact run_map_of_error hx
      rw [Machine.step_of_error hq hx, run_bind_of_error (Exec.instr_of_error hi _ _ _), hpc]
      rfl
    | ok out t =>
      obtain ⟨regs', effect⟩ := out
      have hi : i.exec act regs store =
          .ok (regs', effect.retarget (Chunk.number act.body.code)) t := by
        rw [hij, Instr.exec_retarget]
        exact run_map_of_ok hx
      obtain ⟨hst, ht, hregs', heffect⟩ := hexec.of_ok hi
      rw [run_bind_of_ok (Exec.instr_of_ok hi _ _ _)]
      have hless : fuel < fuel + 1 := Nat.lt_succ_self fuel
      have hp' : p.From t := hp.mono hst
      have hact' : act.Sound t := hact.mono hst
      have hlt : fuel < n := Nat.lt_of_succ_le hn
      cases effect with
      | next =>
        rw [Machine.step_of_next hq hx, ← hpc']
        exact (ih fuel hless).any (a := ⟨_, _, act, scope, number, rest, place + 1, regs', t, fuel, trace⟩)
          rfl ⟨ht, hact', hregs', heffect⟩ ⟨hp', rfl, rfl, hq⟩ hhas hlt
      | goto target =>
        have htarget : target ∈ j.targets :=
          ((Instr.exec_sound hs hact hregs (hs.bounded_at hact hj)).of_ok hx).2.2
        have hat := Chunk.at_target (Array.mem_of_getElem? hj) htarget
          (hs.target_lt hact hj htarget) (hs.verified_act hact).size_lt
        have hm : Machine.of ⟨act, regs', target, scope⟩ callers t trace =
            .of ⟨act, regs', target.toNat.toUInt32, scope⟩ callers t trace := by
          rw [show target.toNat.toUInt32 = target from UInt32.ofNat_toNat]
        rw [Machine.step_of_goto hq hx, hm]
        exact (ih fuel hless).frame
          (a := ⟨_, _, act, scope, _, [], target.toNat, regs', t, fuel, trace⟩)
          rfl ⟨hp', ht, hact', hregs', _, hat⟩ hat ⟨hp', rfl, rfl, hq⟩ hlt
      | call dst callee =>
        obtain ⟨hw', -, hcallee⟩ := heffect
        by_cases hd : maxDepth ≤ callers.length + 1
        · rw [Machine.step_of_deep hq hx hd, hpc]
          have hdeeper : maxDepth - (callers.length + 1) = 0 := Nat.sub_eq_zero_of_le hd
          dsimp only
          rw [hdeeper]
          rfl
        · obtain ⟨d, hdeeper⟩ : ∃ d, maxDepth - (callers.length + 1) = d + 1 :=
            Nat.exists_eq_succ_of_ne_zero (Nat.sub_ne_zero_of_lt (Nat.lt_of_not_le hd))
          have hleft : ∀ left ≤ fuel, RestAgrees p maxDepth left := fun left hl =>
            ih left (Nat.lt_succ_of_le hl)
          dsimp only
          rw [Machine.step_of_call hq hx hd, ← hpc', hdeeper]
          exact call_agrees hleft
            (a := ⟨d + 1, _, act, scope, number, rest, place + 1, regs', t, fuel, trace⟩) rfl
            ⟨ht, hact', hregs', hw'⟩ ⟨hp', rfl, hdeeper.symm, hq⟩ hhas hlt rfl hcallee dst
      | replace callee inner =>
        rw [Machine.step_of_replace hq hx]
        have hq' : ((trace.emit (.exit scope (callers.length + 1))).emit
            (.enter inner (callers.length + 1))).mask.instr = false := by simpa using hq
        exact (ih fuel hless).frame (a := .first _ _ callee inner ⟨t, fuel, _⟩) rfl
          (.first hp' ht heffect.1) (Chunk.at_zero (ht.code_pos heffect.1)) ⟨hp', rfl, rfl, hq'⟩ hlt
      | finish value =>
        rw [Machine.giveBack_finish p hq fuel hx]
        rfl

end Spot

/-! ### Frames that a run enters -/

/-- The activation that is entered. -/
def Effect.callee? : Effect → Option Activation
  | call _ act | replace act _ => some act
  | next | goto _ | finish _ => none

namespace Machine

/-- The function that an instruction enters. -/
def entering? (m : Machine) (i : Instr) : Option FuncId :=
  match i.exec m.frame.act m.frame.regs m.store with
  | .ok (_, e) _ => e.callee?.map (·.func)
  | .error _ _ => none

/-- The functions whose frames a run enters, in order, each with the fuel that is left on
entering it. -/
def entered (maxDepth : Nat) : Nat → Machine → List (FuncId × Nat)
  | 0, _ => []
  | fuel + 1, m =>
    match m.fetch with
    | none => []
    | some i =>
      match m.step maxDepth i with
      | .more m' => ((m.entering? i).map (·, fuel)).toList ++ entered maxDepth fuel m'
      | _ => []

/-- The program has the functions of all frames. -/
def InProgram (p : Program) (m : Machine) : Prop :=
  p.has m.frame.act.func = true ∧ ∀ c ∈ m.callers, p.has c.frame.act.func = true

/-- A step leads to a frame that it enters, or to a function that was there before. -/
theorem step_inProgram {p : Program} {maxDepth : Nat} {m m' : Machine} {i : Instr}
    (h : m.InProgram p) (hm : m.step maxDepth i = .more m') :
    (∀ c ∈ m'.callers, p.has c.frame.act.func = true) ∧
      match m.entering? i with
      | some f => m'.frame.act.func = f
      | none => p.has m'.frame.act.func = true := by
  obtain ⟨hact, hcallers⟩ := h
  unfold entering?
  cases takes_of_more hm with
  | next hx | goto hx =>
    rw [hx]
    exact ⟨hcallers, hact⟩
  | call hx hd =>
    rw [hx]
    exact ⟨List.forall_mem_cons.mpr ⟨hact, hcallers⟩, rfl⟩
  | replace hx =>
    rw [hx]
    exact ⟨hcallers, rfl⟩
  | resume hx hc =>
    rw [hc] at hcallers
    obtain ⟨hcaller, hrest⟩ := List.forall_mem_cons.mp hcallers
    rw [hx]
    exact ⟨hrest, hcaller⟩

/-- The run within a program is the whole run, unless that enters a frame outside the
program; there it stops. -/
theorem runWithin_ends {p : Program} {m : Machine} (h : m.InProgram p) (maxDepth fuel : Nat) :
    match (entered maxDepth fuel m).find? fun e => !p.has e.1 with
    | none => runWithin p maxDepth fuel m = run maxDepth fuel m
    | some (f, left) => ∃ r, runWithin p maxDepth fuel m = .error (.fatal (.notComposed f)) r ∧
        r.fuel = left := by
  induction fuel generalizing m with
  | zero =>
    rw [runWithin, if_pos h.1]
    cases hi : m.fetch with
    | none => exact (run_of_none hi maxDepth 0).symm
    | some i => exact (run_zero hi maxDepth).symm
  | succ fuel ih =>
    rw [runWithin, if_pos h.1, entered]
    cases hi : m.fetch with
    | none => exact (run_of_none hi maxDepth _).symm
    | some i =>
      rw [run_succ hi]
      dsimp only
      cases hm : m.step maxDepth i with
      | done value s trace => rfl
      | stop e s trace => rfl
      | more m' =>
        obtain ⟨hcallers, hframe⟩ := step_inProgram h hm
        dsimp only
        cases he : m.entering? i with
        | none =>
          rw [he] at hframe
          exact ih ⟨hframe, hcallers⟩
        | some f =>
          rw [he] at hframe
          subst hframe
          show match ((m'.frame.act.func, fuel) :: entered maxDepth fuel m').find? _ with
            | none => _
            | some (f, left) => _
          cases hf : p.has m'.frame.act.func with
          | true =>
            rw [List.find?_cons_of_neg (by simp [hf])]
            exact ih ⟨hf, hcallers⟩
          | false =>
            rw [List.find?_cons_of_pos (by simp [hf])]
            exact ⟨_, runWithin_of_lacks maxDepth hf fuel, rfl⟩

end Machine

/-- The run of an activation as composed code is its run within the program. -/
theorem Program.evaluate_eq {p : Program} (maxDepth : Nat) {act : Activation} {r : RunState}
    (hp : p.From r.store) (hr : r.store.WellFormed) (hact : act.Sound r.store)
    (hq : r.trace.mask.instr = false) :
    p.evaluate maxDepth act r = Machine.runWithin p maxDepth r.fuel (.entry act r) := by
  let a : Spot := .first (maxDepth - 1) 1 act (.frame act.func)
    { r with trace := r.trace.emit (.enter (.frame act.func) 1) }
  have hquiet : a.state.trace.mask.instr = false := by
    simpa [a, Spot.first] using hq
  have hagrees : Machine.runWithin p maxDepth r.fuel (a.machine []) =
      Machine.giveBack p maxDepth [] (p.evaluate maxDepth act r) := by
    rw [Program.evaluate, Exec.runFrame_eq]
    exact (Spot.rest_agrees p maxDepth r.fuel).frame rfl (.first hp hr hact)
      (Chunk.at_zero (hr.code_pos hact)) ⟨hp, rfl, rfl, hquiet⟩ (Nat.lt_succ_self _)
  show _ = Machine.runWithin p maxDepth r.fuel (a.machine [])
  rw [hagrees]
  cases p.evaluate maxDepth act r <;> rfl

/-- The run of an activation by either executor, as far as its frames are in the
program. -/
theorem Program.evaluate_ends {p : Program} (maxDepth : Nat) {act : Activation} {r : RunState}
    (hp : p.From r.store) (hr : r.store.WellFormed) (hact : act.Sound r.store)
    (hq : r.trace.mask.instr = false) :
    match ((act.func, r.fuel) :: Machine.entered maxDepth r.fuel (.entry act r)).find?
        fun e => !p.has e.1 with
    | none => p.evaluate maxDepth act r = Machine.evaluate maxDepth act r
    | some (f, left) => ∃ r', p.evaluate maxDepth act r = .error (.fatal (.notComposed f)) r' ∧
        r'.fuel = left := by
  rw [evaluate_eq maxDepth hp hr hact hq]
  cases hf : p.has act.func with
  | true =>
    rw [List.find?_cons_of_neg (by simp [hf])]
    have hin : (Machine.entry act r).InProgram p := ⟨hf, fun _ hc => absurd hc List.not_mem_nil⟩
    exact Machine.runWithin_ends hin maxDepth r.fuel
  | false =>
    rw [List.find?_cons_of_pos (by simp [hf])]
    exact ⟨_, Machine.runWithin_of_lacks maxDepth hf _, rfl⟩

/-! ### Whole evaluations -/

namespace Evaluation

variable {way way' : Activation → Exec Addr} {entry arg : Addr} {fuel : Nat} {trace : Trace}

/-- Two ways of running code that agree on the entry give the same evaluation. -/
theorem conduct_congr
    (h : ∀ shape t act u, Outcome.shape (s.resultShape entry) s = .ok shape t →
      prepareEntry entry arg t = .ok act u →
      way act ⟨u, fuel, trace.emit (.runStart entry arg)⟩ =
        way' act ⟨u, fuel, trace.emit (.runStart entry arg)⟩) :
    conduct way entry arg ⟨s, fuel, trace⟩ = conduct way' entry arg ⟨s, fuel, trace⟩ := by
  cases hshape : Outcome.shape (s.resultShape entry) s with
  | error e t => rw [conduct_of_no_shape hshape, conduct_of_no_shape hshape]
  | ok shape t =>
    rw [conduct_of_shape hshape rfl, conduct_of_shape hshape rfl]
    cases hentry : prepareEntry entry arg t with
    | error e u => rw [runEntry_of_unready hentry, runEntry_of_unready hentry]
    | ok act u =>
      rw [runEntry_of_ready hentry, runEntry_of_ready hentry, h shape t act u hshape hentry]

/-- A run that stops for good ends the evaluation with its error. -/
theorem conduct_of_fatal {shape : ShapeId} {act : Activation} {t u : Store} {e : EvalError}
    {r : RunState} (hshape : Outcome.shape (s.resultShape entry) s = .ok shape t)
    (hentry : prepareEntry entry arg t = .ok act u)
    (hrun : way act ⟨u, fuel, trace.emit (.runStart entry arg)⟩ = .error (.fatal e) r) :
    conduct way entry arg ⟨s, fuel, trace⟩ =
      .error e { r with trace := r.trace.emit .runFatal } := by
  rw [conduct_of_shape hshape ((runEntry_of_ready hentry).trans hrun)]
  rfl

end Evaluation

/-- The functions whose frames an evaluation by a machine enters, in order, each with the
fuel that is left on entering it. -/
def Machine.frames (maxDepth : Nat) (entry arg : Addr) (steps : Nat) (s : Store) :
    List (FuncId × Nat) :=
  match Outcome.shape (s.resultShape entry) s with
  | .error _ _ => []
  | .ok _ s =>
    match Evaluation.prepareEntry entry arg s with
    | .error _ _ => []
    | .ok act s => (act.func, steps) :: entered maxDepth steps (.entry act ⟨s, steps, .start .none⟩)

/-- **Both executors are one evaluator.** Composed code gives what the machine gives, with
the same store and the same fuel, if the machine enters no frame of a function that was
not there when the code was composed. Otherwise composed code stops where the first such
frame is entered. -/
theorem Executor.machine_eq_composed {s₀ : Store} (hs : Reachable s₀) (hl : Leads s₀ s)
    {lm lc : Limits} (hd : lm.maxCallDepth = lc.maxCallDepth) (steps : Nat) (entry arg : Addr) :
    match (Machine.frames lm.maxCallDepth entry arg steps s).find?
        fun e => !(Program.compose s₀).has e.1 with
    | none => (machine lm).evaluateWith steps entry arg s =
        (composed (.compose s₀) lc).evaluateWith steps entry arg s
    | some (f, left) => ∃ r,
        (composed (.compose s₀) lc).evaluateWith steps entry arg s = .error (.notComposed f) r ∧
        r.fuel = left := by
  have hsw : s.WellFormed := (hs.leads hl).wellFormed
  have hp : (Program.compose s₀).From s := Program.from_of_leads hs hl
  cases hshape : Outcome.shape (s.resultShape entry) s with
  | error e t =>
    rw [Machine.frames, hshape]
    refine Evaluation.conduct_congr fun shape t act u h _ => ?_
    cases hshape.symm.trans h
  | ok shape t =>
    have hst := (Store.shape_grows (.cotuple #[s.resultShape entry, ShapeId.text])).of_ok hshape hsw
    rw [Machine.frames, hshape]
    dsimp only
    cases hentry : Evaluation.prepareEntry entry arg t with
    | error e u =>
      refine Evaluation.conduct_congr fun shape t act u h h' => ?_
      cases hshape.symm.trans h
      cases hentry.symm.trans h'
    | ok act u =>
      obtain ⟨rfl, hact, -⟩ := (Evaluation.prepareEntry_ends hst.2 entry arg).of_ok hentry
      have hends := Program.evaluate_ends lm.maxCallDepth (r := ⟨u, steps, .start .none⟩)
        (hp.mono hst.1) hst.2 hact rfl
      dsimp only at hends ⊢
      split at hends
      · rw [hd] at hends
        refine Evaluation.conduct_congr fun _ _ _ _ h h' => ?_
        cases hshape.symm.trans h
        cases hentry.symm.trans h'
        show Machine.evaluate lm.maxCallDepth act ⟨u, steps, .start .none⟩ = _
        rw [hd]
        exact hends.symm
      · obtain ⟨r, hr, hleft⟩ := hends
        rw [hd] at hr
        exact ⟨_, Evaluation.conduct_of_fatal hshape hentry hr, hleft⟩

/-- The relay enters its own frame, that of the function it calls, and that of the function
which takes its place. -/
theorem Machine.frames_relay : frames 256 ⟨5⟩ Addr.unit 100 .withRelay =
    [(⟨2⟩, 100), (⟨1⟩, 98), (⟨0⟩, 96)] := by
  rw [frames, Store.shape_relay]
  rfl

/-- So the relay is evaluated alike by a program that has the three functions, and not at all
by one that was composed before the relay was registered. -/
theorem Executor.machine_eq_composed_relay :
    (machine .standard).evaluateWith 100 ⟨5⟩ Addr.unit .withRelay =
      (composed (.compose .withRelay) .standard).evaluateWith 100 ⟨5⟩ Addr.unit .withRelay ∧
    ∃ r, (composed (.compose .withHop) .standard).evaluateWith 100 ⟨5⟩ Addr.unit .withRelay =
      .error (.notComposed ⟨2⟩) r ∧ r.fuel = 100 := by
  have hd : Limits.standard.maxCallDepth = Limits.standard.maxCallDepth := rfl
  have hl : Leads .withHop .withRelay := Store.register_relay ▸ .step _ .refl
  have hnow := machine_eq_composed .withRelay .refl hd 100 ⟨5⟩ Addr.unit
  have hearlier := machine_eq_composed .withHop hl hd 100 ⟨5⟩ Addr.unit
  simp only [Limits.standard, Machine.frames_relay, Program.has_compose] at hnow hearlier
  exact ⟨hnow, hearlier⟩

end ValueMachine
