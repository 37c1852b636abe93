import ValueMachine.Proofs.Eval.Rounds

/-! The driver of composed code ends within its fuel.

The first thing that is done of a chunk is a payment, and no chunk is empty. So none is free,
but for one that is begun without fuel, and the run ends with this one (`Spot.Drives.paid`).
A frame that is opened is one deeper than the frame that opens it, and may open one less
below it. With this an evaluation has at most one round more than it has fuel, and no frame
deeper than its limit (`Program.compose_ends`). -/
namespace ValueMachine

/-! ### Payment -/

/-- The rounds that lead to an end from so much fuel are paid for, but for a chunk that is begun
without fuel, and no frame among them is deeper than the top. -/
structure Round.Paid {α : Type} (top fuel : Nat) (rounds : List Round)
    (x : EStateM.Result Stop RunState α) : Prop where
  fuel_le : x.state.fuel ≤ fuel
  passes_le : passes rounds + x.state.fuel ≤ fuel ∨
    passes rounds + x.state.fuel ≤ fuel + 1 ∧ x.answer = .error .cut
  pass : ∀ before after, .pass before after ∈ rounds →
    after.state.fuel < before.fuel ∨ before.fuel = 0 ∧ x.answer = .error .cut
  frame : ∀ depth, .frame depth ∈ rounds → depth ≤ top

/-- What is done of a chunk with the code is paid for, beginning with its first instruction. -/
inductive Round.Charged (top : Nat) (code : List Instr) (fuel : Nat) (rounds : List Round)
    (x : EStateM.Result Stop RunState ChunkEnd) : Prop
  | idle (hc : code = []) (hr : rounds = []) (hf : x.state.fuel = fuel)
  | unable (hfuel : fuel = 0) (hr : rounds = []) (ha : x.answer = .error .cut)
    (hf : x.state.fuel = 0)
  | paid (left : Nat) (hfuel : left + 1 = fuel) (h : Round.Paid top left rounds x)

namespace Round

variable {α β : Type} {top fuel : Nat} {rounds : List Round}

theorem Paid.nil {x : EStateM.Result Stop RunState α} (h : x.state.fuel ≤ fuel) :
    Paid top fuel [] x :=
  ⟨h, .inl (by simpa [passes] using h), fun _ _ hm => absurd hm List.not_mem_nil,
    fun _ hm => absurd hm List.not_mem_nil⟩

theorem Paid.mono {x : EStateM.Result Stop RunState α} {fuel' : Nat} (h : Paid top fuel rounds x)
    (hle : fuel ≤ fuel') : Paid top fuel' rounds x :=
  ⟨Nat.le_trans h.fuel_le hle,
    h.passes_le.imp (Nat.le_trans · hle) (And.imp_left (Nat.le_trans · (Nat.succ_le_succ hle))),
    h.pass, h.frame⟩

theorem Paid.cons_frame {x : EStateM.Result Stop RunState α} (h : Paid top fuel rounds x)
    {depth : Nat} (hd : depth ≤ top) : Paid top fuel (.frame depth :: rounds) x := by
  refine ⟨h.fuel_le, ?_, fun before after hm => ?_, fun depth' hm => ?_⟩
  · simpa [passes, isPass] using h.passes_le
  · exact h.pass before after (by simpa using hm)
  · rcases List.mem_cons.mp hm with he | hm
    · cases he
      exact hd
    · exact h.frame depth' hm

theorem Paid.append {value : α} {r : RunState} {more : List Round}
    {x : EStateM.Result Stop RunState β} (h : Paid top fuel rounds (.ok value r))
    (hx : Paid top r.fuel more x) : Paid top fuel (rounds ++ more) x := by
  refine ⟨Nat.le_trans hx.fuel_le h.fuel_le, ?_, fun before after hm => ?_, fun depth hm => ?_⟩
  · have hpasses : passes rounds + r.fuel ≤ fuel := h.passes_le.elim id fun ⟨_, ha⟩ => by cases ha
    have hsum : passes (rounds ++ more) = passes rounds + passes more := List.countP_append
    rw [hsum]
    exact hx.passes_le.imp (by omega) (And.imp_left (by omega))
  · rcases List.mem_append.mp hm with hm | hm
    · rcases h.pass before after hm with hlt | ⟨-, ha⟩
      · exact .inl hlt
      · cases ha
    · exact hx.pass before after hm
  · exact (List.mem_append.mp hm).elim (h.frame depth) (hx.frame depth)

/-- What else ends with as much fuel is paid for as well, if it is cut short with the other. -/
theorem Paid.ends {x : EStateM.Result Stop RunState α} {y : EStateM.Result Stop RunState β}
    (h : Paid top fuel rounds x) (hf : y.state.fuel = x.state.fuel)
    (hcut : x.answer = .error .cut → y.answer = .error .cut) : Paid top fuel rounds y := by
  refine ⟨hf ▸ h.fuel_le, ?_, ?_, h.frame⟩
  · rw [hf]
    exact h.passes_le.imp_right (And.imp_right hcut)
  · exact fun before after hm => (h.pass before after hm).imp_right (And.imp_right hcut)

theorem Paid.error {e : Stop} {r : RunState}
    (h : Paid top fuel rounds (.error e r : EStateM.Result Stop RunState α)) :
    Paid top fuel rounds (.error e r : EStateM.Result Stop RunState β) :=
  h.ends rfl fun he => by cases he; rfl

variable {code : List Instr} {x : EStateM.Result Stop RunState ChunkEnd}

theorem Charged.paid_for (h : Charged top code fuel rounds x) : Paid top fuel rounds x := by
  cases h with
  | idle hc hr hf =>
    subst hr
    exact .nil (Nat.le_of_eq hf)
  | unable hfuel hr ha hf =>
    subst hr
    exact .nil (by omega)
  | paid left hfuel h => exact h.mono (by omega)

/-- A chunk that is not empty is a round that costs fuel, or the run ends with it. -/
theorem Charged.pass {r : RunState} (h : Charged top code r.fuel rounds x) (hc : code ≠ []) :
    Paid top r.fuel (.pass r x :: rounds) x := by
  have hone : passes (.pass r x :: rounds) = passes rounds + 1 := List.countP_cons_of_pos rfl
  cases h with
  | idle hnil => exact absurd hnil hc
  | unable hfuel hr ha hf =>
    subst hr
    refine ⟨by omega, .inr ⟨?_, ha⟩, fun before after hm => ?_, fun depth hm => by simp at hm⟩
    · rw [hone, hf, hfuel]
      exact Nat.le_refl 1
    · cases List.mem_singleton.mp hm
      exact .inr ⟨hfuel, ha⟩
  | paid left hfuel h =>
    refine ⟨Nat.le_trans h.fuel_le (by omega), ?_, fun before after hm => ?_, fun depth hm => ?_⟩
    · rw [hone]
      exact h.passes_le.imp (by omega) (And.imp_left (by omega))
    · rcases List.mem_cons.mp hm with he | hm
      · cases he
        have hle := h.fuel_le
        exact .inl (by omega)
      · exact h.pass before after hm
    · exact h.frame depth (by simpa using hm)

end Round

namespace Spot

/-- An instruction fails for want of fuel or takes a unit of it. -/
theorem instr_fails {act : Activation} {i : Instr} {place : Nat} {regs : Regs} {r s : RunState}
    {e : Stop} (h : Exec.instr act i place regs r = .error e s) :
    (r.fuel = 0 ∧ e = .cut ∧ s.fuel = 0) ∨ s.fuel + 1 = r.fuel := by
  obtain ⟨store, fuel, trace⟩ := r
  cases fuel with
  | zero =>
    cases h
    exact .inl ⟨rfl, rfl, rfl⟩
  | succ fuel =>
    right
    cases hx : i.exec act regs store with
    | ok out t =>
      rw [Exec.instr_of_ok hx] at h
      cases h
    | error e t =>
      rw [Exec.instr_of_error hx] at h
      cases h
      rfl

theorem Does.spends {a : Spot} {rest : List Instr} {regs : Regs} {e : Effect} {r : RunState}
    (hd : a.Does rest regs e r) : r.fuel + 1 = a.state.fuel := by
  obtain ⟨i, -, hx⟩ := hd
  exact Exec.instr_spends hx

/-- A frame that is opened is no deeper than the top, nor are those that it may open. -/
theorem opened_le_top {a : Spot} {deeper top : Nat} (hn : a.deeper = deeper + 1)
    (ht : a.depth + a.deeper ≤ top) : a.depth + 1 + deeper ≤ top := by
  omega

mutual

/-- The rest of a chunk is paid for. -/
theorem Works.charged {p : Program} (hp : p.Small) {a : Spot} {rounds : List Round}
    {x : EStateM.Result Stop RunState ChunkEnd} (h : a.Works p rounds x) {top : Nat}
    (ht : a.depth + a.deeper ≤ top) : Round.Charged top a.code a.state.fuel rounds x := by
  match h with
  | .fall hc => exact .idle hc rfl rfl
  | .stop hi hx =>
    rcases instr_fails hx with ⟨hfuel, rfl, hf⟩ | hspent
    · exact .unable hfuel rfl rfl hf
    · exact .paid _ hspent (.nil (Nat.le_refl _))
  | .next hd h => exact .paid _ hd.spends (h.charged hp ht).paid_for
  | .goto hd | .replace hd | .finish hd | .deep hd _ =>
    exact .paid _ hd.spends (.nil (Nat.le_refl _))
  | .fail hd hn hv =>
    have htop := opened_le_top hn ht
    have hframe := (hv.paid hp htop).cons_frame (Nat.le_of_add_right_le htop)
    exact .paid _ hd.spends hframe.error
  | .resume hd hn hv h =>
    have htop := opened_le_top hn ht
    have hframe := (hv.paid hp htop).cons_frame (Nat.le_of_add_right_le htop)
    exact .paid _ hd.spends (hframe.append (h.charged hp ht).paid_for)

/-- The rounds of a frame are paid for. -/
theorem Drives.paid {p : Program} (hp : p.Small) {a : Spot} {rounds : List Round}
    {x : EStateM.Result Stop RunState Addr} (h : a.Drives p rounds x) {top : Nat}
    (ht : a.depth + a.deeper ≤ top) : Round.Paid top a.state.fuel rounds x := by
  match h with
  | .absent _ | .missing _ _ => exact .nil (Nat.le_refl _)
  | .stop hf hc h => exact ((h.charged hp ht).pass (hp _ _ hf _ _ hc).1).error
  | .jump hf hc h hx | .replace hf hc h hx =>
    exact ((h.charged hp ht).pass (hp _ _ hf _ _ hc).1).append (hx.paid hp ht)
  | .finish hf hc h =>
    exact ((h.charged hp ht).pass (hp _ _ hf _ _ hc).1).ends rfl fun ha => by cases ha

end

end Spot

/-! ### Evaluations -/

/-- An evaluation by composed code ends in this way, after these rounds. -/
inductive Program.Conducts (p : Program) (maxDepth : Nat) (entry arg : Addr) (r : RunState) :
    List Round → EStateM.Result EvalError RunState Addr → Prop
  | refused {e t} (hs : Outcome.shape (r.store.resultShape entry) r.store = .error e t) :
    Conducts p maxDepth entry arg r []
      (.error (.store e) ⟨t, r.fuel, (r.trace.emit (.runStart entry arg)).emit .runFatal⟩)
  | unready {shape t e u} (hs : Outcome.shape (r.store.resultShape entry) r.store = .ok shape t)
    (hr : Evaluation.prepareEntry entry arg t = .error e u) :
    Conducts p maxDepth entry arg r []
      (Evaluation.settle shape (.error (e.at none)) ⟨u, r.fuel, r.trace.emit (.runStart entry arg)⟩)
  | driven {shape t act u rounds x}
    (hs : Outcome.shape (r.store.resultShape entry) r.store = .ok shape t)
    (hr : Evaluation.prepareEntry entry arg t = .ok act u)
    (h : (Spot.opened (maxDepth - 1) 1 act
      ⟨u, r.fuel, r.trace.emit (.runStart entry arg)⟩).Drives p rounds x) :
    Conducts p maxDepth entry arg r (.frame 1 :: rounds)
      (Evaluation.settle shape x.answer x.state)

namespace Program

variable {p : Program} {maxDepth : Nat} {entry arg : Addr} {r : RunState}

theorem exists_conducts (hp : p.Small) (maxDepth : Nat) (entry arg : Addr) (r : RunState) :
    ∃ rounds x, p.Conducts maxDepth entry arg r rounds x := by
  cases hs : Outcome.shape (r.store.resultShape entry) r.store with
  | error e t => exact ⟨_, _, .refused hs⟩
  | ok shape t =>
    cases hr : Evaluation.prepareEntry entry arg t with
    | error e u => exact ⟨_, _, .unready hs hr⟩
    | ok act u =>
      obtain ⟨rounds, x, h⟩ := drivesAt hp (maxDepth - 1) 1 act
        ⟨u, r.fuel, r.trace.emit (.runStart entry arg)⟩
      exact ⟨_, _, .driven hs hr h⟩

theorem Conducts.unique {rounds rounds' : List Round}
    {x x' : EStateM.Result EvalError RunState Addr} (h : p.Conducts maxDepth entry arg r rounds x)
    (h' : p.Conducts maxDepth entry arg r rounds' x') : rounds' = rounds ∧ x' = x := by
  cases h with
  | refused hs =>
    cases h' with
    | refused hs' =>
      cases hs.symm.trans hs'
      exact ⟨rfl, rfl⟩
    | unready hs' | driven hs' => cases hs.symm.trans hs'
  | unready hs hr =>
    cases h' with
    | refused hs' => cases hs.symm.trans hs'
    | unready hs' hr' | driven hs' hr' =>
      cases hs.symm.trans hs'
      cases hr.symm.trans hr'
      all_goals exact ⟨rfl, rfl⟩
  | driven hs hr h =>
    cases h' with
    | refused hs' => cases hs.symm.trans hs'
    | unready hs' hr' =>
      cases hs.symm.trans hs'
      cases hr.symm.trans hr'
    | driven hs' hr' h' =>
      cases hs.symm.trans hs'
      cases hr.symm.trans hr'
      obtain ⟨rfl, rfl⟩ := h.unique h'
      exact ⟨rfl, rfl⟩

/-- The evaluation ends in the same way. -/
theorem Conducts.evaluate_eq (hp : p.Small) {limits : Limits} {rounds : List Round}
    {x : EStateM.Result EvalError RunState Addr}
    (h : p.Conducts limits.maxCallDepth entry arg r rounds x) :
    (Executor.composed p limits).evaluate entry arg r = x := by
  obtain ⟨store, fuel, trace⟩ := r
  cases h with
  | refused hs => exact Evaluation.conduct_of_no_shape hs
  | unready hs hr => exact Evaluation.conduct_of_shape hs (Evaluation.runEntry_of_unready hr)
  | driven hs hr h =>
    have hframe := h.runChunks_eq hp (Nat.le_refl _)
    refine Evaluation.conduct_of_shape hs ((Evaluation.runEntry_of_ready hr).trans ?_)
    exact (Spot.runFrame_eq ..).trans hframe

variable {s : Store}

/-- **Composed code ends within its fuel.** The driver counts no chunks, and yet every
evaluation comes to one end and in one way, which is that of the evaluation with a bound. This
holds of every program that a reachable store is composed to, whatever store it meets. A chunk
that is done takes fuel, or there was none and the evaluation ends for want of steps. So there
is at most one chunk more than there are units of fuel, and no frame is deeper than calls may
be, but for the first one. -/
theorem compose_ends (hs : Reachable s) (limits : Limits) (entry arg : Addr) (r : RunState) :
    let p := compose s
    let y := (Executor.composed p limits).evaluate entry arg r
    ∃ rounds,
      (∀ rounds' x, p.Conducts limits.maxCallDepth entry arg r rounds' x ↔
        rounds' = rounds ∧ x = y) ∧
      (∀ before after, .pass before after ∈ rounds →
        after.state.fuel < before.fuel ∨
          before.fuel = 0 ∧ y.answer = .error .stepBudgetExceeded) ∧
      Round.passes rounds ≤ r.fuel + 1 ∧
      ∀ depth, .frame depth ∈ rounds → depth ≤ max 1 limits.maxCallDepth := by
  intro p y
  have hp : p.Small := small_compose hs.wellFormed
  obtain ⟨rounds, x, h⟩ := exists_conducts hp limits.maxCallDepth entry arg r
  have hy : y = x := h.evaluate_eq hp
  clear_value y
  subst hy
  refine ⟨rounds, fun rounds' x => ⟨h.unique, ?_⟩, ?_⟩
  · rintro ⟨rfl, rfl⟩
    exact h
  · cases h with
    | refused | unready => exact ⟨by simp, Nat.zero_le _, by simp⟩
    | driven hs hr h =>
      have hpaid := (h.paid hp (Nat.le_refl _)).cons_frame (Nat.le_add_right 1 _)
      refine ⟨fun before after hm => ?_, ?_, fun depth hm => ?_⟩
      · refine (hpaid.pass before after hm).imp_right (And.imp_right fun ha => ?_)
        rw [ha]
        rfl
      · have hle : _ ≤ r.fuel ∨ _ ≤ r.fuel + 1 ∧ _ := hpaid.passes_le
        omega
      · have hle : depth ≤ 1 + (limits.maxCallDepth - 1) := hpaid.frame depth hm
        omega

/-- With seven units of fuel, which the relay takes, and two frames that may live at a time, there
are at most eight chunks, and no frame in the frame of the function that it calls. -/
theorem compose_ends_relay :
    ∃ rounds x,
      (compose .withRelay).Conducts 2 ⟨5⟩ Addr.unit ⟨.withRelay, 7, .start .none⟩ rounds x ∧
        Round.passes rounds ≤ 8 ∧ ∀ depth, .frame depth ∈ rounds → depth ≤ 2 := by
  obtain ⟨rounds, hone, -, hle, hdepth⟩ :=
    compose_ends .withRelay ⟨7, 2⟩ ⟨5⟩ Addr.unit ⟨.withRelay, 7, .start .none⟩
  exact ⟨rounds, _, (hone rounds _).mpr ⟨rfl, rfl⟩, hle, hdepth⟩

end Program

end ValueMachine
