import ValueMachine.Proofs.Eval.Composed

/-! What a run adds to the store.

An instruction adds at most one value, none if it fails, and never a shape or a function
(`Instr.exec_gains`). It is paid for before it is done, so a run adds no more values than it
takes steps, and one that ends in a fault has taken a step for nothing
(`RunState.PaysFor`). For the latter no run may come to the end of its code: a machine does
not, because its frames are sound, and composed code does not, because the chunks of a
verified body lead only to each other, whatever frame they are run in. -/
namespace ValueMachine

variable {ε α β : Type} {s t u : Store}

/-! ### What a store gains -/

/-- The second store has at most so many values more, none of which is concrete, and no
more shapes or functions. -/
structure Store.Gains (s : Store) (n : Nat) (t : Store) : Prop where
  functions : t.functions = s.functions
  shapes : t.shapes = s.shapes
  values : ∃ vs, t.values.toList = s.values.toList ++ vs ∧ vs.length ≤ n ∧
    ∀ v ∈ vs, v.isAbstract = true

namespace Store

theorem Gains.refl (s : Store) (n : Nat) : s.Gains n s :=
  ⟨rfl, rfl, [], by simp, Nat.zero_le n, fun _ hv => absurd hv List.not_mem_nil⟩

theorem Gains.mono {m n : Nat} (h : s.Gains m t) (hle : m ≤ n) : s.Gains n t := by
  obtain ⟨hf, hs, vs, hvs, hlen, ha⟩ := h
  exact ⟨hf, hs, vs, hvs, Nat.le_trans hlen hle, ha⟩

theorem Gains.trans {m n : Nat} (h : s.Gains m t) (h' : t.Gains n u) : s.Gains (m + n) u := by
  obtain ⟨hf, hs, vs, hvs, hlen, ha⟩ := h
  obtain ⟨hf', hs', ws, hws, hlen', ha'⟩ := h'
  refine ⟨hf'.trans hf, hs'.trans hs, vs ++ ws, ?_, ?_, ?_⟩
  · rw [hws, hvs, List.append_assoc]
  · rw [List.length_append]
    exact Nat.add_le_add hlen hlen'
  · exact List.forall_mem_append.mpr ⟨ha, ha'⟩

theorem Gains.insert {v : Value} (ha : v.isAbstract = true) :
    s.Gains 1 { s with values := s.values.insert v } :=
  ⟨rfl, rfl, [v], Interner.toList_insert _ _, Nat.le_refl 1, List.forall_mem_singleton.mpr ha⟩

/-- The computation adds at most one value, and none if it fails. -/
def AddsOne (op : EStateM ε Store α) : Prop :=
  ∀ s, Ends (op s) (fun _ t => s.Gains 1 t) fun _ t => s.Gains 0 t

/-- A computation that leaves the store as it is. -/
theorem gains_of_asks {op : EStateM ε Store α} (h : Follows Eq op) (s : Store) {m : α → Nat}
    {n : Nat} : Ends (op s) (fun x t => s.Gains (m x) t) fun _ t => s.Gains n t := by
  cases hr : op s with
  | ok x t =>
    cases h.of_ok hr
    exact .refl s _
  | error e t =>
    cases h.of_error hr
    exact .refl s _

namespace AddsOne

theorem throw (e : ε) : AddsOne (throwThe ε e : EStateM ε Store α) := fun s => .refl s 0

theorem after {op : EStateM ε Store α} {next : α → EStateM ε Store β} (h : Follows Eq op)
    (hn : ∀ x, AddsOne (next x)) : AddsOne (op >>= next) := by
  intro s
  refine Ends.bind ?_
  cases hr : op s with
  | ok x t =>
    cases h.of_ok hr
    exact hn x s
  | error e t =>
    cases h.of_error hr
    exact .refl s 0

end AddsOne

/-- Interning a value adds it, unless it is there. -/
theorem intern_adds {v : Value} (ha : v.isAbstract = true) (s : Store) :
    Ends (intern v s) (fun _ t => t = s ∨ t = { s with values := s.values.insert v })
      fun _ t => t = s := by
  rw [intern_eq ha]
  refine Ends.bind (ask_ends (fun _ _ => ?_) fun _ _ => rfl)
  cases hf : s.find? v with
  | some a =>
    rw [place_of_known hf]
    exact .inl rfl
  | none =>
    by_cases hlt : s.size < maxValues
    · rw [place_of_new hf hlt]
      exact .inr rfl
    · rw [place_of_full hf hlt]
      rfl

theorem intern_addsOne {v : Value} (ha : v.isAbstract = true) : AddsOne (intern v) := by
  intro s
  refine (intern_adds ha s).imp (fun _ t ht => ?_) fun _ t ht => ?_
  · rcases ht with rfl | rfl
    · exact .refl t 1
    · exact .insert ha
  · subst ht
    exact .refl t 0

theorem cons_addsOne (head tail : Addr) : AddsOne (cons head tail) :=
  .after (ask_follows _) fun _ => intern_addsOne rfl

theorem identity_addsOne (a b : Addr) : AddsOne (identity a b) := by
  refine .after (ask_follows _) fun _ => .after (ask_follows _) fun _ => ?_
  split
  · exact intern_addsOne rfl
  · exact .throw _

theorem closure_addsOne (func : Addr) (captures : List Addr) : AddsOne (closure func captures) := by
  refine .after (ask_follows _) fun v => ?_
  cases v with
  | function f existing => exact intern_addsOne rfl
  | _ => exact .throw _

end Store

/-! ### Instructions -/

/-- The number of values that an instruction may have added before what is left to be done. -/
def Effect.gain : Effect → Nat
  | next => 1
  | _ => 0

namespace Work

open Store (AddsOne)

theorem lift_addsOne {op : StoreM α} (h : AddsOne op) : AddsOne (liftM op : Work α) :=
  fun s => lift_ends (h s)

theorem arith_addsOne (op : ArithOp) (a b : Addr) : AddsOne (arith op a b) := by
  refine .after (ask_follows _) fun v => .after (ask_follows _) fun w => ?_
  split
  · split
    · exact .throw _
    · split
      · exact lift_addsOne (Store.intern_addsOne rfl)
      · exact .throw _
  · exact lift_addsOne (Store.intern_addsOne rfl)
  all_goals exact .throw _

theorem into_gains {x : Work Addr} (h : AddsOne x) (regs : Regs) (dst : Reg) (s : Store) :
    Ends (into regs dst x s) (fun out t => s.Gains out.2.gain t) fun _ t => s.Gains 0 t :=
  Ends.bind (h s)

end Work

open Work in
/-- An instruction adds at most one value, and this only if the next one follows. -/
theorem Instr.exec_gains (act : Activation) (regs : Regs) (i : Instr) (s : Store) :
    Ends (i.exec act regs s) (fun out t => s.Gains out.2.gain t) fun _ t => s.Gains 0 t := by
  have hread (r : Reg) : Follows Eq (readReg regs r) := readReg_follows regs r
  have hreads (rs : List Reg) : Follows Eq (readRegs regs rs) := readRegs_follows regs rs
  cases i with
  | arith op dst a b =>
    exact into_gains (.after (hread a) fun _ => .after (hread b) fun _ => arith_addsOne op _ _) ..
  | tupleNew dst items =>
    exact into_gains (.after (hreads items) fun _ => lift_addsOne (Store.intern_addsOne rfl)) ..
  | cotupleNew dst id tag payload =>
    exact into_gains (.after (hread payload) fun _ => lift_addsOne (Store.intern_addsOne rfl)) ..
  | nil dst elem => exact into_gains (lift_addsOne (Store.intern_addsOne rfl)) ..
  | cons dst first rest =>
    exact into_gains (.after (hread first) fun _ => .after (hread rest) fun _ =>
      lift_addsOne (Store.cons_addsOne _ _)) ..
  | refl dst a b =>
    exact into_gains (.after (hread a) fun _ => .after (hread b) fun _ =>
      lift_addsOne (Store.identity_addsOne _ _)) ..
  | closure dst func captures =>
    exact into_gains (.after (hreads captures) fun _ => .after (hread func) fun _ =>
      lift_addsOne (Store.closure_addsOne _ _)) ..
  | _ => exact Store.gains_of_asks (exec_asks act regs rfl) s

/-! ### What is paid for -/

/-- Every value that the store gains is paid for with a unit of fuel, and so many more units
are used. -/
def RunState.Pays (r : RunState) (more : Nat) (r' : RunState) : Prop :=
  ∃ n, r.store.Gains n r'.store ∧ r'.fuel + n + more ≤ r.fuel

/-- The instruction that ends a run in a fault adds nothing. -/
def Stop.unused : Stop → Nat
  | fault _ _ => 1
  | fatal _ => 0

/-- The computation pays for what it adds. If it ends in a fault it has paid for one value
more. -/
def RunState.PaysFor (r : RunState) (x : EStateM.Result Stop RunState α) : Prop :=
  Ends x (fun _ r' => r.Pays 0 r') fun stop r' => r.Pays stop.unused r'

namespace RunState

variable {r r' r'' : RunState} {m n : Nat}

theorem Pays.refl (r : RunState) : r.Pays 0 r := ⟨0, .refl _ 0, Nat.le_refl _⟩

theorem Pays.mono (h : r.Pays n r') (hle : m ≤ n) : r.Pays m r' := by
  obtain ⟨k, hgains, hfuel⟩ := h
  exact ⟨k, hgains, by omega⟩

theorem Pays.trans (h : r.Pays m r') (h' : r'.Pays n r'') : r.Pays (m + n) r'' := by
  obtain ⟨k, hgains, hfuel⟩ := h
  obtain ⟨k', hgains', hfuel'⟩ := h'
  exact ⟨k + k', hgains.trans hgains', by omega⟩

theorem Pays.paysFor {x : EStateM.Result Stop RunState α} (h : r.Pays m r') (hx : r'.PaysFor x) :
    r.PaysFor x :=
  hx.imp (fun _ _ hp => (h.trans hp).mono (Nat.zero_le _))
    fun _ _ hp => (h.trans hp).mono (Nat.le_add_left _ _)

theorem PaysFor.state {x : EStateM.Result Stop RunState α} (h : r.PaysFor x) : r.Pays 0 x.state := by
  cases x with
  | ok a r' => exact h
  | error stop r' => exact Pays.mono h (Nat.zero_le _)

end RunState

/-! ### The machine -/

/-- The number of values that a step may have added. -/
def Step.gain : Step → Nat
  | more _ => 1
  | _ => 0

namespace Machine

/-- A step that is not the last one adds at most one value. -/
theorem step_gains (maxDepth : Nat) (i : Instr) (m : Machine) :
    m.store.Gains (m.step maxDepth i).gain (m.step maxDepth i).store := by
  have hexec := Instr.exec_gains m.frame.act m.frame.regs i m.store
  have htakes := m.step_takes maxDepth i
  generalize m.step maxDepth i = x at htakes
  cases htakes with
  | halt hx => exact hexec.of_error hx
  | next hx | deep hx hd | done hx hc => exact hexec.of_ok hx
  | goto hx | call hx hd | replace hx | resume hx hc =>
    exact Store.Gains.mono (hexec.of_ok hx) (Nat.zero_le 1)

/-- A run pays for what it adds. It does not run past the code, where a fault costs nothing. -/
theorem run_pays {m : Machine} (h : m.Sound) (maxDepth fuel : Nat) :
    (RunState.mk m.store fuel m.trace).PaysFor (run maxDepth fuel m) := by
  let first : RunState := ⟨m.store, fuel, m.trace⟩
  refine run_ends (fun m left => m.Sound ∧ first.Pays 0 ⟨m.store, left, m.trace⟩)
    ⟨h, .refl first⟩ (fun m left hm hi => ?_) (fun m hm => hm.2) fun m left i hm hi => ?_
  · obtain ⟨i, hi'⟩ := hm.1.fetch
    cases hi.symm.trans hi'
  · have hstep := step_sound hm.1 hi maxDepth
    have hgains := step_gains maxDepth i m
    generalize m.step maxDepth i = x at hstep hgains
    cases x with
    | more m' => exact ⟨hstep, hm.2.trans (n := 0) ⟨1, hgains, Nat.le_refl _⟩⟩
    | done value t trace => exact hm.2.trans (n := 0) ⟨0, hgains, Nat.le_succ _⟩
    | stop e t trace =>
      have hpays : RunState.Pays ⟨m.store, left + 1, m.trace⟩ e.unused ⟨t, left, trace⟩ :=
        ⟨0, hgains, by cases e <;> simp [Stop.unused]⟩
      exact (hm.2.trans hpays).mono (Nat.le_add_left _ _)

end Machine

/-! ### Composed code -/

/-- Where an instruction may lead. -/
def Effect.Of (i : Instr) : Effect → Prop
  | next | call _ _ => i.isTerminator = false
  | goto target => target ∈ i.targets
  | _ => True

namespace Instr

theorem into_of {i : Instr} (h : i.isTerminator = false) (regs : Regs) (dst : Reg) (x : Work Addr)
    (s : Store) : Ends (Work.into regs dst x s) (fun out _ => out.2.Of i) fun _ _ => True :=
  .bind_any fun _ _ => h

theorem exec_of (act : Activation) (regs : Regs) (i : Instr) (s : Store) :
    Ends (i.exec act regs s) (fun out _ => out.2.Of i) fun _ _ => True := by
  cases i with
  | nop => rfl
  | trap code => trivial
  | jmp target => exact List.mem_singleton_self target
  | branch scrutinee payload targets =>
    refine .bind_any fun _ _ => .bind_any fun (tag, _) t => .bind ?_
    exact (Work.targetFor_ends (i := .branch scrutinee payload targets) (b := act.body) rfl targets
      tag).imp (fun _ _ ht => ht.2) fun _ _ _ => trivial
  | call dst func args => exact .bind_any fun _ _ => .bind_any fun _ _ => .bind_any fun _ _ => rfl
  | tailCall func args =>
    exact .bind_any fun _ _ => .bind_any fun _ _ => .bind_any fun _ _ => trivial
  | defer cond onProved onDisproved args =>
    exact .bind_any fun _ _ => .bind_any fun _ _ => .bind_any fun _ _ => .bind_any fun _ _ =>
      .bind_any fun _ _ => trivial
  | ret src => exact .bind_any fun _ _ => .bind_any fun _ _ => trivial
  | _ => exact into_of rfl regs _ _ s

end Instr

/-- What an instruction of a chunk leaves to be done lies in the same code. -/
def Effect.Lands (code : Array Instr) (number : Nat) (rest : List Instr) (place : Nat) :
    Effect → Prop
  | next | call _ _ => Chunk.Within code number rest (place + 1)
  | goto target => ∃ place, Chunk.At code target.toNat place
  | _ => True

/-- The chunk that comes next is there. -/
def ChunkEnd.Lands (code : Array Instr) : ChunkEnd → Prop
  | jump number _ => ∃ place, Chunk.At code number place
  | _ => True

namespace Exec

/-- Functions run in this way pay for what they add. -/
def Runner.Pays (runner : Runner) : Prop :=
  ∀ (site : Site) (callee : Activation) (r : RunState), r.Pays 0 (runner site callee r).state

variable {b : Body} {shapes : ShapeTable} {values : Nat} (hb : b.Verified shapes values)
  {act : Activation} {regs : Regs}

section Chunk
include hb

/-- Whatever frame the code is run in, an instruction of a verified body leads to a place
of the body. -/
theorem exec_lands {i : Instr} {rest : List Instr} {number place : Nat}
    (hw : Chunk.Within b.code number (i :: rest) place) (s : Store) :
    Ends (i.exec act regs s) (fun out _ => out.2.Lands b.code number rest place)
      fun _ _ => True := by
  obtain ⟨j, hj, rfl⟩ := hw.head
  rw [Instr.exec_retarget]
  refine Ends.map ((Instr.exec_of act regs j s).imp_value fun out t hof => ?_)
  obtain ⟨regs', effect⟩ := out
  cases effect with
  | next => exact hw.next (hb.next_lt hj hof)
  | goto target =>
    have hlt : target.toNat < b.code.size := (hb.instrs place j hj).2.2.1 target hof
    exact ⟨_, Chunk.at_target (Array.mem_of_getElem? hj) hof hlt hb.size_lt⟩
  | call dst callee => exact hw.next (hb.next_lt hj hof)
  | _ => trivial

/-- An instruction is paid for with one unit, whether it adds a value or not. -/
theorem instr_pays {i : Instr} {rest : List Instr} {number place : Nat}
    (hw : Chunk.Within b.code number (i :: rest) place) (r : RunState) :
    Ends (instr act i place regs r)
      (fun out r' => r.Pays (1 - out.2.gain) r' ∧ out.2.Lands b.code number rest place)
      fun stop r' => r.Pays stop.unused r' := by
  obtain ⟨store, fuel, trace⟩ := r
  cases fuel with
  | zero => exact .refl _
  | succ fuel =>
    have hgains := Instr.exec_gains act regs i store
    have hlands : Ends (i.exec act regs store) _ _ := exec_lands hb hw store
    cases hx : i.exec act regs store with
    | ok out t =>
      rw [instr_of_ok hx]
      refine ⟨⟨_, hgains.of_ok hx, ?_⟩, hlands.of_ok hx⟩
      cases out.2 <;> simp [Effect.gain]
    | error e t =>
      rw [instr_of_error hx]
      refine ⟨0, hgains.of_error hx, ?_⟩
      cases e <;> simp [Halt.at, Stop.unused]

variable {runner : Runner} (hrunner : runner.Pays)
include hrunner

/-- A chunk pays for what it adds, and the next one is there. -/
theorem runCode_pays {number place : Nat} {code : List Instr}
    (hw : Chunk.Within b.code number code place) (regs : Regs) (r : RunState) :
    Ends (runCode runner act (number + 1) code place regs r)
      (fun e r' => r.Pays 0 r' ∧ e.Lands b.code) fun stop r' => r.Pays stop.unused r' := by
  induction code generalizing place regs r with
  | nil => exact ⟨.refl r, _, hw.fall⟩
  | cons i rest ih =>
    rw [runCode_cons]
    refine Ends.bind ((instr_pays hb hw r).imp_value fun out r' hout => ?_)
    obtain ⟨regs', effect⟩ := out
    obtain ⟨hpays, hlands⟩ := hout
    have hgo {m : Nat} {u : RunState} (hu : r.Pays m u)
        (hw : Chunk.Within b.code number rest (place + 1)) (regs : Regs) :
        Ends (runCode runner act (number + 1) rest (place + 1) regs u)
          (fun e v => r.Pays 0 v ∧ e.Lands b.code) fun stop v => r.Pays stop.unused v :=
      (ih hw regs u).imp (fun e v hv => ⟨(hu.trans hv.1).mono (Nat.zero_le _), hv.2⟩)
        fun stop v hv => (hu.trans hv).mono (Nat.le_add_left _ _)
    cases effect with
    | next => exact hgo hpays hlands _
    | goto target => exact ⟨hpays.mono (Nat.zero_le 1), hlands⟩
    | call dst callee =>
      -- The call has added nothing, so its step pays for a fault of the function.
      have hcall := hpays.trans (hrunner ⟨act.func, place⟩ callee r')
      refine Ends.bind ?_
      cases hr : runner ⟨act.func, place⟩ callee r' with
      | ok value u =>
        rw [hr] at hcall
        exact hgo hcall hlands _
      | error stop u =>
        rw [hr] at hcall
        refine hcall.mono ?_
        cases stop <;> simp [Stop.unused, Effect.gain]
    | replace callee inner => exact ⟨hpays.mono (Nat.zero_le 1), trivial⟩
    | finish value => exact ⟨hpays.mono (Nat.zero_le 1), trivial⟩

end Chunk

section Program
variable {base : Store} {p : Program} (hbase : base.WellFormed) (hp : p.From base)
include hbase hp

theorem runChunks_pays {runner : Runner} (hrunner : runner.Pays) (depth n : Nat)
    (act : Activation) (scope : Scope) {number : Nat} (regs : Regs) (r : RunState)
    (hnumber : ∀ b, base.body? act.func = some b → ∃ place, Chunk.At b.code number place) :
    r.PaysFor (runChunks runner p depth n act scope number regs r) := by
  induction n generalizing act scope number regs r with
  | zero => exact .refl r
  | succ n ih =>
    cases hf : p.functions[act.func.index]? with
    | none =>
      rw [runChunks_of_absent _ _ _ _ _ _ hf]
      exact .refl r
    | some chunks =>
      obtain ⟨b, hb, rfl⟩ := hp _ _ hf
      obtain ⟨place, c, hc, -⟩ := hnumber b hb
      have hverified := hbase.verified' hb
      have hw := (Chunk.Within.ofChunk hverified.code_pos hc).1
      rw [runChunks_succ _ _ _ _ _ hf hc]
      refine Ends.bind ((runCode_pays hverified hrunner hw regs r).imp_value fun e r' he => ?_)
      obtain ⟨hpays, hlands⟩ := he
      cases e with
      | jump number regs =>
        refine hpays.paysFor (ih act scope regs r' fun b' hb' => ?_)
        cases hb.symm.trans hb'
        exact hlands
      | finish value => exact hpays
      | replace callee inner =>
        have hfirst (b : Body) (hb : base.body? callee.func = some b) :
            ∃ place, Chunk.At b.code 0 place := ⟨0, Chunk.at_zero (hbase.verified' hb).code_pos⟩
        exact hpays.paysFor (ih callee inner callee.freshRegs
          { r' with trace := (r'.trace.emit (.exit scope depth)).emit (.enter inner depth) } hfirst)

theorem runFrame_pays_of {deeper depth : Nat} (h : Runner.Pays (callees p deeper depth))
    (act : Activation) (r : RunState) : r.PaysFor (runFrame p deeper depth act r) := by
  have hfirst (b : Body) (hb : base.body? act.func = some b) : ∃ place, Chunk.At b.code 0 place :=
    ⟨0, Chunk.at_zero (hbase.verified' hb).code_pos⟩
  rw [runFrame_eq]
  exact (RunState.Pays.refl r).paysFor (runChunks_pays hbase hp h depth _ act _ _
    { r with trace := r.trace.emit (.enter (.frame act.func) depth) } hfirst)

theorem callees_pays (deeper depth : Nat) : Runner.Pays (callees p deeper depth) := by
  induction deeper generalizing depth with
  | zero => exact fun _ _ r => .refl r
  | succ deeper ih =>
    exact fun _ callee r => (runFrame_pays_of hbase hp (ih (depth + 1)) callee r).state

/-- Composed code pays for what it adds, on whatever store it is run. -/
theorem runFrame_pays (deeper depth : Nat) (act : Activation) (r : RunState) :
    r.PaysFor (runFrame p deeper depth act r) :=
  runFrame_pays_of hbase hp (callees_pays hbase hp deeper depth) act r

end Program

end Exec

end ValueMachine
