import ValueMachine.Proofs.Eval.Calls

/-! How calls nest.

The scopes that are open at a time form a stack. A run tells of calls that nest: a scope is
entered one deeper than those that are open, the scope that is left is the innermost, and
there are never more than the limits allow (`Nests`). What is open when the run ends are the
scopes of the frames that are live then, for the machine (`Machine.live`) as for composed
code, where they are the calls that the end of the run unwinds (`Exec.frameLive`).

The machine may also tell of its instructions. Then calls and returns come right after their
instructions, and an instruction that replaces the running function leaves its scope and
enters that of the other at the same depth (`Moves`). -/
namespace ValueMachine

variable {limit : Nat} {opened mid left : List Scope} {events events' : List TraceEvent}

/-! ### Telling -/

namespace Trace

/-- The trace after the events have been told. -/
def tell (t : Trace) (events : List TraceEvent) : Trace := events.foldl emit t

variable (t : Trace)

theorem tell_cons (e : TraceEvent) (events : List TraceEvent) :
    t.tell (e :: events) = (t.emit e).tell events := rfl

theorem tell_append (events events' : List TraceEvent) :
    t.tell (events ++ events') = (t.tell events).tell events' := List.foldl_append

theorem toList_tell (events : List TraceEvent) :
    (t.tell events).events.toList = t.events.toList ++ events.filter t.mask.wants := by
  induction events generalizing t with
  | nil => exact (List.append_nil _).symm
  | cons e events ih =>
    rw [tell_cons, ih, emit_mask]
    cases h : t.mask.wants e with
    | false => rw [emit_of_unwanted h, List.filter_cons_of_neg (by simp [h])]
    | true =>
      rw [emit_of_wanted h, List.filter_cons_of_pos h, Array.toList_push, List.append_assoc]
      rfl

theorem calls_tell (h : t.mask.WantsCalls) (events : List TraceEvent) :
    (t.tell events).calls = t.calls ++ events.filter fun e => !e.isInstr := by
  induction events generalizing t with
  | nil => exact (List.append_nil _).symm
  | cons e events ih =>
    rw [tell_cons, ih _ (by rw [emit_mask]; exact h), calls_emit h, List.append_assoc]
    cases he : e.isInstr with
    | false => simp [he]
    | true => simp [he]

end Trace

/-! ### Nesting -/

/-- The events lead from some open scopes to others, the innermost first. A scope that is
entered is one deeper than those that are open, which are fewer than the limit; a scope that
is left is the innermost one, at its depth. -/
inductive Nests (limit : Nat) : List Scope → List TraceEvent → List Scope → Prop
  | nil (opened : List Scope) : Nests limit opened [] opened
  | enter {opened left : List Scope} {events : List TraceEvent} (scope : Scope)
    (hroom : opened.length < limit) (h : Nests limit (scope :: opened) events left) :
    Nests limit opened (.enter scope (opened.length + 1) :: events) left
  | exit {scope : Scope} {opened left : List Scope} {events : List TraceEvent}
    (h : Nests limit opened events left) :
    Nests limit (scope :: opened) (.exit scope (opened.length + 1) :: events) left

/-- Whether the event tells of a call. -/
def TraceEvent.isCall : TraceEvent → Bool
  | enter _ _ | exit _ _ => true
  | _ => false

namespace Nests

theorem append (h : Nests limit opened events mid) (h' : Nests limit mid events' left) :
    Nests limit opened (events ++ events') left := by
  induction h with
  | nil => exact h'
  | enter scope hroom _ ih => exact .enter scope hroom (ih h')
  | exit _ ih => exact .exit (ih h')

theorem isCall (h : Nests limit opened events left) : ∀ e ∈ events, e.isCall = true := by
  induction h with
  | nil => exact fun _ he => absurd he List.not_mem_nil
  | enter scope _ _ ih => exact List.forall_mem_cons.mpr ⟨rfl, ih⟩
  | exit _ ih => exact List.forall_mem_cons.mpr ⟨rfl, ih⟩

/-- There is nothing to leave out of calls that nest. -/
theorem filter_eq (h : Nests limit opened events left) :
    (events.filter fun e => !e.isInstr) = events :=
  List.filter_eq_self.mpr fun e he => by
    have hcall := h.isCall e he
    cases e with
    | instr => cases hcall
    | _ => rfl

/-- The calls determine what is left open. -/
theorem left_unique {left' : List Scope} (h : Nests limit opened events left)
    (h' : Nests limit opened events left') : left = left' := by
  induction h with
  | nil => cases h'; rfl
  | enter scope _ _ ih =>
    cases h' with
    | enter _ _ h' => exact ih h'
  | exit _ ih =>
    cases h' with
    | exit h' => exact ih h'

end Nests

/-- The second trace has been told of calls beside the first, which lead from the scopes that
were open to those that are left. -/
def Trace.Nested (limit : Nat) (t : Trace) (opened : List Scope) (t' : Trace)
    (left : List Scope) : Prop :=
  ∃ events, t' = t.tell events ∧ Nests limit opened events left

namespace Trace.Nested

variable {t t' t'' : Trace} {scope inner : Scope}

theorem refl (t : Trace) (opened : List Scope) : t.Nested limit opened t opened :=
  ⟨[], rfl, .nil opened⟩

theorem trans (h : t.Nested limit opened t' mid) (h' : t'.Nested limit mid t'' left) :
    t.Nested limit opened t'' left := by
  obtain ⟨events, rfl, h⟩ := h
  obtain ⟨events', rfl, h'⟩ := h'
  exact ⟨events ++ events', (t.tell_append events events').symm, h.append h'⟩

theorem enter (t : Trace) (scope : Scope) (hroom : opened.length < limit) :
    t.Nested limit opened (t.emit (.enter scope (opened.length + 1))) (scope :: opened) :=
  ⟨[.enter scope (opened.length + 1)], rfl, .enter scope hroom (.nil _)⟩

theorem exit (t : Trace) (scope : Scope) (opened : List Scope) :
    t.Nested limit (scope :: opened) (t.emit (.exit scope (opened.length + 1))) opened :=
  ⟨[.exit scope (opened.length + 1)], rfl, .exit (.nil _)⟩

end Trace.Nested

/-- Events of which so much holds are told, and these scopes are live at the end; none is if
the computation ends with a value. -/
structure Tells {ε α : Type} (Q : List TraceEvent → List Scope → Prop) (t : Trace)
    (x : EStateM.Result ε RunState α) (live : List Scope) : Prop where
  told : ∃ events, x.state.trace = t.tell events ∧ Q events live
  returned : ∀ a r, x = .ok a r → live = []

/-! ### Composed code -/

namespace Exec

/-- The scopes of the frames below that are live when a chunk ends: none, unless it ends in a
function that it calls. -/
def codeLive (below : Activation → RunState → List Scope) (runner : Runner) (act : Activation) :
    List Instr → Nat → Regs → RunState → List Scope
  | [], _, _, _ => []
  | i :: rest, place, regs, r =>
    match instr act i place regs r with
    | .ok (regs, .next) r => codeLive below runner act rest (place + 1) regs r
    | .ok (regs, .call dst callee) r =>
      match runner ⟨act.func, place⟩ callee r with
      | .ok value r => codeLive below runner act rest (place + 1) (regs.set dst value) r
      | .error _ _ => below callee r
    | _ => []

/-- The scopes of a frame and of those below that are live when the frame ends: none, if it
returns. -/
def chunkLive (below : Activation → RunState → List Scope) (runner : Runner) (p : Program)
    (depth : Nat) : Nat → Activation → Scope → Nat → Regs → RunState → List Scope
  | 0, _, scope, _, _, _ => [scope]
  | n + 1, act, scope, number, regs, r =>
    match p.functions[act.func.index]? with
    | none => [scope]
    | some chunks =>
      match chunks[number]? with
      | none => [scope]
      | some c =>
        match runCode runner act (number + 1) c.code c.start regs r with
        | .error _ _ => codeLive below runner act c.code c.start regs r ++ [scope]
        | .ok (.jump number regs) r => chunkLive below runner p depth n act scope number regs r
        | .ok (.finish _) _ => []
        | .ok (.replace callee inner) r =>
          chunkLive below runner p depth n callee inner 0 callee.freshRegs
            { r with trace := (r.trace.emit (.exit scope depth)).emit (.enter inner depth) }

/-- The same for a frame of its own, under which so many more may be opened. -/
def frameLive (p : Program) : Nat → Nat → Activation → RunState → List Scope
  | deeper, depth, act, r =>
    let below : Activation → RunState → List Scope :=
      match deeper with
      | 0 => fun _ _ => []
      | deeper + 1 => frameLive p deeper (depth + 1)
    chunkLive below (callees p deeper depth) p depth (r.fuel + 1) act (.frame act.func) 0
      act.freshRegs { r with trace := r.trace.emit (.enter (.frame act.func) depth) }

/-- From the open scopes a computation tells of calls that nest. It leaves the scopes open
that are live and those outside them. -/
abbrev Leaves {ε α : Type} (limit : Nat) (opened outer : List Scope) (t : Trace)
    (x : EStateM.Result ε RunState α) (live : List Scope) : Prop :=
  Tells (fun events live => Nests limit opened events (live ++ outer)) t x live

section Leaves
variable {ε α : Type} {t t' : Trace} {live outer : List Scope} {x : EStateM.Result ε RunState α}

/-- What was told before is told first. -/
theorem Leaves.after (h : Leaves limit mid outer t' x live) (ht : t.Nested limit opened t' mid) :
    Leaves limit opened outer t x live :=
  ⟨ht.trans h.told, h.returned⟩

/-- A computation that tells nothing. -/
theorem Leaves.silent (hx : x.state.trace = t) : Leaves limit opened opened t x [] :=
  ⟨⟨[], hx, .nil opened⟩, fun _ _ _ => rfl⟩

end Leaves

theorem instr_trace (act : Activation) (i : Instr) (place : Nat) (regs : Regs) (r : RunState) :
    (instr act i place regs r).state.trace = r.trace := by
  obtain ⟨store, fuel, trace⟩ := r
  cases fuel with
  | zero => rfl
  | succ fuel =>
    cases hx : i.exec act regs store with
    | ok out t => rw [instr_of_ok hx, EStateM.Result.state_ok]
    | error e t => rw [instr_of_error hx, EStateM.Result.state_error]

section Runner
variable {below : Activation → RunState → List Scope} {runner : Runner} {outer : List Scope}
  (hrunner : ∀ scope site callee r,
    Leaves limit (scope :: outer) (scope :: outer) r.trace (runner site callee r) (below callee r))
include hrunner

theorem runCode_leaves (scope : Scope) (act : Activation) (following : Nat) (code : List Instr)
    (place : Nat) (regs : Regs) (r : RunState) :
    Leaves limit (scope :: outer) (scope :: outer) r.trace
      (runCode runner act following code place regs r)
      (codeLive below runner act code place regs r) := by
  induction code generalizing place regs r with
  | nil => exact .silent rfl
  | cons i rest ih =>
    have htrace := instr_trace act i place regs r
    rw [runCode_cons, codeLive]
    cases hi : instr act i place regs r with
    | error e u =>
      rw [hi] at htrace
      rw [run_bind_of_error hi]
      exact .silent htrace
    | ok out u =>
      rw [hi] at htrace
      rw [run_bind_of_ok hi, ← show u.trace = r.trace from htrace]
      obtain ⟨regs', effect⟩ := out
      cases effect with
      | next => exact ih _ _ _
      | call dst callee =>
        have hcall := hrunner scope ⟨act.func, place⟩ callee u
        dsimp only
        cases hv : runner ⟨act.func, place⟩ callee u with
        | error e w =>
          rw [hv] at hcall
          rw [show afterInstr runner act following rest place (regs', .call dst callee) u = _ from
            run_bind_of_error hv]
          exact ⟨hcall.told, fun _ _ h => by cases h⟩
        | ok value w =>
          rw [hv] at hcall
          rw [show afterInstr runner act following rest place (regs', .call dst callee) u = _ from
            run_bind_of_ok hv]
          refine (ih _ _ w).after ?_
          have htold := hcall.told
          rw [hcall.returned value w rfl] at htold
          exact htold
      | _ => exact .silent rfl

theorem runChunks_leaves (hroom : outer.length < limit) (p : Program) (n : Nat)
    (act : Activation) (scope : Scope) (number : Nat) (regs : Regs) (r : RunState) :
    Leaves limit (scope :: outer) outer r.trace
      (runChunks runner p (outer.length + 1) n act scope number regs r)
      (chunkLive below runner p (outer.length + 1) n act scope number regs r) := by
  induction n generalizing act scope number regs r with
  | zero => exact ⟨Trace.Nested.refl _ _, fun _ _ h => by cases h⟩
  | succ n ih =>
    cases hf : p.functions[act.func.index]? with
    | none =>
      rw [runChunks_of_absent runner _ n scope number regs hf, chunkLive, hf]
      exact ⟨Trace.Nested.refl _ _, fun _ _ h => by cases h⟩
    | some chunks =>
      cases hc : chunks[number]? with
      | none =>
        rw [runChunks_of_missing runner _ n scope regs hf hc, chunkLive, hf]
        dsimp only
        rw [hc]
        exact ⟨Trace.Nested.refl _ _, fun _ _ h => by cases h⟩
      | some c =>
        have hcode := runCode_leaves hrunner scope act (number + 1) c.code c.start regs r
        rw [runChunks_succ runner _ n scope regs hf hc, chunkLive, hf]
        dsimp only
        rw [hc]
        dsimp only
        cases hr : runCode runner act (number + 1) c.code c.start regs r with
        | error e u =>
          rw [hr] at hcode
          rw [run_bind_of_error hr]
          refine ⟨?_, fun _ _ h => by cases h⟩
          rw [List.append_assoc]
          exact hcode.told
        | ok out u =>
          rw [hr] at hcode
          rw [run_bind_of_ok hr]
          rw [hcode.returned out u rfl] at hcode
          have htold : r.trace.Nested limit (scope :: outer) u.trace (scope :: outer) := hcode.told
          cases out with
          | jump number regs => exact (ih act scope number regs u).after htold
          | finish value =>
            exact ⟨htold.trans (.exit u.trace scope outer), fun _ _ _ => rfl⟩
          | replace callee inner =>
            let entered :=
              (u.trace.emit (.exit scope (outer.length + 1))).emit (.enter inner (outer.length + 1))
            exact (ih callee inner 0 callee.freshRegs { u with trace := entered }).after
              (htold.trans ((Trace.Nested.exit _ _ _).trans (.enter _ inner hroom)))

end Runner

theorem runFrame_leaves (p : Program) (deeper : Nat) (outer : List Scope)
    (hroom : outer.length + 1 + deeper ≤ limit) (act : Activation) (r : RunState) :
    Leaves limit outer outer r.trace (runFrame p deeper (outer.length + 1) act r)
      (frameLive p deeper (outer.length + 1) act r) := by
  have hlt : outer.length < limit := by omega
  have hentered := Trace.Nested.enter r.trace (.frame act.func) hlt
  induction deeper generalizing outer act r with
  | zero =>
    rw [runFrame_eq, frameLive]
    exact (runChunks_leaves (fun _ _ _ _ => .silent rfl) hlt p _ act _ 0 _ _).after hentered
  | succ deeper ih =>
    rw [runFrame_eq, frameLive]
    refine (runChunks_leaves (fun scope site callee r => ?_) hlt p _ act _ 0 _ _).after hentered
    have hlt' : (scope :: outer).length < limit := by rw [List.length_cons]; omega
    exact ih (scope :: outer) (by rw [List.length_cons]; omega) callee r hlt' (.enter _ _ hlt')

end Exec

/-! ### The machine -/

/-- What an instruction leaves to be done tells which instruction it is: a call is left by a
call only, a return by a return, and a function takes the place of another after a tail call
or a deferral. -/
def Effect.Asked (op : Opcode) : Effect → Prop
  | next | goto _ => op ≠ .call ∧ op ≠ .tailCall ∧ op ≠ .defer ∧ op ≠ .ret
  | call _ _ => op = .call
  | replace callee inner => op = .tailCall ∧ inner = .frame callee.func ∨
      op = .defer ∧ ∃ proved, inner = .deferral callee.func proved
  | finish _ => op = .ret

theorem Work.into_next (regs : Regs) (dst : Reg) (x : Work Addr) (s : Store) :
    Ends (into regs dst x s) (fun out _ => out.2 = .next) fun _ _ => True :=
  .bind_any fun _ _ => rfl

theorem Instr.exec_asked (act : Activation) (regs : Regs) (i : Instr) (s : Store) :
    Ends (i.exec act regs s) (fun out _ => out.2.Asked i.opcode) fun _ _ => True := by
  cases i with
  | nop => exact ⟨nofun, nofun, nofun, nofun⟩
  | jmp target => exact ⟨nofun, nofun, nofun, nofun⟩
  | trap code => trivial
  | branch scrutinee payload targets =>
    exact .bind_any fun _ _ => .bind_any fun _ _ => .bind_any fun _ _ =>
      ⟨nofun, nofun, nofun, nofun⟩
  | call dst func args => exact .bind_any fun _ _ => .bind_any fun _ _ => .bind_any fun _ _ => rfl
  | tailCall func args =>
    exact .bind_any fun _ _ => .bind_any fun _ _ => .bind_any fun _ _ => .inl ⟨rfl, rfl⟩
  | defer cond onProved onDisproved args =>
    exact .bind_any fun _ _ => .bind_any fun proved _ => .bind_any fun _ _ => .bind_any fun _ _ =>
      .bind_any fun _ _ => .inr ⟨rfl, proved, rfl⟩
  | ret src => exact .bind_any fun _ _ => .bind_any fun _ _ => rfl
  | _ =>
    refine (Work.into_next regs _ _ s).imp_value fun out _ h => ?_
    rw [h]
    exact ⟨nofun, nofun, nofun, nofun⟩

/-- The events of a machine that tells of everything, from some open scopes to others. Each
instruction is told of before it is done; the last one may stop the run. A call enters a
scope and a return leaves one. An instruction that replaces the running function leaves its
scope and enters that of the other, at the same depth. -/
inductive Moves (limit : Nat) : List Scope → List TraceEvent → List Scope → Prop
  | nil (opened : List Scope) : Moves limit opened [] opened
  | stop {scope : Scope} {outer : List Scope} (func : FuncId) (place : Nat) (op : Opcode) :
    Moves limit (scope :: outer) [.instr func place op] (scope :: outer)
  | inside {scope : Scope} {outer left : List Scope} {events : List TraceEvent} (func : FuncId)
    (place : Nat) {op : Opcode} (hop : op ≠ .call ∧ op ≠ .tailCall ∧ op ≠ .defer ∧ op ≠ .ret)
    (h : Moves limit (scope :: outer) events left) :
    Moves limit (scope :: outer) (.instr func place op :: events) left
  | call {scope : Scope} {outer left : List Scope} {events : List TraceEvent} (func : FuncId)
    (place : Nat) (callee : FuncId) (hroom : (scope :: outer).length < limit)
    (h : Moves limit (.frame callee :: scope :: outer) events left) :
    Moves limit (scope :: outer) (.instr func place .call ::
      .enter (.frame callee) ((scope :: outer).length + 1) :: events) left
  | tailCall {scope : Scope} {outer left : List Scope} {events : List TraceEvent} (func : FuncId)
    (place : Nat) (callee : FuncId) (h : Moves limit (.frame callee :: outer) events left) :
    Moves limit (scope :: outer) (.instr func place .tailCall ::
      .exit scope (outer.length + 1) :: .enter (.frame callee) (outer.length + 1) :: events) left
  | defer {scope : Scope} {outer left : List Scope} {events : List TraceEvent} (func : FuncId)
    (place : Nat) (callee : FuncId) (proved : Bool)
    (h : Moves limit (.deferral callee proved :: outer) events left) :
    Moves limit (scope :: outer) (.instr func place .defer :: .exit scope (outer.length + 1) ::
      .enter (.deferral callee proved) (outer.length + 1) :: events) left
  | ret {scope : Scope} {outer left : List Scope} {events : List TraceEvent} (func : FuncId)
    (place : Nat) (h : Moves limit outer events left) :
    Moves limit (scope :: outer)
      (.instr func place .ret :: .exit scope (outer.length + 1) :: events) left

/-- What is told of a machine nests, if its instructions are left out. -/
theorem Moves.nests (h : Moves limit opened events left) (hroom : opened.length ≤ limit) :
    Nests limit opened (events.filter fun e => !e.isInstr) left := by
  induction h with
  | nil opened => exact .nil opened
  | stop func place op => exact .nil _
  | inside func place _ _ ih => exact ih hroom
  | call func place callee hlt _ ih => exact .enter _ hlt (ih hlt)
  | tailCall func place callee _ ih => exact .exit (.enter _ hroom (ih hroom))
  | defer func place callee proved _ ih => exact .exit (.enter _ hroom (ih hroom))
  | ret func place _ ih => exact .exit (ih (Nat.le_of_succ_le hroom))

namespace Machine

/-- The scopes of the frames, the innermost first. -/
def scopes (m : Machine) : List Scope := m.frame.scope :: m.callers.map (·.frame.scope)

/-- The scopes of the frames that are live when a run ends: none, if the entry frame
returns. -/
def live (maxDepth : Nat) : Nat → Machine → List Scope
  | 0, m => m.scopes
  | fuel + 1, m =>
    match m.fetch with
    | none => m.scopes
    | some i =>
      match m.step maxDepth i with
      | .more m' => live maxDepth fuel m'
      | .done _ _ _ => []
      | .stop _ _ _ => m.scopes

end Machine

/-- What a step tells goes before what is told of the machine that it leads to. -/
def Step.Tells (limit : Nat) (m : Machine) : Step → Prop
  | .more m' => ∃ told, m'.trace = m.trace.tell told ∧
      ∀ events left, Moves limit m'.scopes events left → Moves limit m.scopes (told ++ events) left
  | .done _ _ t => ∃ told, t = m.trace.tell told ∧ Moves limit m.scopes told []
  | .stop _ _ t => ∃ told, t = m.trace.tell told ∧ Moves limit m.scopes told m.scopes

namespace Machine

theorem step_tells {maxDepth : Nat} (hd : maxDepth ≤ limit) (i : Instr) (m : Machine) :
    (m.step maxDepth i).Tells limit m := by
  have htakes := m.step_takes maxDepth i
  generalize m.step maxDepth i = x at htakes
  obtain ⟨⟨act, regs, pc, scope⟩, callers, depth, depth_eq, store, trace⟩ := m
  obtain rfl : depth = (callers.map (·.frame.scope)).length + 1 := by rw [depth_eq, List.length_map]
  have hasked := i.exec_asked act regs store
  cases htakes with
  | halt hx => exact ⟨_, rfl, .stop act.func pc.toNat i.opcode⟩
  | next hx | goto hx =>
    exact ⟨[_], rfl, fun events left h => .inside act.func pc.toNat (hasked.of_ok hx) h⟩
  | deep hx hd => exact ⟨[_], rfl, .stop act.func pc.toNat i.opcode⟩
  | @call _ _ callee _ hx hdeep =>
    have hop : i.opcode = .call := hasked.of_ok hx
    have hroom : (scope :: callers.map (·.frame.scope)).length < limit := by
      dsimp only at hdeep
      rw [List.length_cons]
      omega
    refine ⟨[_, _], rfl, fun events left h => ?_⟩
    rw [hop]
    exact .call act.func pc.toNat callee.func hroom h
  | @replace _ callee _ _ hx =>
    obtain ⟨hop, rfl⟩ | ⟨hop, proved, rfl⟩ := hasked.of_ok hx
    · refine ⟨[_, _, _], rfl, fun events left h => ?_⟩
      rw [hop]
      exact .tailCall act.func pc.toNat callee.func h
    · refine ⟨[_, _, _], rfl, fun events left h => ?_⟩
      rw [hop]
      exact .defer act.func pc.toNat callee.func proved h
  | done hx hc =>
    have hop : i.opcode = .ret := hasked.of_ok hx
    obtain rfl : callers = [] := hc
    refine ⟨[_, _], rfl, ?_⟩
    rw [hop]
    exact .ret act.func pc.toNat (.nil [])
  | resume hx hc =>
    have hop : i.opcode = .ret := hasked.of_ok hx
    obtain rfl : callers = _ := hc
    refine ⟨[_, _], rfl, fun events left h => ?_⟩
    rw [hop]
    exact .ret act.func pc.toNat h

/-- What a run tells of a machine. -/
theorem run_tells {maxDepth : Nat} (hd : maxDepth ≤ limit) (fuel : Nat) (m : Machine) :
    Tells (Moves limit m.scopes) m.trace (run maxDepth fuel m) (live maxDepth fuel m) := by
  induction fuel generalizing m with
  | zero =>
    cases hi : m.fetch with
    | none =>
      rw [run_of_none hi]
      exact ⟨⟨[], rfl, .nil _⟩, fun _ _ h => by cases h⟩
    | some i =>
      rw [run_zero hi]
      exact ⟨⟨[], rfl, .nil _⟩, fun _ _ h => by cases h⟩
  | succ fuel ih =>
    unfold live
    cases hi : m.fetch with
    | none =>
      rw [run_of_none hi]
      exact ⟨⟨[], rfl, .nil _⟩, fun _ _ h => by cases h⟩
    | some i =>
      have hstep := m.step_tells hd i
      rw [run_succ hi]
      dsimp only
      cases hm : m.step maxDepth i with
      | more m' =>
        rw [hm] at hstep
        obtain ⟨told, htrace, hmoves⟩ := hstep
        obtain ⟨events, hrest, hleft⟩ := (ih m').told
        refine ⟨⟨told ++ events, ?_, hmoves _ _ hleft⟩, (ih m').returned⟩
        rw [Trace.tell_append, ← htrace]
        exact hrest
      | done value s t =>
        rw [hm] at hstep
        exact ⟨hstep, fun _ _ _ => rfl⟩
      | stop e s t =>
        rw [hm] at hstep
        exact ⟨hstep, fun _ _ h => by cases h⟩

end Machine

/-- What is told of a machine from its start: nothing if it is not entered, otherwise that it
is entered and what it does then. -/
inductive Paces (limit : Nat) : List TraceEvent → List Scope → Prop
  | nil : Paces limit [] []
  | entry {events : List TraceEvent} {left : List Scope} (func : FuncId)
    (h : Moves limit [.frame func] events left) :
    Paces limit (.enter (.frame func) 1 :: events) left

theorem Paces.nests (h : Paces limit events left) (hlimit : 1 ≤ limit) :
    Nests limit [] (events.filter fun e => !e.isInstr) left := by
  cases h with
  | nil => exact .nil []
  | entry func h => exact .enter _ hlimit (h.nests hlimit)

theorem Machine.evaluate_tells {maxDepth : Nat} (hd : maxDepth ≤ limit) (act : Activation)
    (r : RunState) : Tells (Paces limit) r.trace (evaluate maxDepth act r)
      (live maxDepth r.fuel (entry act r)) := by
  obtain ⟨⟨events, htrace, hmoves⟩, hreturned⟩ := run_tells hd r.fuel (entry act r)
  have htold : (evaluate maxDepth act r).state.trace =
      r.trace.tell (.enter (.frame act.func) 1 :: events) := htrace
  exact ⟨⟨_, htold, .entry act.func hmoves⟩, hreturned⟩

end ValueMachine
