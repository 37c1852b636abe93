import ValueMachine.Proofs.Eval.Composed
import ValueMachine.Proofs.Eval.Refusals

/-! Every evaluation keeps to the protocol of outcomes.

The shape of the outcome is fixed before the run. Whatever function returns at the end,
it is the entry frame that returns, and this frame owes the result of the entry function
from the start (`Machine.run_owes`, `Exec.runFrame_owes`). So the outcome can be stored,
and reads as a payload of the result shape or as a text. Nothing else can happen but
that the fuel or the room is used up, or that a function is missing from a program
(`Executor.outcome_protocol`). The program may be composed from any store. -/
namespace ValueMachine

variable {s t : Store} {act : Activation}

/-! ### Early ends -/

/-- The fuel is used up, the store is full, or a program lacks a function. -/
def EvalError.Explained (composed : Prop) (r : RunState) : EvalError → Prop
  | stepBudgetExceeded => r.fuel = 0
  | notComposed _ => composed
  | store e => e = .exhausted ∧ r.store.Full

/-- The fault has a short report, or the fatal error is explained. -/
def Stop.Explained (composed : Prop) (stop : Stop) (r : RunState) : Prop :=
  match stop with
  | fault f site => f.Bounded ∧ ∀ x ∈ site, x.place < UInt64.size
  | fatal e => e.Explained composed r

theorem Stop.Explained.imp {p q : Prop} {stop : Stop} {r : RunState} (h : stop.Explained p r)
    (hpq : p → q) : stop.Explained q r := by
  cases stop with
  | fault f site => exact h
  | fatal e =>
    cases e with
    | notComposed f => exact hpq h
    | _ => exact h

theorem Halt.Explained.at {h : Halt} (hh : h.Explained s) {composed : Prop} {site : Option Site}
    (hsite : ∀ x ∈ site, x.place < UInt64.size) (fuel : Nat) (trace : Trace) :
    (h.at site).Explained composed ⟨s, fuel, trace⟩ := by
  cases h with
  | fault f => exact ⟨hh, hsite⟩
  | fatal e =>
    obtain ⟨rfl, hfull⟩ := hh
    exact ⟨rfl, hfull⟩

theorem place_lt (place : UInt32) {func : FuncId} :
    ∀ x ∈ some (Site.mk func place.toNat), x.place < UInt64.size := by
  rintro _ ⟨⟩
  exact Nat.lt_trans place.toNat_lt (by decide)

/-! ### The machine -/

/-- What the entry frame runs, below the frames that wait. -/
def Activation.bottom (act : Activation) : List Caller → Activation
  | [] => act
  | c :: callers => c.frame.act.bottom callers

/-- The frames have small counts, and the entry frame owes the shape. -/
structure Machine.Owes (m : Machine) (owed : ShapeId) : Prop where
  store : m.store.WellFormed
  frame : m.frame.act.Small
  callers : ∀ c ∈ m.callers, c.frame.act.Small
  bottom : (m.frame.act.bottom m.callers).owed = owed

/-- The debt is handed on or paid, or there is a reason for an early end. -/
def Step.Owes (owed : ShapeId) : Step → Prop
  | more m => m.Owes owed
  | done value t _ => t.fits value owed = true
  | stop e t trace => ∀ fuel, e.Explained False ⟨t, fuel, trace⟩

namespace Machine

theorem step_owes {m : Machine} {owed : ShapeId} (h : m.Owes owed) {i : Instr}
    (hi : m.fetch = some i) (maxDepth : Nat) : (m.step maxDepth i).Owes owed := by
  obtain ⟨hs, hact, hcallers, hbottom⟩ := h
  have hexec := Instr.exec_owes hs hact (hact.code m.frame.pc.toNat i hi) m.frame.regs
  have hgrows := Instr.exec_follows Store.interns_grows m.frame.act m.frame.regs i
  have htakes := m.step_takes maxDepth i
  generalize m.step maxDepth i = x at htakes
  cases htakes with
  | halt hx => exact fun fuel => (hexec.of_error hx).at (place_lt m.frame.pc) fuel _
  | next hx | goto hx => exact ⟨(hgrows.of_ok hx hs).2, hact, hcallers, hbottom⟩
  | deep hx hd => exact fun _ => ⟨trivial, place_lt m.frame.pc⟩
  | call hx hd =>
    exact ⟨(hgrows.of_ok hx hs).2, hexec.of_ok hx, List.forall_mem_cons.mpr ⟨hact, hcallers⟩,
      hbottom⟩
  | replace hx =>
    obtain ⟨hcallee, howed⟩ := hexec.of_ok hx
    refine ⟨(hgrows.of_ok hx hs).2, hcallee, hcallers, ?_⟩
    dsimp only
    generalize m.callers = callers at hbottom ⊢
    cases callers with
    | nil => exact howed.trans hbottom
    | cons c callers => exact hbottom
  | done hx hc =>
    rw [hc] at hbottom
    exact hbottom ▸ hexec.of_ok hx
  | resume hx hc =>
    rw [hc] at hcallers hbottom
    obtain ⟨hcaller, hrest⟩ := List.forall_mem_cons.mp hcallers
    exact ⟨(hgrows.of_ok hx hs).2, hcaller, hrest, hbottom⟩

/-- A run pays what the entry frame owes, or ends early for a reason. -/
theorem run_owes {m : Machine} {owed : ShapeId} (h : m.Owes owed) (maxDepth fuel : Nat) :
    Ends (run maxDepth fuel m) (fun value r => r.store.fits value owed = true)
      (Stop.Explained False) := by
  refine run_ends (fun m _ => m.Owes owed) h (fun _ _ _ _ => ⟨.of_nil rfl, place_lt _⟩)
    (fun _ _ => rfl) fun m fuel i h hi => ?_
  have hstep := step_owes h hi maxDepth
  generalize m.step maxDepth i = x at hstep
  cases x with
  | more m' => exact hstep
  | done value t trace => exact hstep
  | stop e t trace => exact hstep fuel

theorem evaluate_owes {r : RunState} (hr : r.store.WellFormed) (hact : act.Small) (maxDepth : Nat) :
    Ends (evaluate maxDepth act r) (fun value r' => r'.store.fits value act.owed = true)
      (Stop.Explained False) :=
  run_owes ⟨hr, hact, fun _ hc => absurd hc List.not_mem_nil, rfl⟩ maxDepth r.fuel

end Machine

/-! ### Composed code -/

/-- No chunk is empty, and the counts have 32 bits. -/
def Program.Small (p : Program) : Prop :=
  ∀ (f : Nat) chunks, p.functions[f]? = some chunks → ∀ (number : Nat) c, chunks[number]? = some c →
    c.code ≠ [] ∧ (∀ i ∈ c.code, i.items.length < 2 ^ 32) ∧ c.start < 2 ^ 32 ∧
      c.code.length < 2 ^ 32

theorem Instr.length_items_retarget (f : UInt32 → UInt32) (i : Instr) :
    (i.retarget f).items.length = i.items.length := by
  cases i <;> simp [retarget, items]

theorem Program.small_compose (h : s.WellFormed) : (Program.compose s).Small := by
  intro f chunks hf number c hc
  obtain ⟨b, hb, rfl⟩ := Program.from_compose s f chunks hf
  have hverified : b.Verified s.shapes s.size := Body.verify_eq_ok_iff.mp (h.verified f b hb)
  obtain ⟨hwithin, hne⟩ := Chunk.Within.ofChunk hverified.code_pos hc
  rw [Chunk.ofCode_getElem?] at hc
  obtain ⟨start, -, rfl⟩ := Option.map_eq_some_iff.mp hc
  refine ⟨hne, ?_, Nat.lt_trans hwithin.place_lt hverified.size_lt, ?_⟩
  · intro i hi
    obtain ⟨j, hj, rfl⟩ := List.mem_map.mp hi
    rw [Array.toList_extract, List.extract_eq_take_drop] at hj
    have hmem : j ∈ b.code.toList := List.mem_of_mem_drop (List.mem_of_mem_take hj)
    obtain ⟨place, hplace⟩ := List.mem_iff_getElem?.mp hmem
    rw [Instr.length_items_retarget]
    exact (hverified.instrs place j (by simpa using hplace)).1
  · have := hverified.size_lt
    simp
    omega

/-- What the end of a chunk leaves of the debt. -/
def ChunkEnd.Owes (s : Store) (act : Activation) : ChunkEnd → Prop
  | jump _ _ => True
  | finish value => s.fits value act.owed = true
  | replace callee _ => callee.Small ∧ callee.owed = act.owed

namespace Exec

variable {p : Program} {runner : Runner} {r : RunState}

/-- Functions run in this way pay what they owe. -/
def Runner.Owes (runner : Runner) : Prop :=
  ∀ (site : Site) (callee : Activation) (r : RunState), site.place < UInt64.size → callee.Small →
    r.store.WellFormed → Ends (runner site callee r)
      (fun value r' => r'.store.WellFormed ∧ r'.fuel ≤ r.fuel ∧
        r'.store.fits value callee.owed = true)
      (Stop.Explained True)

theorem instr_owes (hact : act.Small) {i : Instr} (hi : i.items.length < 2 ^ 32) {place : Nat}
    (hplace : place < UInt64.size) (regs : Regs) (hr : r.store.WellFormed) :
    Ends (instr act i place regs r)
      (fun out r' => r'.store.WellFormed ∧ r'.fuel < r.fuel ∧ out.2.Owes r'.store act)
      (Stop.Explained True) := by
  obtain ⟨store, fuel, trace⟩ := r
  cases fuel with
  | zero => exact rfl
  | succ fuel =>
    have hexec := Instr.exec_owes hr hact hi regs
    have hgrows := Instr.exec_follows Store.interns_grows act regs i store hr
    cases hx : i.exec act regs store with
    | error e t =>
      rw [instr_of_error hx]
      refine (hexec.of_error hx).at ?_ fuel trace
      rintro _ ⟨⟩
      exact hplace
    | ok out t =>
      rw [hx] at hgrows
      rw [instr_of_ok hx]
      exact ⟨hgrows.2, Nat.lt_succ_self fuel, hexec.of_ok hx⟩

/-- A chunk hands the debt on or pays it, and uses up fuel if it has an instruction. -/
theorem runCode_owes (hrunner : runner.Owes) (hact : act.Small) (following : Nat)
    {code : List Instr} (hcode : ∀ i ∈ code, i.items.length < 2 ^ 32) {place : Nat}
    (hplace : place + code.length < UInt64.size) (regs : Regs) (hr : r.store.WellFormed) :
    Ends (runCode runner act following code place regs r)
      (fun e r' => r'.store.WellFormed ∧ r'.fuel ≤ r.fuel ∧ (code ≠ [] → r'.fuel < r.fuel) ∧
        e.Owes r'.store act)
      (Stop.Explained True) := by
  induction code generalizing place regs r with
  | nil => exact ⟨hr, Nat.le_refl _, fun h => absurd rfl h, trivial⟩
  | cons i rest ih =>
    obtain ⟨hi, hrest⟩ := List.forall_mem_cons.mp hcode
    rw [List.length_cons] at hplace
    have hat : place < UInt64.size := by omega
    rw [runCode_cons]
    refine Ends.bind ((instr_owes hact hi hat regs hr).imp_value ?_)
    rintro ⟨regs', effect⟩ r' ⟨hr', hlt, howes⟩
    have hgo (regs : Regs) {r'' : RunState} (hr'' : r''.store.WellFormed) (hle : r''.fuel ≤ r'.fuel) :
        Ends (runCode runner act following rest (place + 1) regs r'')
          (fun e u => u.store.WellFormed ∧ u.fuel ≤ r.fuel ∧ (i :: rest ≠ [] → u.fuel < r.fuel) ∧
            e.Owes u.store act) (Stop.Explained True) :=
      (ih hrest (by omega) regs hr'').imp_value fun e u hu =>
        ⟨hu.1, by omega, fun _ => by omega, hu.2.2.2⟩
    cases effect with
    | next => exact hgo regs' hr' (Nat.le_refl _)
    | goto target => exact ⟨hr', Nat.le_of_lt hlt, fun _ => hlt, trivial⟩
    | call dst callee =>
      refine Ends.bind ((hrunner ⟨act.func, place⟩ callee r' hat howes hr').imp_value ?_)
      rintro value r'' ⟨hr'', hle, -⟩
      exact hgo _ hr'' hle
    | replace callee inner => exact ⟨hr', Nat.le_of_lt hlt, fun _ => hlt, howes⟩
    | finish value => exact ⟨hr', Nat.le_of_lt hlt, fun _ => hlt, howes⟩

/-- There are no more chunks to do than there is fuel, so the last one pays. -/
theorem runChunks_owes (hrunner : runner.Owes) (hp : p.Small) (depth : Nat) {n : Nat}
    (hact : act.Small) (scope : Scope) (number : Nat) (regs : Regs) (hr : r.store.WellFormed)
    (hn : r.fuel < n) :
    Ends (runChunks runner p depth n act scope number regs r)
      (fun value r' => r'.store.WellFormed ∧ r'.fuel ≤ r.fuel ∧
        r'.store.fits value act.owed = true)
      (Stop.Explained True) := by
  induction n generalizing act scope number regs r with
  | zero => exact absurd hn (Nat.not_lt_zero _)
  | succ n ih =>
    cases hf : p.functions[act.func.index]? with
    | none =>
      rw [runChunks_of_absent _ _ _ _ _ _ hf]
      trivial
    | some chunks =>
      cases hc : chunks[number]? with
      | none =>
        rw [runChunks_of_missing _ _ _ _ _ hf hc]
        exact ⟨.of_nil rfl, place_lt 0⟩
      | some c =>
        obtain ⟨hne, hcode, hstart, hlength⟩ := hp _ _ hf _ _ hc
        have hplace : c.start + c.code.length < UInt64.size :=
          Nat.lt_trans (Nat.add_lt_add hstart hlength) (by decide)
        rw [runChunks_succ _ _ _ _ _ hf hc]
        refine Ends.bind ((runCode_owes hrunner hact _ hcode hplace regs hr).imp_value ?_)
        rintro e r' ⟨hr', -, hlt, howes⟩
        have hlt := hlt hne
        cases e with
        | jump number regs =>
          refine (ih hact scope number regs hr' (by omega)).imp_value fun value u hu => ?_
          exact ⟨hu.1, by omega, hu.2.2⟩
        | finish value => exact ⟨hr', Nat.le_of_lt hlt, howes⟩
        | replace callee inner =>
          obtain ⟨hcallee, howed⟩ := howes
          have hrest := ih
            (r := { r' with trace := (r'.trace.emit (.exit scope depth)).emit (.enter inner depth) })
            hcallee inner 0 callee.freshRegs hr' (by show r'.fuel < n; omega)
          exact hrest.imp_value fun value u hu =>
            ⟨hu.1, Nat.le_trans hu.2.1 (Nat.le_of_lt hlt), howed ▸ hu.2.2⟩

theorem runFrame_owes (hp : p.Small) (deeper depth : Nat) (hact : act.Small)
    (hr : r.store.WellFormed) :
    Ends (runFrame p deeper depth act r)
      (fun value r' => r'.store.WellFormed ∧ r'.fuel ≤ r.fuel ∧
        r'.store.fits value act.owed = true)
      (Stop.Explained True) := by
  induction deeper generalizing depth act r with
  | zero =>
    have hdeep : Runner.Owes tooDeep := fun site _ r hsite _ _ =>
      show Stop.Explained True (.fault .callDepth (some site)) r from
        ⟨trivial, by rintro _ ⟨⟩; exact hsite⟩
    rw [runFrame_eq]
    exact runChunks_owes hdeep hp depth hact _ 0 _ hr (Nat.lt_succ_self _)
  | succ deeper ih =>
    rw [runFrame_eq]
    exact runChunks_owes (fun _ callee r _ hcallee hr => ih (depth + 1) hcallee hr) hp depth hact _ 0
      _ hr (Nat.lt_succ_self _)

end Exec

/-! ### Executors -/

/-- A machine, or a program composed from any store that can be reached. -/
inductive Executor.Composed : Executor → Prop
  | machine (limits : Limits) : Composed (.machine limits)
  | composed {s : Store} (h : Reachable s) (limits : Limits) :
    Composed (.composed (.compose s) limits)

/-- The executor runs a program and not the functions of the store. -/
def Executor.HasProgram (e : Executor) : Prop := ∃ p limits, e = .composed p limits

theorem Executor.way_owes {e : Executor} (he : e.Composed) {r : RunState} (hact : act.Small)
    (hr : r.store.WellFormed) :
    Ends (e.way act r) (fun value r' => r'.store.fits value act.owed = true)
      (Stop.Explained e.HasProgram) := by
  cases he with
  | machine limits =>
    exact (Machine.evaluate_owes hr hact limits.maxCallDepth).imp (fun _ _ hv => hv)
      fun _ _ he => he.imp False.elim
  | composed hs₀ limits =>
    exact (Exec.runFrame_owes (Program.small_compose hs₀.wellFormed) (limits.maxCallDepth - 1) 1
      hact hr).imp (fun _ _ hv => hv.2.2) fun _ _ he => he.imp fun _ => ⟨_, _, rfl⟩

/-! ### Outcomes -/

/-- The outcome is a cotuple of the result shape and text, and reads as a payload of that
shape or as a text. -/
def Outcome.Proper (s : Store) (result : ShapeId) (a : Addr) : Prop :=
  ∃ shape tag payload, s.value? a = some (.cotuple shape tag payload) ∧
    s.shape? shape = some (.cotuple #[result, ShapeId.text]) ∧
    (tag = 0 ∧ decode s a = .ok (ok payload) ∧ s.fits payload result = true ∨
      tag = 1 ∧ decode s a = .ok (err payload) ∧ ∃ report, s.value? payload = some (.text report))

/-- The outcome holds the result. Beside it and the text of a fault there is nothing
that was not there before. -/
inductive Outcome.Tells (s t : Store) (shape : ShapeId) (a : Addr) : Except Stop Addr → Prop
  | ok {value : Addr} (h : t.value? a = some (.cotuple shape 0 value))
    (hnew : ∀ c, t.Holds c → s.Holds c ∨ c = a) : Tells s t shape a (.ok value)
  | fault {f : Fault} {site : Option Site} {text : Addr}
    (h : t.value? a = some (.cotuple shape 1 text))
    (htext : t.value? text = some (.text (f.report site)))
    (hnew : ∀ c, t.Holds c → s.Holds c ∨ c = text ∨ c = a) :
    Tells s t shape a (.error (.fault f site))

theorem Outcome.decode_eq {shape result : ShapeId} {tag : UInt32} {a payload : Addr}
    (hv : s.value? a = some (.cotuple shape tag payload))
    (hs : s.shape? shape = some (.cotuple #[result, ShapeId.text])) :
    decode s a = .ok (if tag = 0 then ok payload else err payload) := by
  have hr : (liftM (s.resolve a) : Except StoreError Value) = .ok (.cotuple shape tag payload) :=
    Store.lift_resolve_eq_ok_iff.mpr hv
  have ha : (liftM (s.shapes.alternatives shape) : Except StoreError _) =
      .ok #[result, ShapeId.text] := ShapeTable.lift_alternatives_eq_ok_iff.mpr hs
  refine bind_eq_ok_iff.mpr ⟨_, hr, bind_eq_ok_iff.mpr ⟨_, ha, ?_⟩⟩
  simp
  rfl

namespace Store.WellFormed

theorem text_shape (h : s.WellFormed) : s.shape? ShapeId.text = some .text :=
  h.shapes.prelude 4 .text rfl

theorem knows_resultShape (h : s.WellFormed) (entry : Addr) : s.Knows (s.resultShape entry) := by
  have hany : s.Knows ShapeId.any := Interner.lt_size (h.shapes.prelude 0 .any rfl)
  unfold resultShape
  split
  · split
    · next hb => exact (h.verified' hb).result
    · exact hany
  · exact hany

/-- The shape of the outcomes is sound. -/
theorem outcome_sound (h : s.WellFormed) {result : ShapeId} (hr : s.Knows result) :
    (Shape.cotuple #[result, ShapeId.text]).Sound s.shapes.size := by
  have htext : s.Knows ShapeId.text := Interner.lt_size h.text_shape
  refine ⟨List.forall_mem_cons.mpr ⟨hr, List.forall_mem_singleton.mpr htext⟩, ?_, ?_⟩
  · simp
  · show 2 < 2 ^ 32
    decide

end Store.WellFormed

/-- The store with the shape of the outcomes of the entry. -/
def Store.prepared (s : Store) (entry : Addr) : Store :=
  (Outcome.shape (s.resultShape entry) s).state

/-- Only a shape is added. -/
theorem Store.prepared_eq (s : Store) (entry : Addr) :
    ∃ shapes, s.prepared entry = ⟨s.values, shapes, s.functions⟩ := by
  unfold prepared Outcome.shape shape
  split
  · exact ⟨_, rfl⟩
  · split
    · exact ⟨_, rfl⟩
    · dsimp only
      split
      · exact ⟨_, rfl⟩
      · exact ⟨_, rfl⟩

theorem Store.resultShape_prepared (s : Store) (entry : Addr) :
    (s.prepared entry).resultShape entry = s.resultShape entry := by
  obtain ⟨shapes, hs⟩ := s.prepared_eq entry
  rw [hs]
  rfl

theorem Store.WellFormed.prepared (h : s.WellFormed) (entry : Addr) :
    s.Extends (s.prepared entry) ∧ (s.prepared entry).WellFormed :=
  Store.shape_grows _ s h

namespace Evaluation

/-- A valid value is stored, if there is room. -/
theorem intern_valid (h : s.WellFormed) {v : Value} (ha : v.isAbstract = true) (hv : s.Valid v) :
    Ends ((liftM (Store.intern v) : EStateM EvalError Store Addr) s)
      (fun a t => t.WellFormed ∧ s.Extends t ∧ t.value? a = some v ∧
        ∀ c, t.Holds c → s.Holds c ∨ c = a)
      (fun e t => e = .store .exhausted ∧ t.Full) := by
  have hends := Store.intern_valid h ha hv
  have hgrows := Store.intern_grows v s h
  rw [lift_eq]
  cases hi : Store.intern v s with
  | ok a t =>
    rw [hi] at hgrows
    refine ⟨hgrows.2, hgrows.1, hends.of_ok hi, ?_⟩
    rintro c ⟨x, hx⟩
    exact (Store.intern_value? ha hi hx).imp (fun hx => ⟨x, hx⟩) And.left
  | error e t =>
    obtain ⟨rfl, rfl, hfull⟩ := hends.of_error hi
    exact ⟨rfl, .inl hfull⟩

/-- A result that has the shape of its alternative is put into the outcome. -/
theorem cotuple_valid {shape result : ShapeId} {tag : UInt32} {payload : Addr} {want : ShapeId}
    (hs : s.shape? shape = some (.cotuple #[result, ShapeId.text]))
    (hw : #[result, ShapeId.text][tag.toNat]? = some want) (hf : s.fits payload want = true) :
    s.Valid (.cotuple shape tag payload) :=
  ⟨List.forall_mem_singleton.mpr (Store.holds_of_fits hf).1, _, _, hs, hw, hf⟩

theorem text_fits (h : s.WellFormed) {a : Addr} {report : String}
    (ha : s.value? a = some (.text report)) : s.fits a ShapeId.text = true := by
  unfold Store.fits Store.fitsWithin
  rw [ha, h.text_shape]
  rfl

/-- A result becomes an outcome that tells it, unless it is fatal or the store is full. -/
theorem outcomeOf_tells (h : s.WellFormed) {shape result : ShapeId}
    (hs : s.shape? shape = some (.cotuple #[result, ShapeId.text])) {x : Except Stop Addr}
    {composed : Prop} {fuel : Nat} {trace : Trace}
    (hx : match x with
      | .ok value => s.fits value result = true
      | .error stop => stop.Explained composed ⟨s, fuel, trace⟩) :
    Ends (outcomeOf shape x s) (fun out t => s.Extends t ∧ Outcome.Tells s t shape out.1 x)
      (fun e t => x = .error (.fatal e) ∧ t = s ∨ e = .store .exhausted ∧ t.Full) := by
  cases x with
  | ok value =>
    have hvalid : s.Valid (.cotuple shape 0 value) := cotuple_valid hs rfl hx
    refine Ends.bind ((intern_valid h rfl hvalid).imp ?_ fun _ _ he => .inr he)
    rintro a t ⟨-, hst, hv, hnew⟩
    exact ⟨hst, .ok hv hnew⟩
  | error stop =>
    cases stop with
    | fatal e => exact .inl ⟨rfl, rfl⟩
    | fault f site =>
      obtain ⟨hf, hsite⟩ := hx
      have htext : s.Valid (.text (f.report site)) :=
        ⟨fun _ hm => absurd hm List.not_mem_nil, Fault.report_size_lt hf hsite⟩
      refine Ends.bind ((intern_valid h rfl htext).imp ?_ fun _ _ he => .inr he)
      rintro text t ⟨ht, hst, hv, hnew⟩
      have hvalid : t.Valid (.cotuple shape 1 text) :=
        cotuple_valid (hst.shape? hs) rfl (text_fits ht hv)
      refine Ends.bind ((intern_valid ht rfl hvalid).imp ?_ fun _ _ he => .inr he)
      rintro a u ⟨-, htu, ha, hnew'⟩
      refine ⟨hst.trans htu, .fault ha (htu.value? hv) fun c hc => ?_⟩
      rcases hnew' c hc with hc | rfl
      · exact (hnew c hc).imp_right .inl
      · exact .inr (.inr rfl)

/-- The result that a run ends with is settled in the state that the run leaves. -/
theorem settle_tells {x : EStateM.Result Stop RunState Addr} (h : x.state.store.WellFormed)
    {shape result : ShapeId}
    (hs : x.state.store.shape? shape = some (.cotuple #[result, ShapeId.text])) {composed : Prop}
    (hx : Ends x (fun value r => r.store.fits value result = true) (Stop.Explained composed)) :
    Ends (settle shape x.answer x.state)
      (fun a r => r.fuel = x.state.fuel ∧ x.state.store.Extends r.store ∧
        Outcome.Tells x.state.store r.store shape a x.answer)
      (fun e r => r.fuel = x.state.fuel ∧
        (x.answer = .error (.fatal e) ∧ r.store = x.state.store ∨
          e = .store .exhausted ∧ r.store.Full)) := by
  have hx : match x.answer with
      | .ok value => x.state.store.fits value result = true
      | .error stop => stop.Explained composed x.state := by
    cases x with
    | ok value r => exact hx
    | error stop r => exact hx
  exact settle_ends ((outcomeOf_tells h hs hx).imp (fun _ _ hout => ⟨rfl, hout⟩)
    fun _ _ hout => ⟨rfl, hout⟩)

/-- A value that is returned becomes an outcome if there is room. -/
theorem settle_of_room (h : s.WellFormed) {shape result : ShapeId} {value : Addr}
    (hs : s.shape? shape = some (.cotuple #[result, ShapeId.text]))
    (hfits : s.fits value result = true) (hroom : ¬s.Full) (fuel : Nat) (trace : Trace) :
    ∃ a t, settle shape (.ok value) ⟨s, fuel, trace⟩ =
      .ok a ⟨t, fuel, trace.emit (.runOk a)⟩ := by
  have hvalid : s.Valid (.cotuple shape 0 value) := cotuple_valid hs rfl hfits
  have hends := Store.intern_valid h rfl hvalid
  cases hi : Store.intern (.cotuple shape 0 value) s with
  | error e t => exact absurd (.inl (hends.of_error hi).2.2) hroom
  | ok a t =>
    have hout : outcomeOf shape (.ok value) s = .ok (a, none) t := by
      refine run_bind_of_ok (x := a) ?_
      show (liftM (Store.intern (.cotuple shape 0 value)) : EStateM EvalError Store Addr) s = _
      rw [lift_eq, hi]
    exact ⟨a, t, settle_of_ok hout⟩

theorem prepareEntry_explained (h : s.WellFormed) (entry arg : Addr) :
    Ends (prepareEntry entry arg s)
      (fun act t => t = s ∧ act.Small ∧ act.owed = s.resultShape entry) Halt.Explained := by
  refine (Work.value_explained h entry).bind_same fun v hv => ?_
  cases v with
  | function f captures =>
    refine (Work.ask_explained (Store.body_refuses f)).bind_same fun b hb => ?_
    have hb : s.body? f = some b := Store.lift_body_eq_ok_iff.mp hb
    refine (Work.unpack_explained h (h.verified' hb).arity_lt arg).bind_same fun args hargs => ?_
    exact Work.prepare_explained h entry none hargs
  | _ => exact Work.mismatch_explained rfl

end Evaluation

namespace Executor

open Evaluation

variable {e : Executor}

theorem runEntry_owes (he : e.Composed) {r : RunState} (hr : r.store.WellFormed)
    (entry arg : Addr) :
    Ends (runEntry e.way entry arg r)
      (fun value r' => r'.store.fits value (r.store.resultShape entry) = true)
      (Stop.Explained e.HasProgram) := by
  obtain ⟨store, fuel, trace⟩ := r
  have hprepare := prepareEntry_explained hr entry arg
  cases hp : prepareEntry entry arg store with
  | error h t =>
    rw [runEntry_of_unready hp]
    exact (hprepare.of_error hp).at (fun _ hx => by cases hx) fuel trace
  | ok act t =>
    rw [runEntry_of_ready hp]
    obtain ⟨rfl, hact, howed⟩ := hprepare.of_ok hp
    exact (way_owes he hact hr).imp_value fun value r' hv => howed ▸ hv

/-- The run of an evaluation, up to where it is concluded. -/
def attempt (e : Executor) (entry arg : Addr) (r : RunState) : EStateM.Result Stop RunState Addr :=
  runEntry e.way entry arg
    ⟨r.store.prepared entry, r.fuel, r.trace.emit (.runStart entry arg)⟩

/-- The run of an evaluation returns a value of the result shape, or ends early for a
reason. -/
theorem attempt_owes (he : e.Composed) {r : RunState} (hr : r.store.WellFormed)
    (entry arg : Addr) :
    Ends (e.attempt entry arg r)
      (fun value r' => r'.store.fits value (r.store.resultShape entry) = true)
      (Stop.Explained e.HasProgram) := by
  have howes := runEntry_owes he
    (r := ⟨r.store.prepared entry, r.fuel, r.trace.emit (.runStart entry arg)⟩)
    (hr.prepared entry).2 entry arg
  dsimp only at howes
  rwa [Store.resultShape_prepared] at howes

/-- The outcome of an evaluation tells the result of its run. There is none if this is
fatal or if the store is full. -/
theorem evaluate_tells (he : e.Composed) {r : RunState} (hr : r.store.WellFormed)
    (entry arg : Addr) :
    Ends (e.evaluate entry arg r)
      (fun a r' => r'.fuel = (e.attempt entry arg r).state.fuel ∧
        (e.attempt entry arg r).state.store.Extends r'.store ∧
        ∃ shape, r'.store.shape? shape =
            some (.cotuple #[r.store.resultShape entry, ShapeId.text]) ∧
          Outcome.Tells (e.attempt entry arg r).state.store r'.store shape a
            (e.attempt entry arg r).answer)
      (fun err r' => (r'.fuel = (e.attempt entry arg r).state.fuel ∧
        (e.attempt entry arg r).answer = .error (.fatal err) ∧
        r'.store = (e.attempt entry arg r).state.store) ∨
        err = .store .exhausted ∧ r'.store.Full) := by
  have howes := attempt_owes he hr entry arg
  have hshape := Store.shape_ends hr (hr.outcome_sound (hr.knows_resultShape entry))
  obtain ⟨-, hw⟩ := hr.prepared entry
  have hlater : (r.store.prepared entry).Grows (e.attempt entry arg r).state.store :=
    (runEntry_follows (e.way_follows Store.interns_grows) entry arg
      ⟨r.store.prepared entry, r.fuel, r.trace.emit (.runStart entry arg)⟩).store
  obtain ⟨store, fuel, trace⟩ := r
  show Ends (conduct e.way entry arg ⟨store, fuel, trace⟩) _ _
  cases hx : Outcome.shape (store.resultShape entry) store with
  | error err t =>
    obtain ⟨rfl, rfl, hfull⟩ := hshape.of_error hx
    rw [conduct_of_no_shape hx]
    exact .inr ⟨rfl, .inr hfull⟩
  | ok shape t =>
    have hs : t.shape? shape = some (.cotuple #[store.resultShape entry, ShapeId.text]) :=
      hshape.of_ok hx
    have ht : store.prepared entry = t := by
      unfold Store.prepared
      rw [hx]
      rfl
    rw [ht] at hlater hw
    obtain ⟨hst, hu⟩ := hlater hw
    have hattempt : runEntry e.way entry arg ⟨t, fuel, trace.emit (.runStart entry arg)⟩ =
        e.attempt entry arg ⟨store, fuel, trace⟩ := by
      rw [← ht]
      rfl
    rw [conduct_of_shape hx hattempt]
    refine (settle_tells hu (hst.shape? hs) howes).imp ?_ ?_
    · rintro a r' ⟨hfuel, hst', htells⟩
      exact ⟨hfuel, hst', shape, hst'.shape? (hst.shape? hs), htells⟩
    · rintro err r' ⟨hfuel, hfatal | hfull⟩
      · exact .inl ⟨hfuel, hfatal⟩
      · exact .inr hfull

/-- An evaluation has a proper outcome, or ends early for a reason. -/
theorem evaluate_proper (he : e.Composed) {r : RunState} (hr : r.store.WellFormed)
    (entry arg : Addr) :
    Ends (e.evaluate entry arg r)
      (fun a r' => Outcome.Proper r'.store (r.store.resultShape entry) a)
      (fun err r' => err.Explained e.HasProgram r') := by
  have howes := attempt_owes he hr entry arg
  refine (evaluate_tells he hr entry arg).imp ?_ ?_
  · rintro a r' ⟨-, hst, shape, hs, htells⟩
    generalize e.attempt entry arg r = x at howes hst htells
    cases x with
    | ok value u =>
      cases htells with
      | ok hv =>
        exact ⟨shape, 0, value, hv, hs, .inl ⟨rfl, Outcome.decode_eq hv hs,
          Store.fits_mono hst howes⟩⟩
    | error stop u =>
      cases htells with
      | fault hv htext =>
        exact ⟨shape, 1, _, hv, hs, .inr ⟨rfl, Outcome.decode_eq hv hs, _, htext⟩⟩
  · rintro err r' (⟨hfuel, hfatal, hstore⟩ | ⟨rfl, hfull⟩)
    · generalize e.attempt entry arg r = x at howes hfuel hfatal hstore
      cases x with
      | ok value u => cases hfatal
      | error stop u =>
        cases hfatal
        cases err with
        | stepBudgetExceeded => exact hfuel.trans howes
        | notComposed f => exact howes
        | store cause => exact ⟨howes.1, hstore ▸ howes.2⟩
    · exact ⟨rfl, hfull⟩

/-- **Every evaluation keeps to the protocol.** On a store that can be reached, by either
executor, even by a program that was composed from another store, and for any two places:
the outcome is a cotuple of the declared result of the entry and text, which reads as a
payload of that shape or as a text. There is none only if the fuel is used up, if a
program lacks a function, or if the store is full. -/
theorem outcome_protocol (hs : Reachable s) (he : e.Composed) (steps : Nat) (entry arg : Addr) :
    match e.evaluateWith steps entry arg s with
    | .ok a r => Outcome.Proper r.store (s.resultShape entry) a
    | .error err r => err = .stepBudgetExceeded ∧ r.fuel = 0 ∨
        (∃ f, err = .notComposed f) ∧ (∃ p limits, e = .composed p limits) ∨
        err = .store .exhausted ∧ r.store.Full := by
  have hends := evaluate_proper he (r := ⟨s, steps, .start .none⟩) hs.wellFormed entry arg
  unfold evaluateWith
  cases hv : e.evaluate entry arg ⟨s, steps, .start .none⟩ with
  | ok a r => exact hends.of_ok hv
  | error err r =>
    have herr := hends.of_error hv
    cases err with
    | stepBudgetExceeded => exact .inl ⟨rfl, herr⟩
    | notComposed f => exact .inr (.inl ⟨⟨f, rfl⟩, herr⟩)
    | store cause => exact .inr (.inr ⟨congrArg _ herr.1, herr.2⟩)

/-- There is room for the outcome of the relay. -/
theorem settle_relay (fuel : Nat) (trace : Trace) :
    ∃ a t, Evaluation.settle ⟨5⟩ (.ok Addr.unit) ⟨.withRelayOutcome, fuel, trace⟩ =
      .ok a ⟨t, fuel, trace.emit (.runOk a)⟩ :=
  Evaluation.settle_of_room Reachable.withRelayOutcome.wellFormed rfl rfl Store.not_full_relay
    fuel trace

/-- The relay is run to its end and has an outcome, be the shape of this there or not. -/
theorem evaluate_relay
    (hshape : Outcome.shape (s.resultShape ⟨5⟩) s = .ok ⟨5⟩ .withRelayOutcome) :
    ∃ a r, (machine .standard).evaluateWith 100 ⟨5⟩ Addr.unit s = .ok a r := by
  have hrun : Evaluation.runEntry (machine .standard).way ⟨5⟩ Addr.unit
      ⟨.withRelayOutcome, 100, (Trace.start .none).emit (.runStart ⟨5⟩ Addr.unit)⟩ =
        .ok Addr.unit ⟨.withRelayOutcome, 93, .start .none⟩ := rfl
  obtain ⟨a, t, ht⟩ := settle_relay 93 (.start .none)
  exact ⟨a, _, (Evaluation.conduct_of_shape hshape hrun).trans ht⟩

/-- The relay has an outcome if it is given the steps that it takes, and none with one less. A
program without functions does not run it. -/
theorem outcome_protocol_relay :
    (∃ a r, (machine .standard).evaluateWith 100 ⟨5⟩ Addr.unit .withRelay = .ok a r ∧
      Outcome.Proper r.store ShapeId.unit a) ∧
    (∃ r, (machine .standard).evaluateWith 6 ⟨5⟩ Addr.unit .withRelay =
      .error .stepBudgetExceeded r ∧ r.fuel = 0) ∧
    ∃ r, (composed (.compose .initial) .standard).evaluateWith 100 ⟨5⟩ Addr.unit .withRelay =
      .error (.notComposed ⟨2⟩) r := by
  refine ⟨?_, ?_, ?_⟩
  · obtain ⟨a, r, heval⟩ := evaluate_relay Store.shape_relay
    have hends := outcome_protocol .withRelay (.machine .standard) 100 ⟨5⟩ Addr.unit
    rw [heval] at hends
    exact ⟨a, r, heval, hends⟩
  · have hends := outcome_protocol .withRelay (.machine .standard) 6 ⟨5⟩ Addr.unit
    have heval : (machine .standard).evaluateWith 6 ⟨5⟩ Addr.unit .withRelay =
        .error .stepBudgetExceeded _ := Evaluation.conduct_of_shape Store.shape_relay rfl
    rw [heval] at hends
    refine ⟨_, heval, ?_⟩
    rcases hends with ⟨-, h⟩ | ⟨⟨f, h⟩, -⟩ | ⟨h, -⟩
    · exact h
    · cases h
    · cases h
  · have habsent : (Program.compose .initial).functions[Activation.relay.func.index]? = none :=
      Array.getElem?_eq_none (by simp [Program.compose, Store.initial])
    have hrun {r : RunState} : ∃ r', (composed (.compose .initial) .standard).way .relay r =
        .error (.fatal (.notComposed ⟨2⟩)) r' :=
      ⟨_, (Exec.runFrame_eq ..).trans (congrFun (Exec.runChunks_of_absent _ _ _ _ _ _ habsent) _)⟩
    obtain ⟨r, hr⟩ := hrun
    exact ⟨_, Evaluation.conduct_of_shape Store.shape_relay
      ((Evaluation.runEntry_of_ready Evaluation.prepareEntry_relay).trans hr)⟩

end Executor

end ValueMachine
