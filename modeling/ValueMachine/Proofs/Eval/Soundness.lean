import Mathlib.Data.List.Forall2
import ValueMachine.Proofs.Data.Ring
import ValueMachine.Proofs.Eval.Growth
import ValueMachine.Proofs.Store.Interning
import ValueMachine.Proofs.Store.Verification

/-! What one instruction of verified code does to its frame.

An activation is sound if it runs a registered body on values that have the shapes of
its parameters. Registers are sound if they hold existing values. `Instr.exec_sound`
says that an instruction within the bounds of its body keeps this up, that whatever it
leaves to be done is sound again, and that it fails only for reasons that lie in the
values of the run: nothing that a body names is ever missing. -/
namespace ValueMachine

/-! ### Faults -/

/-- A fault that may be raised by instructions of many sorts. -/
def Fault.Plain : Fault → Prop
  | mismatch m => m.Plain
  | dangling _ | uninitialized _ => False
  | divisionByZero | emptyList | callDepth | trap _ => True

/-- The faults that an instruction of a verified body may raise. -/
inductive Fault.Of (i : Instr) (b : Body) : Fault → Prop
  | plain {f : Fault} (h : f.Plain) : Of i b f
  | tag {tag : UInt32} {n : Nat} (h : i.opcode = .branch) : Of i b (.mismatch (.tagOutOfRange tag n))
  | index {index : UInt32} {n : Nat} (h : i.opcode = .tupleGet ∨ i.opcode = .capture) :
    Of i b (.mismatch (.indexOutOfRange index n))
  | register {r : Reg} (h : r < b.registers) : Of i b (.uninitialized r)

/-- What is said of the fault, if the work was ended by one. -/
def Halt.If (p : Fault → Prop) : Halt → Prop
  | fault f => p f
  | fatal _ => True

/-! ### Frames -/

/-- The activation runs a registered body on values that it may be run on. -/
structure Activation.Sound (s : Store) (act : Activation) : Prop where
  body : s.body? act.func = some act.body
  captures : ∀ a ∈ act.captures.toList, s.Holds a
  args : List.Forall₂ (fun a t => s.fits a t = true) act.args.toList act.body.params
  owed : s.Knows act.owed

/-- The registers hold existing values. -/
structure Regs.Sound (s : Store) (b : Body) (regs : Regs) : Prop where
  size : regs.size = b.registers.toNat
  holds : ∀ (i : Nat) a, regs[i]? = some (some a) → s.Holds a

/-- Every place and entry that the instruction names is there. Where it may go is not
looked at. -/
def Instr.Bounded (s : Store) (b : Body) (i : Instr) : Prop :=
  (∀ r ∈ i.regs, r < b.registers) ∧
  match i with
  | .arg _ index => index.toNat < b.arity
  | .const _ addr => s.Holds addr
  | .cotupleNew _ t tag _ => ∃ alternatives,
      s.shape? t = some (.cotuple alternatives) ∧ tag.toNat < alternatives.size
  | .nil _ elem => s.Knows elem
  | _ => True

/-- What is left to be done by an instruction is sound. -/
def Effect.Sound (s : Store) (act : Activation) (i : Instr) : Effect → Prop
  | next => i.isTerminator = false
  | goto target => target ∈ i.targets
  | call dst callee => i.isTerminator = false ∧ dst ∈ i.regs ∧ callee.Sound s
  | replace callee _ => callee.Sound s ∧ callee.owed = act.owed
  | finish value => s.fits value act.body.result = true ∧ s.fits value act.owed = true

variable {s t : Store} {act : Activation} {b : Body} {regs : Regs} {i : Instr}

theorem Activation.Sound.mono (h : act.Sound s) (hst : s.Extends t) : act.Sound t :=
  ⟨hst.body? h.body, fun a ha => (h.captures a ha).mono hst,
    h.args.imp fun _ _ hf => Store.fits_mono hst hf, h.owed.mono hst⟩

theorem Regs.Sound.mono (h : regs.Sound s b) (hst : s.Extends t) : regs.Sound t b :=
  ⟨h.size, fun i a ha => (h.holds i a ha).mono hst⟩

theorem Regs.Sound.fresh (s : Store) (act : Activation) : act.freshRegs.Sound s act.body := by
  refine ⟨Array.size_replicate, fun i a ha => ?_⟩
  unfold Activation.freshRegs at ha
  rw [Array.getElem?_replicate] at ha
  split at ha <;> cases ha

theorem Regs.Sound.set (h : regs.Sound s b) {a : Addr} (ha : s.Holds a) (dst : Reg) :
    (regs.set dst a).Sound s b := by
  refine ⟨Array.size_setIfInBounds.trans h.size, fun i x hx => ?_⟩
  unfold Regs.set at hx
  rw [Array.getElem?_setIfInBounds] at hx
  split at hx
  · split at hx
    · cases hx
      exact ha
    · cases hx
  · exact h.holds i x hx

/-- A verified instruction is bounded. -/
theorem Instr.Verified.bounded (h : i.Verified b s.shapes s.size) : i.Bounded s b := by
  refine ⟨h.2.1, ?_⟩
  have h := h.2.2.2
  cases i with
  | const dst addr => exact Store.holds_iff.mpr h
  | _ => exact h

/-! ### Work on values -/

/-- What is left of a failed piece of work of an instruction of a body. -/
abbrev Halt.Allowed (i : Instr) (b : Body) : Halt → Store → Prop := fun h _ => h.If (Fault.Of i b)

theorem StoreError.Plain.allowed {e : StoreError} (h : e.Plain) :
    (Halt.ofStoreError e).If (Fault.Of i b) := by
  cases e with
  | mismatch m => exact Fault.Of.plain h
  | dangling d => exact h.elim
  | _ => trivial

namespace Work

variable {a c : Addr}

theorem ask_ends {α : Type} {question : Store → Except StoreError α} {P : α → Store → Prop}
    {E : Halt → Store → Prop} (hP : ∀ x, question s = .ok x → P x s)
    (hE : ∀ e, question s = .error e → E (Halt.ofStoreError e) s) :
    Ends (Work.ask question s) P E :=
  lift_ends (Store.ask_ends hP hE)

theorem value_ends {E : Halt → Store → Prop} (ha : s.Holds a) :
    Ends (value a s) (fun v t => t = s ∧ s.value? a = some v) E := by
  obtain ⟨v, hv⟩ := ha
  have hr : s.resolve a = .ok v := Store.resolve_eq_ok_iff.mpr hv
  refine ask_ends (fun x hx => ⟨rfl, ?_⟩) fun e he => ?_
  · rw [hr] at hx
    cases hx
    exact hv
  · rw [hr] at he
    cases he

theorem mismatch_ends {α : Type} {m : Mismatch} {P : α → Store → Prop} (hm : m.Plain) :
    Ends (mismatch m s) P (Halt.Allowed i b) := Fault.Of.plain hm

/-- A request to the store that can only be refused for the values it is about. -/
theorem request_ends {op : StoreM Addr} (h : s.WellFormed) (hg : Follows Store.Grows op)
    (ho : Ends (op s) (fun a t => t.Holds a) fun e _ => e.Plain) :
    Ends ((liftM op : Work Addr) s) (fun a t => s.Extends t ∧ t.Holds a) (Halt.Allowed i b) := by
  have hst := (hg s h).1
  refine lift_ends ?_
  cases hr : op s with
  | ok a t =>
    rw [hr] at hst
    exact ⟨hst, ho.of_ok hr⟩
  | error e t => exact StoreError.Plain.allowed (ho.of_error hr)

theorem intern_ends (h : s.WellFormed) {v : Value} (ha : v.isAbstract = true) (hn : s.Named v) :
    Ends ((liftM (Store.intern v) : Work Addr) s) (fun a t => s.Extends t ∧ t.Holds a)
      (Halt.Allowed i b) :=
  request_ends h (Store.intern_grows v) (Store.intern_named h ha hn)

theorem readReg_ends (hr : regs.Sound s b) {r : Reg} (hlt : r < b.registers) :
    Ends (readReg regs r s) (fun a t => t = s ∧ s.Holds a) (Halt.Allowed i b) := by
  unfold readReg
  rcases hreg : regs[r.toNat]? with _ | _ | a
  · exact Fault.Of.register hlt
  · exact Fault.Of.register hlt
  · exact ⟨rfl, hr.holds _ a hreg⟩

theorem readRegs_ends (hr : regs.Sound s b) {rs : List Reg} (hlt : ∀ r ∈ rs, r < b.registers) :
    Ends (readRegs regs rs s) (fun found t => t = s ∧ ∀ a ∈ found, s.Holds a)
      (Halt.Allowed i b) := by
  unfold readRegs
  induction rs with
  | nil => exact ⟨rfl, fun _ h => absurd h List.not_mem_nil⟩
  | cons r rs ih =>
    obtain ⟨hr', hrs⟩ := List.forall_mem_cons.mp hlt
    rw [List.mapM_cons]
    refine (readReg_ends hr hr').bind_same fun a ha => ?_
    refine (ih hrs).bind_same fun found hfound => ?_
    exact ⟨rfl, List.forall_mem_cons.mpr ⟨ha, hfound⟩⟩

theorem arith_ends (h : s.WellFormed) (ha : s.Holds a) (hc : s.Holds c) (op : ArithOp) :
    Ends (arith op a c s) (fun x t => s.Extends t ∧ t.Holds x) (Halt.Allowed i b) := by
  refine (value_ends ha).bind_same fun v hv => ?_
  refine (value_ends hc).bind_same fun w hw => ?_
  split
  · next bits x right y =>
    split
    · exact mismatch_ends trivial
    · cases hz : Ring.arith? op bits x y with
      | none => exact Fault.Of.plain trivial
      | some z =>
        have hwidth : Ring.IsWidth bits := (h.valid' hv).2.1
        exact intern_ends h rfl ⟨fun _ hm => absurd hm List.not_mem_nil, hwidth,
          Ring.truncate_arith? hz⟩
  · exact intern_ends h rfl ⟨fun _ hm => absurd hm List.not_mem_nil, trivial⟩
  all_goals exact mismatch_ends trivial

theorem compare_ends (ha : s.Holds a) (hc : s.Holds c) (op : CmpOp) :
    Ends (compare op a c s) (fun _ t => t = s) (Halt.Allowed i b) := by
  refine (value_ends ha).bind_same fun v hv => ?_
  refine (value_ends hc).bind_same fun w hw => ?_
  split
  · exact rfl
  · split
    · exact mismatch_ends trivial
    · exact rfl
  · exact rfl
  all_goals exact mismatch_ends trivial

theorem project_ends (h : s.WellFormed) (ha : s.Holds a) (hi : i.opcode = .tupleGet)
    (index : UInt32) :
    Ends (project a index s) (fun x t => t = s ∧ s.Holds x) (Halt.Allowed i b) := by
  refine (value_ends ha).bind_same fun v hv => ?_
  cases v with
  | tuple items =>
    dsimp only
    cases hx : items[index.toNat]? with
    | none => exact Fault.Of.index (.inl hi)
    | some x =>
      have hmem : x ∈ items.toList := Array.mem_toList_iff.mpr (Array.mem_of_getElem? hx)
      exact ⟨rfl, h.holds_of_child hv hmem⟩
  | _ => exact mismatch_ends trivial

theorem untag_ends (h : s.WellFormed) (ha : s.Holds a) :
    Ends (untag a s) (fun x t => t = s ∧ s.Holds x.2) (Halt.Allowed i b) := by
  refine (value_ends ha).bind_same fun v hv => ?_
  cases v with
  | cotuple id tag payload => exact ⟨rfl, h.holds_of_child hv List.mem_cons_self⟩
  | _ => exact mismatch_ends trivial

theorem targetFor_ends (hi : i.opcode = .branch) (targets : Array UInt32) (tag : UInt32) :
    Ends (targetFor targets tag s) (fun x t => t = s ∧ x ∈ targets.toList) (Halt.Allowed i b) := by
  unfold targetFor
  cases hx : targets[tag.toNat]? with
  | none => exact Fault.Of.tag hi
  | some x => exact ⟨rfl, Array.mem_toList_iff.mpr (Array.mem_of_getElem? hx)⟩

theorem head_ends (h : s.WellFormed) (ha : s.Holds a) :
    Ends (head a s) (fun x t => t = s ∧ s.Holds x) (Halt.Allowed i b) := by
  refine (value_ends ha).bind_same fun v hv => ?_
  cases v with
  | cons elem x xs => exact ⟨rfl, h.holds_of_child hv List.mem_cons_self⟩
  | nil elem => exact Fault.Of.plain trivial
  | _ => exact mismatch_ends trivial

theorem tail_ends (h : s.WellFormed) (ha : s.Holds a) :
    Ends (tail a s) (fun x t => t = s ∧ s.Holds x) (Halt.Allowed i b) := by
  refine (value_ends ha).bind_same fun v hv => ?_
  cases v with
  | cons elem x xs => exact ⟨rfl, h.holds_of_child hv (List.mem_cons_of_mem _ List.mem_cons_self)⟩
  | nil elem => exact Fault.Of.plain trivial
  | _ => exact mismatch_ends trivial

theorem isNil_ends (ha : s.Holds a) :
    Ends (isNil a s) (fun _ t => t = s) (Halt.Allowed i b) := by
  refine (value_ends ha).bind_same fun v hv => ?_
  cases v with
  | cons elem x xs => exact rfl
  | nil elem => exact rfl
  | _ => exact mismatch_ends trivial

theorem readTruth_ends (ha : s.Holds a) :
    Ends (readTruth a s) (fun _ t => t = s) (Halt.Allowed i b) := by
  refine (value_ends ha).bind_same fun v hv => ?_
  cases v with
  | cotuple id tag payload =>
    dsimp only
    split
    · exact rfl
    · exact mismatch_ends trivial
  | _ => exact mismatch_ends trivial

theorem truth_holds (h : s.WellFormed) (holds : Bool) : s.Holds (Addr.truth holds) := by
  have hv (i : Nat) (hi : i < 3) : i < s.size := by
    obtain ⟨v, hv⟩ : ∃ v, Value.prelude[i]? = some v := ⟨_, List.getElem?_eq_getElem hi⟩
    exact Interner.lt_size (h.prelude i v hv)
  cases holds
  · exact Store.holds_iff.mpr (hv 2 (by decide))
  · exact Store.holds_iff.mpr (hv 1 (by decide))

theorem cons_ends (h : s.WellFormed) (ha : s.Holds a) (hc : s.Holds c) :
    Ends ((liftM (Store.cons a c) : Work Addr) s) (fun x t => s.Extends t ∧ t.Holds x)
      (Halt.Allowed i b) := by
  refine request_ends h (Store.cons_follows Store.interns_grows a c) ?_
  refine Ends.bind (Store.ask_ends (fun elem he => ?_) fun e he => ?_)
  · refine Store.intern_named h rfl ⟨?_, Store.elemShape_eq_ok_iff.mp he⟩
    exact List.forall_mem_cons.mpr ⟨ha, List.forall_mem_singleton.mpr hc⟩
  · obtain ⟨v, hv⟩ := hc
    have hr : (liftM (s.resolve c) : Except StoreError Value) = .ok v :=
      Store.lift_resolve_eq_ok_iff.mpr hv
    rcases bind_eq_error_iff.mp he with he | ⟨w, -, he⟩
    · cases hr.symm.trans he
    · cases w <;> cases he <;> trivial

theorem identity_ends (h : s.WellFormed) (ha : s.Holds a) (hc : s.Holds c) :
    Ends ((liftM (Store.identity a c) : Work Addr) s) (fun x t => s.Extends t ∧ t.Holds x)
      (Halt.Allowed i b) := by
  refine request_ends h (Store.identity_follows Store.interns_grows a c) ?_
  refine (Store.ask_holds ha).bind_same fun _ _ => ?_
  refine (Store.ask_holds hc).bind_same fun _ _ => ?_
  split
  · exact Store.intern_named h rfl ⟨List.forall_mem_singleton.mpr ha, trivial⟩
  · exact Ends.throw trivial

theorem closure_ends (h : s.WellFormed) {captures : List Addr} (ha : s.Holds a)
    (hc : ∀ x ∈ captures, s.Holds x) :
    Ends ((liftM (Store.closure a captures) : Work Addr) s) (fun x t => s.Extends t ∧ t.Holds x)
      (Halt.Allowed i b) := by
  refine request_ends h (Store.closure_follows Store.interns_grows a captures) ?_
  obtain ⟨v, hv⟩ := ha
  have hr : (liftM (s.resolve a) : Except StoreError Value) = .ok v :=
    Store.lift_resolve_eq_ok_iff.mpr hv
  refine Ends.bind (Store.ask_ends (fun w hw => ?_) fun e he => ?_)
  · cases hr.symm.trans hw
    cases v with
    | function f existing =>
      refine Store.intern_named h rfl ⟨fun x hx => ?_, (h.valid' hv).2.2⟩
      have hx : x ∈ (existing ++ captures).toList := hx
      rw [Array.toList_appendList, List.mem_append] at hx
      exact hx.elim (h.holds_of_child hv) (hc x)
    | _ => exact Ends.throw trivial
  · cases hr.symm.trans he

/-! ### Calls -/

theorem checkConforms_ends {t : ShapeId} (ha : s.Holds a) (ht : s.Knows t) :
    Ends (Work.ask (·.checkConforms a t) s) (fun _ s' => s' = s ∧ s.fits a t = true)
      (Halt.Allowed i b) := by
  refine ask_ends (fun _ h => ⟨rfl, Store.checkConforms_eq_ok_iff.mp h⟩) fun e he => ?_
  rw [Store.checkConforms_error ha ht he]
  exact Fault.Of.plain trivial

theorem checkArgs_ends {args : List Addr} {params : List ShapeId} (ha : ∀ a ∈ args, s.Holds a)
    (ht : ∀ t ∈ params, s.Knows t) (hl : args.length = params.length) :
    Ends (checkArgs args params s)
      (fun _ t => t = s ∧ List.Forall₂ (fun a t => s.fits a t = true) args params)
      (Halt.Allowed i b) := by
  induction args generalizing params with
  | nil =>
    cases params with
    | nil => exact ⟨rfl, .nil⟩
    | cons => cases hl
  | cons arg args ih =>
    cases params with
    | nil => cases hl
    | cons param params =>
      obtain ⟨harg, hargs⟩ := List.forall_mem_cons.mp ha
      obtain ⟨hparam, hparams⟩ := List.forall_mem_cons.mp ht
      refine (checkConforms_ends harg hparam).bind_same fun _ hfit => ?_
      refine (ih hargs hparams (Nat.succ.inj hl)).imp_value ?_
      rintro _ _ ⟨rfl, hfits⟩
      exact ⟨rfl, .cons hfit hfits⟩

theorem prepare_ends (h : s.WellFormed) {args : List Addr} {owed : Option ShapeId}
    (ha : s.Holds a) (hargs : ∀ x ∈ args, s.Holds x) (howed : ∀ t ∈ owed, s.Knows t) :
    Ends (prepare a args owed s)
      (fun callee t => t = s ∧ callee.Sound s ∧ callee.owed = owed.getD callee.body.result)
      (Halt.Allowed i b) := by
  refine (value_ends ha).bind_same fun v hv => ?_
  cases v with
  | function f captures =>
    obtain ⟨-, -, body, hbody⟩ := h.valid' hv
    have hb := Store.body_eq_ok_iff.mpr hbody
    refine Ends.bind (ask_ends (fun found hfound => ?_) fun e he => ?_)
    · rw [hb] at hfound
      cases hfound
      split
      · exact mismatch_ends trivial
      · next hl =>
        have hl : args.length = body.params.length := by simpa [Body.arity] using hl
        have hverified := h.verified' hbody
        refine (checkArgs_ends hargs (fun t ht => hverified.params t ht) hl).bind_same fun _ hfits => ?_
        refine ⟨rfl, ⟨hbody, fun x hx => h.holds_of_child hv hx, hfits, ?_⟩, rfl⟩
        cases owed with
        | none => exact hverified.result
        | some t => exact howed t rfl
    · rw [hb] at he
      cases he
  | _ => exact mismatch_ends trivial

theorem checkResult_ends (h : s.WellFormed) (hact : act.Sound s) (ha : s.Holds a) :
    Ends (checkResult act a s)
      (fun _ t => t = s ∧ s.fits a act.body.result = true ∧ s.fits a act.owed = true)
      (Halt.Allowed i b) := by
  have hresult : s.Knows act.body.result := (h.verified' hact.body).result
  refine (checkConforms_ends ha hresult).bind_same fun _ hfit => ?_
  split
  · refine (checkConforms_ends ha hact.owed).imp_value ?_
    rintro _ _ ⟨rfl, hfit'⟩
    exact ⟨rfl, hfit, hfit'⟩
  · next he =>
    have he : act.owed = act.body.result := by simpa using he
    exact ⟨rfl, hfit, he ▸ hfit⟩

theorem into_ends {x : Work Addr} (hr : regs.Sound s b) (hi : i.isTerminator = false)
    (hx : Ends (x s) (fun a t => s.Extends t ∧ t.Holds a) (Halt.Allowed i b)) (dst : Reg) :
    Ends (into regs dst x s)
      (fun out t => s.Extends t ∧ out.1.Sound t b ∧ out.2.Sound t act i) (Halt.Allowed i b) := by
  refine Ends.bind (hx.imp_value ?_)
  rintro a t ⟨hst, ha⟩
  exact ⟨hst, (hr.mono hst).set ha dst, hi⟩

end Work

open Work in
/-- An instruction of a sound frame: what it leaves, and why it may fail. -/
theorem Instr.exec_sound (h : s.WellFormed) (hact : act.Sound s) (hr : regs.Sound s act.body)
    (hi : i.Bounded s act.body) :
    Ends (i.exec act regs s)
      (fun out t => s.Extends t ∧ out.1.Sound t act.body ∧ out.2.Sound t act i)
      (Halt.Allowed i act.body) := by
  obtain ⟨hregs, hi⟩ := hi
  have hst : s.Extends s := .refl s
  have hread (r : Reg) (hm : r ∈ i.regs) : Ends (readReg regs r s) (fun a t => t = s ∧ s.Holds a)
      (Halt.Allowed i act.body) := readReg_ends hr (hregs r hm)
  have hreads (rs : List Reg) (hm : rs ⊆ i.regs) :
      Ends (readRegs regs rs s) (fun found t => t = s ∧ ∀ a ∈ found, s.Holds a)
        (Halt.Allowed i act.body) := readRegs_ends hr fun r h => hregs r (hm h)
  cases i with
  | nop => exact ⟨hst, hr, rfl⟩
  | trap code => exact Fault.Of.plain trivial
  | const dst addr =>
    refine into_ends hr rfl ?_ dst
    refine Ends.bind (.map ((value_ends hi).imp_value ?_))
    rintro v _ ⟨rfl, -⟩
    exact ⟨hst, hi⟩
  | arg dst index =>
    refine into_ends hr rfl ?_ dst
    have hlt : index.toNat < act.args.size := by
      rw [← Array.length_toList, hact.args.length_eq]
      exact hi
    rw [Array.getElem?_eq_getElem hlt]
    have hfit := hact.args.get (by simpa using hlt) hi
    exact ⟨hst, (Store.holds_of_fits hfit).1⟩
  | capture dst index =>
    refine into_ends hr rfl ?_ dst
    cases hx : act.captures[index.toNat]? with
    | none => exact Fault.Of.index (.inr rfl)
    | some a =>
      exact ⟨hst, hact.captures a (Array.mem_toList_iff.mpr (Array.mem_of_getElem? hx))⟩
  | mov dst src =>
    refine into_ends hr rfl ((hread src (by simp [Instr.regs])).imp_value ?_) dst
    rintro a _ ⟨rfl, ha⟩
    exact ⟨hst, ha⟩
  | arith op dst a b =>
    refine into_ends hr rfl ?_ dst
    refine (hread a (by simp [Instr.regs])).bind_same fun x hx => ?_
    refine (hread b (by simp [Instr.regs])).bind_same fun y hy => ?_
    exact arith_ends h hx hy op
  | cmp op dst a b =>
    refine into_ends hr rfl ?_ dst
    refine (hread a (by simp [Instr.regs])).bind_same fun x hx => ?_
    refine (hread b (by simp [Instr.regs])).bind_same fun y hy => ?_
    refine Ends.bind ((compare_ends hx hy op).imp_value ?_)
    rintro holds _ rfl
    exact ⟨hst, truth_holds h holds⟩
  | tupleNew dst items =>
    refine into_ends hr rfl ?_ dst
    refine (hreads items (by simp [Instr.regs])).bind_same fun found hfound => ?_
    exact intern_ends h rfl ⟨hfound, trivial⟩
  | tupleGet dst tuple index =>
    refine into_ends hr rfl ?_ dst
    refine (hread tuple (by simp [Instr.regs])).bind_same fun x hx => ?_
    refine (project_ends h hx rfl index).imp_value ?_
    rintro y _ ⟨rfl, hy⟩
    exact ⟨hst, hy⟩
  | cotupleNew dst id tag payload =>
    refine into_ends hr rfl ?_ dst
    refine (hread payload (by simp [Instr.regs])).bind_same fun x hx => ?_
    exact intern_ends h rfl ⟨List.forall_mem_singleton.mpr hx, hi⟩
  | branch scrutinee payload targets =>
    refine (hread scrutinee (by simp [Instr.regs])).bind_same fun x hx => ?_
    refine (untag_ends h hx).bind_same fun (tag, inner) hinner => ?_
    refine (targetFor_ends rfl targets tag).bind_same fun target htarget => ?_
    exact ⟨hst, hr.set hinner payload, htarget⟩
  | nil dst elem =>
    exact into_ends hr rfl (intern_ends h rfl ⟨fun _ hm => absurd hm List.not_mem_nil, hi⟩) dst
  | cons dst first rest =>
    refine into_ends hr rfl ?_ dst
    refine (hread first (by simp [Instr.regs])).bind_same fun x hx => ?_
    refine (hread rest (by simp [Instr.regs])).bind_same fun xs hxs => ?_
    exact cons_ends h hx hxs
  | head dst list =>
    refine into_ends hr rfl ?_ dst
    refine (hread list (by simp [Instr.regs])).bind_same fun xs hxs => ?_
    refine (head_ends h hxs).imp_value ?_
    rintro y _ ⟨rfl, hy⟩
    exact ⟨hst, hy⟩
  | tail dst list =>
    refine into_ends hr rfl ?_ dst
    refine (hread list (by simp [Instr.regs])).bind_same fun xs hxs => ?_
    refine (tail_ends h hxs).imp_value ?_
    rintro y _ ⟨rfl, hy⟩
    exact ⟨hst, hy⟩
  | isNil dst list =>
    refine into_ends hr rfl ?_ dst
    refine (hread list (by simp [Instr.regs])).bind_same fun xs hxs => ?_
    refine Ends.bind ((isNil_ends hxs).imp_value ?_)
    rintro holds _ rfl
    exact ⟨hst, truth_holds h holds⟩
  | refl dst a b =>
    refine into_ends hr rfl ?_ dst
    refine (hread a (by simp [Instr.regs])).bind_same fun x hx => ?_
    refine (hread b (by simp [Instr.regs])).bind_same fun y hy => ?_
    exact identity_ends h hx hy
  | jmp target => exact ⟨hst, hr, List.mem_singleton_self target⟩
  | closure dst func captures =>
    refine into_ends hr rfl ?_ dst
    refine (hreads captures (by simp [Instr.regs])).bind_same fun found hfound => ?_
    refine (hread func (by simp [Instr.regs])).bind_same fun f hf => ?_
    exact closure_ends h hf hfound
  | call dst func args =>
    refine (hread func (by simp [Instr.regs])).bind_same fun f hf => ?_
    refine (hreads args (by simp [Instr.regs])).bind_same fun found hfound => ?_
    refine (prepare_ends h hf hfound (by simp)).bind_same fun callee hcallee => ?_
    exact ⟨hst, hr, rfl, List.mem_cons_self, hcallee.1⟩
  | tailCall func args =>
    refine (hread func (by simp [Instr.regs])).bind_same fun f hf => ?_
    refine (hreads args (by simp [Instr.regs])).bind_same fun found hfound => ?_
    refine (prepare_ends h hf hfound (by simpa using hact.owed)).bind_same fun callee hcallee => ?_
    exact ⟨hst, hr, hcallee⟩
  | defer cond onProved onDisproved args =>
    refine (hread cond (by simp [Instr.regs])).bind_same fun x hx => ?_
    refine Ends.bind ((readTruth_ends hx).imp_value ?_)
    rintro proved _ rfl
    refine (hread _ (by cases proved <;> simp [Instr.regs])).bind_same fun f hf => ?_
    refine (hreads args fun r hm => by simp [Instr.regs, hm]).bind_same fun found hfound => ?_
    refine (prepare_ends h hf hfound (by simpa using hact.owed)).bind_same fun callee hcallee => ?_
    exact ⟨hst, hr, hcallee⟩
  | ret src =>
    refine (hread src (by simp [Instr.regs])).bind_same fun x hx => ?_
    refine (checkResult_ends h hact hx).bind_same fun _ hfits => ?_
    exact ⟨hst, hr, hfits⟩

end ValueMachine
