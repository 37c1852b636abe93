import ValueMachine.Proofs.Eval.Growth
import ValueMachine.Proofs.Eval.Reports
import ValueMachine.Proofs.Store.Interning

/-! What one instruction does in a frame that nothing is known of.

A program may be composed from another store than the one it is run on. Its
instructions then name values, shapes and registers that are not there, and nothing
is left of the soundness of frames. Two things remain (`Instr.exec_owes`). Work that
ends early is `Explained`: it is a fault with a short text, or the store is full. And
what is returned has the shape that is owed, because it is checked when it is
returned and the debt is handed on from one function to the next. -/
namespace ValueMachine

/-! ### Why questions are refused -/

/-- The refusal has a short text, and the store is full if that is the reason. -/
def Store.Explains (s : Store) : StoreError → Prop
  | .dangling d => d.Bounded
  | .mismatch m => m.Bounded
  | .duplicate _ => False
  | .exhausted => s.Full

/-- If there is no answer, this is said of the error. -/
def Refuses {ε α : Type} (x : Except ε α) (E : ε → Prop) : Prop := ∀ e, x = .error e → E e

namespace Refuses

variable {ε ε' α β : Type} {E : ε → Prop} {x : Except ε α}

theorem ok {a : α} : Refuses (.ok a : Except ε α) E := fun _ h => by cases h

theorem error {e : ε} (h : E e) : Refuses (.error e : Except ε α) E := fun _ he => by
  cases he
  exact h

theorem bind {f : α → Except ε β} (h : Refuses x E) (hf : ∀ a, x = .ok a → Refuses (f a) E) :
    Refuses (x >>= f) E := by
  intro e he
  rcases bind_eq_error_iff.mp he with he | ⟨a, ha, he⟩
  · exact h e he
  · exact hf a ha e he

theorem discard (h : Refuses x E) : Refuses (Functor.discard x) E := by
  cases x with
  | ok a => exact ok
  | error e => exact error (h e rfl)

theorem mapError {f : ε → ε'} {E' : ε' → Prop} (h : Refuses x fun e => E' (f e)) :
    Refuses (x.mapError f) E' := by
  intro e he
  obtain ⟨cause, hc, rfl⟩ := mapError_eq_error_iff.mp he
  exact h cause hc

theorem forM {f : α → Except ε Unit} {xs : List α} (h : ∀ a ∈ xs, Refuses (f a) E) :
    Refuses (xs.forM f) E := by
  induction xs with
  | nil => exact ok
  | cons x xs ih =>
    obtain ⟨hx, hxs⟩ := List.forall_mem_cons.mp h
    exact bind hx fun _ _ => ih hxs

end Refuses

theorem Mismatch.Bounded.of_nil {m : Mismatch} (h : m.counts = []) : m.Bounded :=
  fun _ hn => absurd (h ▸ hn) List.not_mem_nil

theorem count_lt_of_lt {n : Nat} (h : n < 2 ^ 33) : n < UInt64.size := Nat.lt_trans h (by decide)

namespace Store

variable {s : Store}

theorem resolve_refuses (h : s.WellFormed) (a : Addr) :
    Refuses (liftM (s.resolve a) : Except StoreError Value) s.Explains := by
  refine Refuses.mapError fun d hd => ?_
  unfold resolve at hd
  split at hd
  · cases hd
  · cases hd
    exact Nat.lt_of_le_of_lt h.bounded (by decide)

theorem lookup_refuses (t : ShapeId) :
    Refuses (liftM (s.shapes.lookup t) : Except StoreError Shape) s.Explains := by
  refine Refuses.mapError fun m hm => ?_
  unfold ShapeTable.lookup at hm
  split at hm
  · cases hm
  · cases hm
    exact .of_nil rfl

theorem body_refuses (f : FuncId) :
    Refuses (liftM (s.body f) : Except StoreError Body) s.Explains := by
  refine Refuses.mapError fun m hm => ?_
  unfold Store.body at hm
  split at hm
  · cases hm
  · cases hm
    exact .of_nil rfl

theorem checkLength_refuses {n : Nat} (hn : n < 2 ^ 33) :
    Refuses (liftM (checkLength n) : Except StoreError Unit) s.Explains := by
  refine Refuses.mapError fun m hm => ?_
  rw [checkLength_error hm]
  exact List.forall_mem_singleton.mpr (count_lt_of_lt hn)

theorem checkConforms_refuses (h : s.WellFormed) (a : Addr) (t : ShapeId) :
    Refuses (s.checkConforms a t) s.Explains := by
  refine Refuses.bind (Refuses.bind (.discard (resolve_refuses h a)) fun _ _ =>
    Refuses.bind (.discard (lookup_refuses t)) fun _ _ => .ok) fun fits _ => ?_
  cases fits with
  | true => exact .ok
  | false => exact .error (.of_nil rfl)

theorem elemShape_refuses (h : s.WellFormed) (a : Addr) : Refuses (s.elemShape a) s.Explains := by
  refine Refuses.bind (resolve_refuses h a) fun v _ => ?_
  cases v with
  | nil elem => exact .ok
  | cons elem head tail => exact .ok
  | _ => exact .error (.of_nil rfl)

theorem checkPredicate_refuses (h : s.WellFormed) (a : Addr) (domain : ShapeId) :
    Refuses (s.checkPredicate a domain) s.Explains := by
  refine Refuses.bind (resolve_refuses h a) fun v _ => ?_
  cases v with
  | function f captures =>
    refine Refuses.bind (body_refuses f) fun b _ => ?_
    split
    · exact .ok
    · exact .error (.of_nil rfl)
  | _ => exact .error (.of_nil rfl)

theorem validate_refuses (h : s.WellFormed) {v : Value} (hv : v.size < 2 ^ 33) :
    Refuses (s.validate v) s.Explains := by
  refine Refuses.bind (.forM fun a _ => .discard (resolve_refuses h a)) fun _ _ => ?_
  cases v with
  | ring bits x =>
    dsimp only
    split
    · exact .ok
    · exact .error (.of_nil rfl)
  | cotuple t tag payload =>
    refine Refuses.bind (.mapError fun m hm => ?_) fun alternatives ha => ?_
    · rcases bind_eq_error_iff.mp hm with hm | ⟨shape, -, hm⟩
      · unfold ShapeTable.lookup at hm
        split at hm
        · cases hm
        · cases hm
          exact .of_nil rfl
      · cases shape <;> cases hm <;> exact .of_nil rfl
    · have ha : s.shape? t = some (.cotuple alternatives) :=
        ShapeTable.lift_alternatives_eq_ok_iff.mp ha
      split
      · exact checkConforms_refuses h _ _
      · have hlt : alternatives.size < 2 ^ 32 := (h.shapes.sound _ _ ha).2.2
        exact .error (List.forall_mem_singleton.mpr (count_lt_of_lt (Nat.lt_trans hlt (by decide))))
  | text _ => exact checkLength_refuses hv
  | tuple _ => exact checkLength_refuses hv
  | function f captures =>
    exact Refuses.bind (checkLength_refuses hv) fun _ _ => .discard (body_refuses f)
  | nil elem => exact .discard (lookup_refuses elem)
  | cons elem head tail =>
    refine Refuses.bind (elemShape_refuses h tail) fun rest _ => ?_
    split
    · exact checkConforms_refuses h _ _
    · exact .error (.of_nil rfl)
  | universal domain predicate =>
    exact Refuses.bind (.discard (lookup_refuses domain)) fun _ _ => checkPredicate_refuses h _ _
  | existential domain predicate =>
    exact Refuses.bind (.discard (lookup_refuses domain)) fun _ _ => checkPredicate_refuses h _ _
  | _ => exact .ok

end Store

/-! ### Work -/

/-- The text of the fault is short; what is fatal is that the store is full. -/
def Halt.Explained (h : Halt) (s : Store) : Prop :=
  match h with
  | fault f => f.Bounded
  | fatal e => e = .store .exhausted ∧ s.Full

/-- The counts of an activation have 32 bits. -/
structure Activation.Small (act : Activation) : Prop where
  captures : act.captures.size < 2 ^ 32
  args : act.args.size < 2 ^ 32
  code : ∀ (place : Nat) i, act.body.code[place]? = some i → i.items.length < 2 ^ 32

/-- A function that is left hands on what it owes, and a value that is returned has the
shape that is owed. -/
def Effect.Owes (s : Store) (act : Activation) : Effect → Prop
  | call _ callee => callee.Small
  | replace callee _ => callee.Small ∧ callee.owed = act.owed
  | finish value => s.fits value act.owed = true
  | _ => True

variable {s : Store} {a c : Addr} {regs : Regs} {act : Activation}

namespace Work

theorem refusal_explained {e : StoreError} (h : s.Explains e) :
    (Halt.ofStoreError e).Explained s := by
  cases e with
  | dangling d => exact h
  | mismatch m => exact h
  | duplicate d => exact h.elim
  | exhausted => exact ⟨rfl, h⟩

theorem ask_explained {α : Type} {question : Store → Except StoreError α}
    (h : Refuses (question s) s.Explains) :
    Ends (Work.ask question s) (fun x t => t = s ∧ question s = .ok x) Halt.Explained := by
  rw [Work.ask, lift_eq, Store.ask]
  cases hq : question s with
  | ok x => exact ⟨rfl, rfl⟩
  | error e => exact refusal_explained (h e hq)

theorem value_explained (h : s.WellFormed) (a : Addr) :
    Ends (value a s) (fun v t => t = s ∧ s.value? a = some v) Halt.Explained :=
  (ask_explained (Store.resolve_refuses h a)).imp_value
    fun _ _ hv => ⟨hv.1, Store.lift_resolve_eq_ok_iff.mp hv.2⟩

theorem mismatch_explained {α : Type} {m : Mismatch} {P : α → Store → Prop} (hm : m.counts = []) :
    Ends (mismatch m s) P Halt.Explained := Mismatch.Bounded.of_nil hm

theorem mismatch_count_explained {α : Type} {m : Mismatch} {n : Nat} {P : α → Store → Prop}
    (hm : m.counts = [n]) (hn : n < 2 ^ 32) : Ends (mismatch m s) P Halt.Explained := by
  show m.Bounded
  rw [Mismatch.Bounded, hm, List.forall_mem_singleton]
  exact count_lt_of_lt (Nat.lt_trans hn (by decide))

theorem intern_explained (h : s.WellFormed) {v : Value} (ha : v.isAbstract = true)
    (hv : v.size < 2 ^ 33) :
    Ends ((liftM (Store.intern v) : Work Addr) s) (fun _ _ => True) Halt.Explained := by
  rw [lift_eq]
  have hends := Store.intern_ends h ha
  cases hi : Store.intern v s with
  | ok x t => trivial
  | error e t =>
    obtain ⟨rfl, he | ⟨rfl, hfull⟩⟩ := hends.of_error hi
    · exact refusal_explained (Store.validate_refuses h hv e he)
    · exact ⟨rfl, .inl hfull⟩

theorem readReg_explained (regs : Regs) (r : Reg) :
    Ends (readReg regs r s) (fun _ t => t = s ∧ True) Halt.Explained := by
  unfold readReg
  rcases regs[r.toNat]? with _ | _ | a
  · trivial
  · trivial
  · exact ⟨rfl, trivial⟩

theorem readRegs_explained (regs : Regs) (rs : List Reg) :
    Ends (readRegs regs rs s) (fun found t => t = s ∧ found.length = rs.length)
      Halt.Explained := by
  unfold readRegs
  induction rs with
  | nil => exact ⟨rfl, rfl⟩
  | cons r rs ih =>
    rw [List.mapM_cons]
    refine (readReg_explained regs r).bind_same fun a _ => ih.bind_same fun found hfound => ?_
    exact ⟨rfl, congrArg (· + 1) hfound⟩

theorem into_explained {x : Work Addr} (regs : Regs) (dst : Reg)
    (hx : Ends (x s) (fun _ _ => True) Halt.Explained) :
    Ends (into regs dst x s) (fun out t => out.2.Owes t act) Halt.Explained :=
  Ends.bind (hx.imp_value fun _ _ _ => trivial)

theorem arith_explained (h : s.WellFormed) (op : ArithOp) (a c : Addr) :
    Ends (arith op a c s) (fun _ _ => True) Halt.Explained := by
  refine (value_explained h a).bind_same fun v _ => (value_explained h c).bind_same fun w _ => ?_
  split
  · split
    · exact mismatch_explained rfl
    · cases Ring.arith? op _ _ _ with
      | none => trivial
      | some z => exact intern_explained h rfl (Nat.two_pow_pos 33)
  · exact intern_explained h rfl (Nat.two_pow_pos 33)
  all_goals exact mismatch_explained rfl

theorem compare_explained (h : s.WellFormed) (op : CmpOp) (a c : Addr) :
    Ends (Work.compare op a c s) (fun _ _ => True) Halt.Explained := by
  refine (value_explained h a).bind_same fun v _ => (value_explained h c).bind_same fun w _ => ?_
  split
  · trivial
  · split
    · exact mismatch_explained rfl
    · trivial
  · trivial
  all_goals exact mismatch_explained rfl

theorem project_explained (h : s.WellFormed) (a : Addr) (index : UInt32) :
    Ends (project a index s) (fun _ _ => True) Halt.Explained := by
  refine (value_explained h a).bind_same fun v hv => ?_
  cases v with
  | tuple items =>
    dsimp only
    cases items[index.toNat]? with
    | none => exact mismatch_count_explained rfl (h.valid' hv).2
    | some x => trivial
  | _ => exact mismatch_explained rfl

theorem untag_explained (h : s.WellFormed) (a : Addr) :
    Ends (untag a s) (fun _ t => t = s ∧ True) Halt.Explained := by
  refine (value_explained h a).bind_same fun v _ => ?_
  cases v with
  | cotuple t tag payload => exact ⟨rfl, trivial⟩
  | _ => exact mismatch_explained rfl

theorem targetFor_explained {targets : Array UInt32} (h : targets.size < 2 ^ 32) (tag : UInt32) :
    Ends (targetFor targets tag s) (fun _ t => t = s ∧ True) Halt.Explained := by
  unfold targetFor
  cases targets[tag.toNat]? with
  | none => exact mismatch_count_explained rfl h
  | some target => exact ⟨rfl, trivial⟩

theorem head_explained (h : s.WellFormed) (a : Addr) :
    Ends (head a s) (fun _ _ => True) Halt.Explained := by
  refine (value_explained h a).bind_same fun v _ => ?_
  cases v with
  | cons elem x xs => trivial
  | nil elem => trivial
  | _ => exact mismatch_explained rfl

theorem tail_explained (h : s.WellFormed) (a : Addr) :
    Ends (tail a s) (fun _ _ => True) Halt.Explained := by
  refine (value_explained h a).bind_same fun v _ => ?_
  cases v with
  | cons elem x xs => trivial
  | nil elem => trivial
  | _ => exact mismatch_explained rfl

theorem isNil_explained (h : s.WellFormed) (a : Addr) :
    Ends (isNil a s) (fun _ _ => True) Halt.Explained := by
  refine (value_explained h a).bind_same fun v _ => ?_
  cases v with
  | cons elem x xs => trivial
  | nil elem => trivial
  | _ => exact mismatch_explained rfl

theorem readTruth_explained (h : s.WellFormed) (a : Addr) :
    Ends (readTruth a s) (fun _ t => t = s ∧ True) Halt.Explained := by
  refine (value_explained h a).bind_same fun v _ => ?_
  cases v with
  | cotuple t tag payload =>
    dsimp only
    split
    · exact ⟨rfl, trivial⟩
    · exact mismatch_explained rfl
  | _ => exact mismatch_explained rfl

/-- A question to the store in front of the value that is interned. -/
theorem ask_intern_explained {α : Type} {question : Store → Except StoreError α}
    {next : α → StoreM Addr} (hq : Refuses (question s) s.Explains)
    (hn : ∀ x, question s = .ok x →
      Ends ((liftM (next x) : Work Addr) s) (fun _ _ => True) Halt.Explained) :
    Ends ((liftM (Store.ask question >>= next) : Work Addr) s) (fun _ _ => True)
      Halt.Explained := by
  rw [lift_eq]
  cases hx : question s with
  | ok x =>
    rw [run_bind_of_ok (Store.ask_eq_ok_iff.mpr ⟨hx, rfl⟩), ← lift_eq]
    exact hn x hx
  | error e =>
    have ha : Store.ask question s = .error e s := by
      unfold Store.ask
      rw [hx]
    rw [run_bind_of_error ha]
    exact refusal_explained (hq e hx)

theorem cons_explained (h : s.WellFormed) (a c : Addr) :
    Ends ((liftM (Store.cons a c) : Work Addr) s) (fun _ _ => True) Halt.Explained :=
  ask_intern_explained (Store.elemShape_refuses h c) fun _ _ =>
    intern_explained h rfl (Nat.two_pow_pos 33)

theorem identity_explained (h : s.WellFormed) (a c : Addr) :
    Ends ((liftM (Store.identity a c) : Work Addr) s) (fun _ _ => True) Halt.Explained := by
  refine ask_intern_explained (.discard (Store.resolve_refuses h a)) fun _ _ => ?_
  refine ask_intern_explained (.discard (Store.resolve_refuses h c)) fun _ _ => ?_
  split
  · exact intern_explained h rfl (Nat.two_pow_pos 33)
  · exact mismatch_explained rfl

theorem closure_explained (h : s.WellFormed) (a : Addr) {captures : List Addr}
    (hc : captures.length < 2 ^ 32) :
    Ends ((liftM (Store.closure a captures) : Work Addr) s) (fun _ _ => True) Halt.Explained := by
  refine ask_intern_explained (Store.resolve_refuses h a) fun v hv => ?_
  cases v with
  | function f existing =>
    refine intern_explained h rfl ?_
    have hexisting : existing.size < 2 ^ 32 :=
      (h.valid' (Store.lift_resolve_eq_ok_iff.mp hv)).2.1
    show (existing ++ captures).size < 2 ^ 33
    rw [← Array.length_toList, Array.toList_appendList, List.length_append, Array.length_toList]
    omega
  | _ => exact mismatch_explained rfl

/-! ### Calls -/

theorem checkConforms_explained (h : s.WellFormed) (a : Addr) (t : ShapeId) :
    Ends (Work.ask (·.checkConforms a t) s) (fun _ s' => s' = s ∧ s.fits a t = true)
      Halt.Explained :=
  (ask_explained (Store.checkConforms_refuses h a t)).imp_value
    fun _ _ hv => ⟨hv.1, Store.checkConforms_eq_ok_iff.mp hv.2⟩

theorem checkArgs_explained (h : s.WellFormed) (args : List Addr) (params : List ShapeId) :
    Ends (checkArgs args params s) (fun _ t => t = s ∧ True) Halt.Explained := by
  induction args generalizing params with
  | nil => exact ⟨rfl, trivial⟩
  | cons arg args ih =>
    cases params with
    | nil => exact ⟨rfl, trivial⟩
    | cons param params => exact (checkConforms_explained h arg param).bind_same fun _ _ => ih params

theorem prepare_explained (h : s.WellFormed) (callee : Addr) {args : List Addr}
    (owed : Option ShapeId) (hargs : args.length < 2 ^ 32) :
    Ends (prepare callee args owed s)
      (fun act t => t = s ∧ act.Small ∧ act.owed = owed.getD (s.resultShape callee))
      Halt.Explained := by
  refine (value_explained h callee).bind_same fun v hv => ?_
  cases v with
  | function f captures =>
    refine (ask_explained (Store.body_refuses f)).bind_same fun b hb => ?_
    have hb : s.body? f = some b := Store.lift_body_eq_ok_iff.mp hb
    have hverified := h.verified' hb
    split
    · refine List.forall_mem_cons.mpr ⟨?_, List.forall_mem_singleton.mpr ?_⟩
      · exact Nat.lt_trans hverified.arity_lt (by decide)
      · exact Nat.lt_trans hargs (by decide)
    · refine (checkArgs_explained h args b.params).bind_same fun _ _ => ⟨rfl, ⟨?_, ?_, ?_⟩, ?_⟩
      · exact (h.valid' hv).2.1
      · exact hargs
      · exact fun place i hi => (hverified.instrs place i hi).1
      · simp [Store.resultShape, hv, hb]
  | _ => exact mismatch_explained rfl

theorem checkResult_explained (h : s.WellFormed) (act : Activation) (a : Addr) :
    Ends (checkResult act a s) (fun _ t => t = s ∧ s.fits a act.owed = true) Halt.Explained := by
  refine (checkConforms_explained h a act.body.result).bind_same fun _ hfit => ?_
  split
  · exact checkConforms_explained h a act.owed
  · next he =>
    have he : act.owed = act.body.result := by simpa using he
    exact ⟨rfl, he ▸ hfit⟩

theorem unpack_explained (h : s.WellFormed) {arity : Nat} (hn : arity < 2 ^ 32) (arg : Addr) :
    Ends (unpack arity arg s) (fun args t => t = s ∧ args.length < 2 ^ 32) Halt.Explained := by
  refine (value_explained h arg).bind_same fun v hv => ?_
  split
  · exact ⟨rfl, Nat.one_lt_two_pow (by decide)⟩
  · have hitems := (h.valid' hv).2
    split
    · exact ⟨rfl, hitems⟩
    · refine List.forall_mem_cons.mpr ⟨?_, List.forall_mem_singleton.mpr ?_⟩
      · exact Nat.lt_trans hn (by decide)
      · exact Nat.lt_trans hitems (by decide)
  · exact mismatch_explained rfl

end Work

open Work in
/-- An instruction of any frame: what is owed stays owed, and an early end is
explained. -/
theorem Instr.exec_owes (h : s.WellFormed) (hact : act.Small) {i : Instr}
    (hi : i.items.length < 2 ^ 32) (regs : Regs) :
    Ends (i.exec act regs s) (fun out t => out.2.Owes t act) Halt.Explained := by
  have hread (r : Reg) := readReg_explained (s := s) regs r
  have hreads {rs : List Reg} (hl : rs.length < 2 ^ 32) :
      Ends (readRegs regs rs s) (fun found t => t = s ∧ found.length < 2 ^ 32) Halt.Explained :=
    (readRegs_explained regs rs).imp_value fun _ _ hf => ⟨hf.1, hf.2 ▸ hl⟩
  cases i with
  | nop => trivial
  | trap code => trivial
  | const dst addr =>
    exact into_explained regs dst (Ends.bind (.map ((value_explained h addr).imp_value
      fun _ _ _ => trivial)))
  | arg dst index =>
    refine into_explained regs dst ?_
    cases act.args[index.toNat]? with
    | none => exact mismatch_count_explained rfl hact.args
    | some a => trivial
  | capture dst index =>
    refine into_explained regs dst ?_
    cases act.captures[index.toNat]? with
    | none => exact mismatch_count_explained rfl hact.captures
    | some a => trivial
  | mov dst src => exact into_explained regs dst ((hread src).imp_value fun _ _ _ => trivial)
  | arith op dst a b =>
    exact into_explained regs dst ((hread a).bind_same fun x _ => (hread b).bind_same fun y _ =>
      arith_explained h op x y)
  | cmp op dst a b =>
    exact into_explained regs dst ((hread a).bind_same fun x _ => (hread b).bind_same fun y _ =>
      Ends.bind ((compare_explained h op x y).imp_value fun _ _ _ => trivial))
  | tupleNew dst items =>
    exact into_explained regs dst ((hreads hi).bind_same fun found hfound =>
      intern_explained h rfl (Nat.lt_trans hfound (by decide)))
  | tupleGet dst tuple index =>
    exact into_explained regs dst ((hread tuple).bind_same fun x _ => project_explained h x index)
  | cotupleNew dst t tag payload =>
    exact into_explained regs dst ((hread payload).bind_same fun x _ =>
      intern_explained h rfl (Nat.two_pow_pos 33))
  | branch scrutinee payload targets =>
    refine (hread scrutinee).bind_same fun x _ => (untag_explained h x).bind_same fun (tag, _) _ => ?_
    exact (targetFor_explained hi tag).bind_same fun target _ => trivial
  | nil dst elem => exact into_explained regs dst (intern_explained h rfl (Nat.two_pow_pos 33))
  | cons dst first rest =>
    exact into_explained regs dst ((hread first).bind_same fun x _ =>
      (hread rest).bind_same fun xs _ => cons_explained h x xs)
  | head dst list =>
    exact into_explained regs dst ((hread list).bind_same fun xs _ => head_explained h xs)
  | tail dst list =>
    exact into_explained regs dst ((hread list).bind_same fun xs _ => tail_explained h xs)
  | isNil dst list =>
    exact into_explained regs dst ((hread list).bind_same fun xs _ =>
      Ends.bind ((isNil_explained h xs).imp_value fun _ _ _ => trivial))
  | refl dst a b =>
    exact into_explained regs dst ((hread a).bind_same fun x _ => (hread b).bind_same fun y _ =>
      identity_explained h x y)
  | jmp target => trivial
  | closure dst func captures =>
    exact into_explained regs dst ((hreads hi).bind_same fun found hfound =>
      (hread func).bind_same fun f _ => closure_explained h f hfound)
  | call dst func args =>
    refine (hread func).bind_same fun f _ => (hreads hi).bind_same fun found hfound => ?_
    exact (prepare_explained h f none hfound).bind_same fun callee hcallee => hcallee.1
  | tailCall func args =>
    refine (hread func).bind_same fun f _ => (hreads hi).bind_same fun found hfound => ?_
    exact (prepare_explained h f (some act.owed) hfound).bind_same fun callee hcallee => hcallee
  | defer cond onProved onDisproved args =>
    refine (hread cond).bind_same fun x _ => (readTruth_explained h x).bind_same fun proved _ => ?_
    refine (hread _).bind_same fun f _ => (hreads hi).bind_same fun found hfound => ?_
    exact (prepare_explained h f (some act.owed) hfound).bind_same fun callee hcallee => hcallee
  | ret src =>
    refine (hread src).bind_same fun x _ => (checkResult_explained h act x).bind_same fun _ hfit => ?_
    exact hfit

end ValueMachine
