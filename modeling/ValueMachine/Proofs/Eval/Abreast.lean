import ValueMachine.Proofs.Eval.Soundness
import ValueMachine.Proofs.Store.Mirror

/-! One instruction on two stores, side by side.

Of two stores that have grown from one, the second mirrors the first. An instruction of a
function of the base, done on twins in both, ends alike: with twins in the registers, with
the same effect on twins, or with the same fault up to places (`Instr.exec_abreast`). Only
comparisons look at places as such, and twins are equal in one store just when they are in
the other. -/
namespace ValueMachine

/-! ### Faults -/

/-- The fault with its places replaced. -/
def Fault.rename (r : Addr → Addr) : Fault → Fault
  | mismatch m => mismatch (m.rename r)
  | dangling d => dangling ⟨r d.addr, d.size⟩
  | f => f

/-- The places that a fault is about. -/
def Fault.places : Fault → List Addr
  | mismatch m => m.places
  | dangling d => [d.addr]
  | _ => []

/-- The same fault about related places that are there. -/
inductive Fault.Alike (R : Addr → Addr → Prop) : Fault → Fault → Prop
  | mismatch {m n : Mismatch} (h : m.Alike R n) : Alike R (.mismatch m) (.mismatch n)
  | same {f : Fault} (h : f.places = []) : Alike R f f

inductive Halt.Alike (R : Addr → Addr → Prop) : Halt → Halt → Prop
  | fault {f g : Fault} (h : f.Alike R g) : Alike R (.fault f) (.fault g)
  | fatal (e : EvalError) : Alike R (.fatal e) (.fatal e)

inductive Stop.Alike (R : Addr → Addr → Prop) : Stop → Stop → Prop
  | fault {f g : Fault} (h : f.Alike R g) (site : Option Site) :
    Alike R (.fault f site) (.fault g site)
  | fatal (e : EvalError) : Alike R (.fatal e) (.fatal e)

theorem Fault.Alike.eq_rename {R : Addr → Addr → Prop} {f g : Fault} (h : f.Alike R g)
    {r : Addr → Addr} (hr : ∀ a b, R a b → b = r a) : g = f.rename r := by
  cases h with
  | mismatch h => rw [h.eq_rename hr, rename]
  | @same f h =>
    cases f with
    | mismatch m => rw [rename, Mismatch.rename_of_places h]
    | dangling d => cases h
    | _ => rfl

theorem Fault.Alike.places {R : Addr → Addr → Prop} {f g : Fault} (h : f.Alike R g) :
    List.Forall₂ R f.places g.places := by
  cases h with
  | mismatch h => exact h.places
  | same h =>
    rw [h]
    exact .nil

theorem Halt.Alike.at {R : Addr → Addr → Prop} {h h' : Halt} (hh : h.Alike R h')
    (site : Option Site) : (h.at site).Alike R (h'.at site) := by
  cases hh with
  | fault hf => exact .fault hf site
  | fatal e => exact .fatal e

/-! ### Frames -/

/-- The same function on twins. It is a function of the base, and it owes a shape of the
base. -/
structure Activation.Alike (base s t : Store) (act act' : Activation) : Prop where
  func : act.func = act'.func
  body : act.body = act'.body
  owed : act.owed = act'.owed
  captures : List.Forall₂ (Store.Twins s t) act.captures.toList act'.captures.toList
  args : List.Forall₂ (Store.Twins s t) act.args.toList act'.args.toList
  registered : base.body? act.func = some act.body
  knows : base.Knows act.owed

/-- The same registers are written, with twins. -/
def Regs.Alike (s t : Store) (regs regs' : Regs) : Prop :=
  List.Forall₂ (Option.Rel (Store.Twins s t)) regs.toList regs'.toList

inductive Effect.Alike (base s t : Store) : Effect → Effect → Prop
  | next : Alike base s t .next .next
  | goto (target : UInt32) : Alike base s t (.goto target) (.goto target)
  | call (dst : Reg) {act act' : Activation} (h : act.Alike base s t act') :
    Alike base s t (.call dst act) (.call dst act')
  | replace {act act' : Activation} (h : act.Alike base s t act') (scope : Scope) :
    Alike base s t (.replace act scope) (.replace act' scope)
  | finish {a b : Addr} (h : Store.Twins s t a b) : Alike base s t (.finish a) (.finish b)

theorem forall₂_getElem? {α β : Type} {R : α → β → Prop} {xs : List α} {ys : List β}
    (h : List.Forall₂ R xs ys) (i : Nat) : Option.Rel R xs[i]? ys[i]? := by
  induction h generalizing i with
  | nil => exact .none
  | cons hxy _ ih =>
    cases i with
    | zero => exact .some hxy
    | succ i => exact ih i

theorem forall₂_set {α β : Type} {R : α → β → Prop} {xs : List α} {ys : List β} {x : α} {y : β}
    (h : List.Forall₂ R xs ys) (hxy : R x y) (i : Nat) :
    List.Forall₂ R (xs.set i x) (ys.set i y) := by
  induction h generalizing i with
  | nil => exact .nil
  | cons h hs ih =>
    cases i with
    | zero => exact .cons hxy hs
    | succ i => exact .cons h (ih i)

variable {base s t s' t' : Store} {a b c d : Addr} {regs regs' : Regs} {act act' : Activation}
  {α β : Type}

theorem Activation.Alike.mono (h : act.Alike base s t act') (hs : s.Extends s')
    (ht : t.Extends t') : act.Alike base s' t' act' :=
  ⟨h.func, h.body, h.owed, h.captures.imp fun _ _ hab => hab.mono hs ht,
    h.args.imp fun _ _ hab => hab.mono hs ht, h.registered, h.knows⟩

theorem Regs.Alike.mono (h : Regs.Alike s t regs regs') (hs : s.Extends s') (ht : t.Extends t') :
    Regs.Alike s' t' regs regs' := by
  refine List.Forall₂.imp (fun x y hxy => ?_) h
  cases hxy with
  | some hab => exact .some (hab.mono hs ht)
  | none => exact .none

theorem Regs.Alike.set (h : Regs.Alike s t regs regs') (hab : Store.Twins s t a b) (dst : Reg) :
    Regs.Alike s t (regs.set dst a) (regs'.set dst b) := by
  unfold Alike Regs.set
  rw [Array.toList_setIfInBounds, Array.toList_setIfInBounds]
  exact forall₂_set h (.some hab) _

theorem Activation.Alike.fresh (h : act.Alike base s t act') :
    Regs.Alike s t act.freshRegs act'.freshRegs := by
  unfold Regs.Alike freshRegs
  rw [h.body]
  refine List.forall₂_same.mpr fun x hx => ?_
  rw [Array.toList_replicate] at hx
  rw [(List.mem_replicate.mp hx).2]
  exact .none

namespace Work

open Store

/-! ### Work on twins -/

/-- Work that ends early does so in both stores for the same reason. -/
def Halted (base : Store) (h : Halt) (s : Store) (h' : Halt) (t : Store) : Prop :=
  base.Mirrors s t ∧ h.Alike (Twins s t) h'

/-- How work ends that is done side by side. -/
abbrev Abreast (base s t : Store) (V : Store → Store → α → β → Prop) :
    EStateM.Result Halt Store α → EStateM.Result Halt Store β → Prop :=
  Agree (· = .fatal (.store .exhausted))
    (fun x s' y t' => Onward base s t s' t' ∧ V s' t' x y) (Halted base)

/-- How work ends side by side that leaves both stores as they are. -/
abbrev Steady (base s t : Store) (P : α → β → Prop) :
    EStateM.Result Halt Store α → EStateM.Result Halt Store β → Prop :=
  Agree (· = .fatal (.store .exhausted)) (fun x s' y t' => s' = s ∧ t' = t ∧ P x y) (Halted base)

theorem Steady.abreast (h : base.Mirrors s t) {P : α → β → Prop} {V : Store → Store → α → β → Prop}
    {r : EStateM.Result Halt Store α} {r' : EStateM.Result Halt Store β}
    (hr : Steady base s t P r r') (hV : ∀ x y, P x y → V s t x y) : Abreast base s t V r r' := by
  refine hr.imp ?_
  rintro x _ y _ ⟨rfl, rfl, hxy⟩
  exact ⟨.refl h, hV x y hxy⟩

theorem lift_agree {V : α → Store → β → Store → Prop} {op : StoreM α} {op' : StoreM β}
    (h : Agree (· = .exhausted) V (Refused base) (op s) (op' t)) :
    Agree (· = .fatal (.store .exhausted)) V (Halted base) ((liftM op : Work α) s)
      ((liftM op' : Work β) t) := by
  rw [lift_eq, lift_eq]
  generalize op s = r at h
  generalize op' t = r' at h
  cases h with
  | ok h => exact .ok h
  | error h =>
    obtain ⟨hm, ⟨he⟩⟩ := h
    exact .error ⟨hm, .fault (.mismatch he)⟩
  | left h =>
    cases h
    exact .left rfl
  | right h =>
    cases h
    exact .right rfl

variable (h : base.Mirrors s t)
include h

theorem ask_steady {P : α → β → Prop} {q : Store → Except StoreError α}
    {q' : Store → Except StoreError β} (hq : Answers P (Mirrors.Refusals s t) (q s) (q' t)) :
    Steady base s t P (ask q s) (ask q' t) := lift_agree (h.ask_agree hq)

theorem fault_agree {V : α → Store → β → Store → Prop} {f g : Fault} (hf : f.Alike (Twins s t) g) :
    Agree (· = .fatal (.store .exhausted)) V (Halted base) (fault f s) (fault g t) :=
  .throw ⟨h, .fault hf⟩

theorem mismatch_agree {V : α → Store → β → Store → Prop} {m : Mismatch} (hm : m.places = []) :
    Agree (· = .fatal (.store .exhausted)) V (Halted base) (mismatch m s) (mismatch m t) :=
  fault_agree h (.mismatch (.same hm))

theorem value_steady (hab : Twins s t a b) :
    Steady base s t (fun v w => s.value? a = some v ∧ v.Alike (Twins s t) w) (value a s)
      (value b t) :=
  ask_steady h ((h.resolve_answers hab).imp fun _ _ hv => ⟨hv.1, hv.2.2⟩)

theorem readReg_steady (hr : Regs.Alike s t regs regs') (r : Reg) :
    Steady base s t (Twins s t) (readReg regs r s) (readReg regs' r t) := by
  have hread := forall₂_getElem? hr r.toNat
  rw [Array.getElem?_toList, Array.getElem?_toList] at hread
  unfold readReg
  generalize regs[r.toNat]? = x at hread
  generalize regs'[r.toNat]? = y at hread
  rcases hread with ⟨⟨hab⟩ | _⟩ | _
  · exact .pure ⟨rfl, rfl, hab⟩
  · exact fault_agree h (.same rfl)
  · exact fault_agree h (.same rfl)

theorem readRegs_steady (hr : Regs.Alike s t regs regs') (rs : List Reg) :
    Steady base s t (List.Forall₂ (Twins s t)) (readRegs regs rs s) (readRegs regs' rs t) := by
  unfold readRegs
  induction rs with
  | nil => exact .pure ⟨rfl, rfl, .nil⟩
  | cons r rs ih =>
    rw [List.mapM_cons, List.mapM_cons]
    refine (readReg_steady h hr r).bind_same fun x y hxy => ?_
    refine ih.bind_same fun xs ys hxys => ?_
    exact .pure ⟨rfl, rfl, .cons hxy hxys⟩

theorem intern_abreast {v w : Value} (ha : v.isAbstract = true) (hvw : v.Alike (Twins s t) w)
    (hshapes : ∀ id ∈ v.shapes, base.Knows id) (hf : ∀ f captures, v ≠ .function f captures) :
    Abreast base s t Twins ((liftM (Store.intern v) : Work Addr) s)
      ((liftM (Store.intern w) : Work Addr) t) :=
  lift_agree (h.intern_abreast ha hvw hshapes fun f captures he => absurd he (hf f captures))

/-- The same where the value names no shapes. -/
theorem intern_plain_abreast {v w : Value} (ha : v.isAbstract = true)
    (hvw : v.Alike (Twins s t) w) (hshapes : v.shapes = [])
    (hf : ∀ f captures, v ≠ .function f captures) :
    Abreast base s t Twins ((liftM (Store.intern v) : Work Addr) s)
      ((liftM (Store.intern w) : Work Addr) t) :=
  intern_abreast h ha hvw (fun _ hid => absurd (hshapes ▸ hid) List.not_mem_nil) hf

theorem arith_abreast (hab : Twins s t a b) (hcd : Twins s t c d) (op : ArithOp) :
    Abreast base s t Twins (arith op a c s) (arith op b d t) := by
  refine (value_steady h hab).bind_same ?_
  rintro v w ⟨-, hvw⟩
  refine (value_steady h hcd).bind_same ?_
  rintro x y ⟨-, hxy⟩
  cases hvw with
  | ring bits x =>
    cases hxy with
    | ring right y =>
      dsimp only
      split
      · exact mismatch_agree h rfl
      · cases Ring.arith? op bits x y with
        | none => exact fault_agree h (.same rfl)
        | some z => exact intern_plain_abreast h rfl (.ring bits z) rfl fun _ _ he => by cases he
    | _ => exact mismatch_agree h rfl
  | flex x =>
    cases hxy with
    | flex y => exact intern_plain_abreast h rfl (.flex _) rfl fun _ _ he => by cases he
    | _ => exact mismatch_agree h rfl
  | _ => exact mismatch_agree h rfl

theorem compare_steady (hab : Twins s t a b) (hcd : Twins s t c d) (op : CmpOp) :
    Steady base s t Eq (compare op a c s) (compare op b d t) := by
  refine (value_steady h hab).bind_same ?_
  rintro v w ⟨-, hvw⟩
  refine (value_steady h hcd).bind_same ?_
  rintro x y ⟨-, hxy⟩
  cases op with
  | eq => exact .pure ⟨rfl, rfl, by rw [Bool.eq_iff_iff, beq_iff_eq, beq_iff_eq, h.eq_iff hab hcd]⟩
  | _ =>
    cases hvw with
    | ring bits x =>
      cases hxy with
      | ring right y =>
        dsimp only
        split
        · exact mismatch_agree h rfl
        · exact .pure ⟨rfl, rfl, rfl⟩
      | _ => exact mismatch_agree h rfl
    | flex x =>
      cases hxy with
      | flex y => exact .pure ⟨rfl, rfl, rfl⟩
      | _ => exact mismatch_agree h rfl
    | _ => exact mismatch_agree h rfl

/-- The item at an index, or the same complaint about the index. -/
theorem item_steady {xs ys : Array Addr} (hxy : List.Forall₂ (Twins s t) xs.toList ys.toList)
    (index : Nat) {m : Nat → Mismatch} (hm : ∀ n, (m n).places = []) :
    Steady base s t (Twins s t)
      ((match xs[index]? with
        | some a => return a
        | none => mismatch (m xs.size) : Work Addr) s)
      ((match ys[index]? with
        | some a => return a
        | none => mismatch (m ys.size) : Work Addr) t) := by
  have hsize := hxy.length_eq
  have hitem := forall₂_getElem? hxy index
  rw [Array.length_toList, Array.length_toList] at hsize
  rw [Array.getElem?_toList, Array.getElem?_toList] at hitem
  rw [hsize]
  generalize xs[index]? = x at hitem
  generalize ys[index]? = y at hitem
  cases hitem with
  | some hab => exact .pure ⟨rfl, rfl, hab⟩
  | none => exact mismatch_agree h (hm _)

theorem project_steady (hab : Twins s t a b) (index : UInt32) :
    Steady base s t (Twins s t) (project a index s) (project b index t) := by
  refine (value_steady h hab).bind_same ?_
  rintro v w ⟨-, hvw⟩
  cases hvw with
  | tuple hitems => exact item_steady h hitems index.toNat fun _ => rfl
  | _ => exact mismatch_agree h rfl

theorem untag_steady (hab : Twins s t a b) :
    Steady base s t (fun x y => x.1 = y.1 ∧ Twins s t x.2 y.2) (untag a s) (untag b t) := by
  refine (value_steady h hab).bind_same ?_
  rintro v w ⟨-, hvw⟩
  cases hvw with
  | cotuple id tag hpayload => exact .pure ⟨rfl, rfl, rfl, hpayload⟩
  | _ => exact mismatch_agree h rfl

theorem targetFor_steady (targets : Array UInt32) (tag : UInt32) :
    Steady base s t Eq (targetFor targets tag s) (targetFor targets tag t) := by
  unfold targetFor
  cases targets[tag.toNat]? with
  | some target => exact .pure ⟨rfl, rfl, rfl⟩
  | none => exact mismatch_agree h rfl

theorem head_steady (hab : Twins s t a b) :
    Steady base s t (Twins s t) (head a s) (head b t) := by
  refine (value_steady h hab).bind_same ?_
  rintro v w ⟨-, hvw⟩
  cases hvw with
  | cons elem hhead htail => exact .pure ⟨rfl, rfl, hhead⟩
  | nil elem => exact fault_agree h (.same rfl)
  | _ => exact mismatch_agree h rfl

theorem tail_steady (hab : Twins s t a b) :
    Steady base s t (Twins s t) (tail a s) (tail b t) := by
  refine (value_steady h hab).bind_same ?_
  rintro v w ⟨-, hvw⟩
  cases hvw with
  | cons elem hhead htail => exact .pure ⟨rfl, rfl, htail⟩
  | nil elem => exact fault_agree h (.same rfl)
  | _ => exact mismatch_agree h rfl

theorem isNil_steady (hab : Twins s t a b) :
    Steady base s t Eq (isNil a s) (isNil b t) := by
  refine (value_steady h hab).bind_same ?_
  rintro v w ⟨-, hvw⟩
  cases hvw with
  | cons elem hhead htail => exact .pure ⟨rfl, rfl, rfl⟩
  | nil elem => exact .pure ⟨rfl, rfl, rfl⟩
  | _ => exact mismatch_agree h rfl

theorem readTruth_steady (hab : Twins s t a b) :
    Steady base s t Eq (readTruth a s) (readTruth b t) := by
  refine (value_steady h hab).bind_same ?_
  rintro v w ⟨-, hvw⟩
  cases hvw with
  | cotuple id tag hpayload =>
    dsimp only
    split
    · exact .pure ⟨rfl, rfl, rfl⟩
    · exact fault_agree h (.mismatch (.nonconforming hab _))
  | _ => exact mismatch_agree h rfl

/-! ### Calls -/

theorem checkArgs_steady {args args' : List Addr} (hargs : List.Forall₂ (Twins s t) args args')
    {params : List ShapeId} (hparams : ∀ id ∈ params, base.Knows id) :
    Steady base s t (fun _ _ => True) (checkArgs args params s) (checkArgs args' params t) := by
  induction hargs generalizing params with
  | nil => exact .pure ⟨rfl, rfl, trivial⟩
  | cons hab _ ih =>
    cases params with
    | nil => exact .pure ⟨rfl, rfl, trivial⟩
    | cons param params =>
      obtain ⟨hparam, hparams⟩ := List.forall_mem_cons.mp hparams
      refine (ask_steady h (h.checkConforms_answers hab hparam)).bind_same fun _ _ _ => ?_
      exact ih hparams

theorem prepare_steady (hab : Twins s t a b) {args args' : List Addr}
    (hargs : List.Forall₂ (Twins s t) args args') {owed : Option ShapeId}
    (howed : ∀ id ∈ owed, base.Knows id) :
    Steady base s t (Activation.Alike base s t) (prepare a args owed s)
      (prepare b args' owed t) := by
  refine (value_steady h hab).bind_same ?_
  rintro v w ⟨hv, hvw⟩
  cases hvw with
  | function f hcaptures =>
    obtain ⟨-, -, body, hbody⟩ := h.left.valid' hv
    refine (ask_steady h (h.body_answers hbody)).bind_same ?_
    rintro body _ ⟨rfl, hbody⟩
    have hverified := h.origin.verified' hbody
    rw [hargs.length_eq]
    split
    · exact mismatch_agree h rfl
    · refine (checkArgs_steady h hargs hverified.params).bind_same fun _ _ _ => ?_
      refine .pure ⟨rfl, rfl, rfl, rfl, rfl, hcaptures, hargs, hbody, ?_⟩
      cases owed with
      | none => exact hverified.result
      | some id => exact howed id rfl
  | _ => exact mismatch_agree h rfl

theorem checkResult_steady (hact : act.Alike base s t act') (hab : Twins s t a b) :
    Steady base s t (fun _ _ => True) (checkResult act a s) (checkResult act' b t) := by
  have hresult := (h.origin.verified' hact.registered).result
  unfold checkResult
  rw [← hact.body, ← hact.owed]
  refine (ask_steady h (h.checkConforms_answers hab hresult)).bind_same fun _ _ _ => ?_
  split
  · exact ask_steady h (h.checkConforms_answers hab hact.knows)
  · exact .pure ⟨rfl, rfl, trivial⟩

theorem unpack_steady (arity : Nat) (hab : Twins s t a b) :
    Steady base s t (List.Forall₂ (Twins s t)) (unpack arity a s) (unpack arity b t) := by
  refine (value_steady h hab).bind_same ?_
  rintro v w ⟨-, hvw⟩
  have hsize := hvw.size_eq
  cases hvw with
  | @tuple xs ys hitems =>
    have hsize : xs.size = ys.size := hsize
    have hmany (n : Nat) : Steady base s t (List.Forall₂ (Twins s t))
        ((if xs.size = n then return xs.toList else mismatch (.arity n xs.size) :
          Work (List Addr)) s)
        ((if ys.size = n then return ys.toList else mismatch (.arity n ys.size) :
          Work (List Addr)) t) := by
      rw [hsize]
      split
      · exact .pure ⟨rfl, rfl, hitems⟩
      · exact mismatch_agree h rfl
    match arity with
    | 0 => exact hmany 0
    | 1 => exact .pure ⟨rfl, rfl, .cons hab .nil⟩
    | n + 2 => exact hmany (n + 2)
  | _ =>
    match arity with
    | 0 => exact mismatch_agree h rfl
    | 1 => exact .pure ⟨rfl, rfl, .cons hab .nil⟩
    | n + 2 => exact mismatch_agree h rfl

/-! ### Instructions -/

omit h in
theorem into_abreast (hr : Regs.Alike s t regs regs') {x y : Work Addr}
    (hx : Abreast base s t Twins (x s) (y t)) (dst : Reg) :
    Abreast base s t
      (fun s' t' out out' => Regs.Alike s' t' out.1 out'.1 ∧ out.2.Alike base s' t' out'.2)
      (into regs dst x s) (into regs' dst y t) := by
  refine hx.bind ?_
  rintro a s' b t' ⟨hon, hab⟩
  exact .pure ⟨hon, (hr.mono hon.left hon.right).set hab dst, .next⟩

end Work

open Work in
/-- An instruction of a function of the base ends alike in both stores. -/
theorem Instr.exec_abreast (h : base.Mirrors s t) (hact : act.Alike base s t act')
    (hr : Regs.Alike s t regs regs') {i : Instr} (hi : i.Bounded base act.body) :
    Abreast base s t
      (fun s' t' out out' => Regs.Alike s' t' out.1 out'.1 ∧ out.2.Alike base s' t' out'.2)
      (i.exec act regs s) (i.exec act' regs' t) := by
  obtain ⟨-, hi⟩ := hi
  have hon : Store.Onward base s t s t := .refl h
  have hread (r : Reg) := readReg_steady h hr r
  have hreads (rs : List Reg) := readRegs_steady h hr rs
  -- A question that is answered alike fills a register with twins.
  have hput {x y : Work Addr} (dst : Reg)
      (hx : Steady base s t (Store.Twins s t) (x s) (y t)) :=
    into_abreast hr (hx.abreast h fun _ _ hab => hab) dst
  have howed : ∀ id ∈ some act.owed, base.Knows id :=
    fun id hid => Option.mem_some.mp hid ▸ hact.knows
  cases i with
  | nop => exact .pure ⟨hon, hr, .next⟩
  | trap code => exact fault_agree h (.same rfl)
  | const dst addr =>
    refine hput dst (.bind_same (P := fun _ _ => True) (.map ?_) fun _ _ _ => ?_)
    · exact (value_steady h (h.twins_of_base hi)).imp fun _ _ _ _ hv => ⟨hv.1, hv.2.1, trivial⟩
    · exact .pure ⟨rfl, rfl, h.twins_of_base hi⟩
  | arg dst index => exact hput dst (item_steady h hact.args index.toNat fun _ => rfl)
  | capture dst index => exact hput dst (item_steady h hact.captures index.toNat fun _ => rfl)
  | mov dst src => exact hput dst (hread src)
  | arith op dst a b =>
    refine into_abreast hr ?_ dst
    refine (hread a).bind_same fun x x' hx => ?_
    refine (hread b).bind_same fun y y' hy => ?_
    exact arith_abreast h hx hy op
  | cmp op dst a b =>
    refine hput dst ?_
    refine (hread a).bind_same fun x x' hx => ?_
    refine (hread b).bind_same fun y y' hy => ?_
    refine (compare_steady h hx hy op).bind_same ?_
    rintro holds _ rfl
    exact .pure ⟨rfl, rfl, h.twins_of_base (truth_holds h.origin holds)⟩
  | tupleNew dst items =>
    refine into_abreast hr ?_ dst
    refine (hreads items).bind_same fun found found' hfound => ?_
    exact intern_plain_abreast h rfl (.tuple hfound) rfl fun _ _ he => by cases he
  | tupleGet dst tuple index =>
    refine hput dst ?_
    refine (hread tuple).bind_same fun x x' hx => ?_
    exact project_steady h hx index
  | cotupleNew dst id tag payload =>
    refine into_abreast hr ?_ dst
    refine (hread payload).bind_same fun x x' hx => ?_
    obtain ⟨alternatives, hid, -⟩ := hi
    exact intern_abreast h rfl (.cotuple id tag hx)
      (List.forall_mem_singleton.mpr (Interner.lt_size hid)) fun _ _ he => by cases he
  | branch scrutinee payload targets =>
    refine (hread scrutinee).bind_same fun x x' hx => ?_
    refine (untag_steady h hx).bind_same ?_
    rintro ⟨tag, inner⟩ ⟨_, inner'⟩ ⟨rfl, hinner⟩
    refine (targetFor_steady h targets tag).bind_same ?_
    rintro target _ rfl
    exact .pure ⟨hon, hr.set hinner payload, .goto target⟩
  | nil dst elem =>
    refine into_abreast hr ?_ dst
    exact intern_abreast h rfl (.nil elem) (List.forall_mem_singleton.mpr hi)
      fun _ _ he => by cases he
  | cons dst first rest =>
    refine into_abreast hr ?_ dst
    refine (hread first).bind_same fun x x' hx => ?_
    refine (hread rest).bind_same fun xs xs' hxs => ?_
    exact lift_agree (h.cons_abreast hx hxs)
  | head dst list =>
    refine hput dst ?_
    refine (hread list).bind_same fun xs xs' hxs => ?_
    exact head_steady h hxs
  | tail dst list =>
    refine hput dst ?_
    refine (hread list).bind_same fun xs xs' hxs => ?_
    exact tail_steady h hxs
  | isNil dst list =>
    refine hput dst ?_
    refine (hread list).bind_same fun xs xs' hxs => ?_
    refine (isNil_steady h hxs).bind_same ?_
    rintro holds _ rfl
    exact .pure ⟨rfl, rfl, h.twins_of_base (truth_holds h.origin holds)⟩
  | refl dst a b =>
    refine into_abreast hr ?_ dst
    refine (hread a).bind_same fun x x' hx => ?_
    refine (hread b).bind_same fun y y' hy => ?_
    exact lift_agree (h.identity_abreast hx hy)
  | jmp target => exact .pure ⟨hon, hr, .goto target⟩
  | closure dst func captures =>
    refine into_abreast hr ?_ dst
    refine (hreads captures).bind_same fun found found' hfound => ?_
    refine (hread func).bind_same fun f f' hf => ?_
    exact lift_agree (h.closure_abreast hf hfound)
  | call dst func args =>
    refine (hread func).bind_same fun f f' hf => ?_
    refine (hreads args).bind_same fun found found' hfound => ?_
    refine (prepare_steady h hf hfound (by simp)).bind_same fun callee callee' hcallee => ?_
    exact .pure ⟨hon, hr, .call dst hcallee⟩
  | tailCall func args =>
    rw [exec, exec, ← hact.owed]
    refine (hread func).bind_same fun f f' hf => ?_
    refine (hreads args).bind_same fun found found' hfound => ?_
    refine (prepare_steady h hf hfound howed).bind_same fun callee callee' hcallee => ?_
    rw [← hcallee.func]
    exact .pure ⟨hon, hr, .replace hcallee _⟩
  | defer cond onProved onDisproved args =>
    rw [exec, exec, ← hact.owed]
    refine (hread cond).bind_same fun x x' hx => ?_
    refine (readTruth_steady h hx).bind_same ?_
    rintro proved _ rfl
    refine (hread _).bind_same fun f f' hf => ?_
    refine (hreads args).bind_same fun found found' hfound => ?_
    refine (prepare_steady h hf hfound howed).bind_same fun callee callee' hcallee => ?_
    rw [← hcallee.func]
    exact .pure ⟨hon, hr, .replace hcallee _⟩
  | ret src =>
    refine (hread src).bind_same fun x x' hx => ?_
    refine (checkResult_steady h hact hx).bind_same fun _ _ _ => ?_
    exact .pure ⟨hon, hr, .finish hx⟩

end ValueMachine
