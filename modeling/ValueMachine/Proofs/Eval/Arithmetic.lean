import ValueMachine.Proofs.Data.Ring
import ValueMachine.Proofs.Eval.Isolation

/-! Arithmetic on ring values.

An instruction that works on two ring values of one width puts the value of the result into
a register, where results are those of arithmetic modulo the power of two that belongs to
the width (`Ring.IsResult`). The result is a value of the ring, so it is never refused. The
instructions mean the same in both ways of running code, so what they do is stated for both
at once (`Instr.Puts`, `Instr.Stops`). -/
namespace ValueMachine

variable {s t : Store} {act : Activation} {regs : Regs} {dst ra rb : Reg} {a b c : Addr}
variable {bits right : UInt8} {x y : UInt64}

/-- What a comparison says of two numbers. -/
def CmpOp.Holds : CmpOp → Nat → Nat → Prop
  | eq, x, y => x = y
  | lt, x, y => x < y
  | le, x, y => x ≤ y

/-! ### Both ways of running code -/

namespace Instr

variable {i : Instr} {h : Halt}

/-- In both ways of running code, the instruction puts the place into the register, leaves the
store so and goes on. -/
structure Puts (i : Instr) (act : Activation) (regs : Regs) (s : Store) (dst : Reg) (c : Addr)
    (t : Store) : Prop where
  step (maxDepth : Nat) (pc : UInt32) (scope : Scope) (callers : List Caller) (depth : Nat)
    (hdepth : depth = callers.length + 1) (trace : Trace) :
    Machine.step maxDepth i ⟨⟨act, regs, pc, scope⟩, callers, depth, hdepth, s, trace⟩ =
      .more ⟨⟨act, regs.set dst c, pc + 1, scope⟩, callers, depth, hdepth, t,
        trace.emit (.instr act.func pc.toNat i.opcode)⟩
  code (runner : Exec.Runner) (following : Nat) (rest : List Instr) (place fuel : Nat)
    (trace : Trace) :
    Exec.runCode runner act following (i :: rest) place regs ⟨s, fuel + 1, trace⟩ =
      Exec.runCode runner act following rest (place + 1) (regs.set dst c) ⟨t, fuel, trace⟩

/-- In both ways of running code, the instruction stops the run where it stands, and leaves
the store as it is. -/
structure Stops (i : Instr) (act : Activation) (regs : Regs) (s : Store) (h : Halt) : Prop where
  step (maxDepth : Nat) (pc : UInt32) (scope : Scope) (callers : List Caller) (depth : Nat)
    (hdepth : depth = callers.length + 1) (trace : Trace) :
    Machine.step maxDepth i ⟨⟨act, regs, pc, scope⟩, callers, depth, hdepth, s, trace⟩ =
      .stop (h.at (some ⟨act.func, pc.toNat⟩)) s
        (trace.emit (.instr act.func pc.toNat i.opcode))
  code (runner : Exec.Runner) (following : Nat) (rest : List Instr) (place fuel : Nat)
    (trace : Trace) :
    Exec.runCode runner act following (i :: rest) place regs ⟨s, fuel + 1, trace⟩ =
      .error (h.at (some ⟨act.func, place⟩)) ⟨s, fuel, trace⟩

theorem Puts.of_exec (hi : i.exec act regs s = .ok (regs.set dst c, .next) t) :
    i.Puts act regs s dst c t where
  step _ _ _ _ _ _ _ := by
    rw [Machine.step, hi]
  code _ _ _ _ _ _ := by
    rw [Exec.runCode_cons, run_bind_of_ok (Exec.instr_of_ok hi _ _ _)]
    rfl

theorem Stops.of_exec (hi : i.exec act regs s = .error h s) : i.Stops act regs s h where
  step _ _ _ _ _ _ _ := by
    rw [Machine.step, hi]
  code _ _ _ _ _ _ := by
    rw [Exec.runCode_cons, run_bind_of_error (Exec.instr_of_error hi _ _ _)]

end Instr

/-! ### Work on two values -/

namespace Work

variable (ha : s.value? a = some (.ring bits x))
include ha

theorem arith_eq (hb : s.value? b = some (.ring bits y)) (op : ArithOp) : arith op a b s =
    match Ring.arith? op bits x y with
    | some z => (liftM (Store.ring bits z) : Work Addr) s
    | none => .error (.fault .divisionByZero) s := by
  refine (value_both ha hb).trans ?_
  dsimp only
  rw [if_neg (not_not_intro rfl)]
  cases Ring.arith? op bits x y <;> rfl

/-- A result is a value of the ring, and is only refused if there is no room for it. -/
theorem arith_of_some (hb : s.value? b = some (.ring bits y)) {op : ArithOp} {z : UInt64}
    (hz : Ring.arith? op bits x y = some z) (hv : s.Valid (.ring bits z)) :
    arith op a b s = (liftM (Store.place (.ring bits z)) : Work Addr) s := by
  rw [arith_eq ha hb, hz]
  show (liftM (Store.intern (.ring bits z)) : Work Addr) s = _
  rw [lift_eq, lift_eq, Store.intern_of_valid rfl hv]

theorem arith_of_ne (hb : s.value? b = some (.ring right y)) (hne : bits ≠ right) (op : ArithOp) :
    arith op a b s = .error (.fault (.mismatch (.ringWidth bits right))) s := by
  refine (value_both ha hb).trans ?_
  dsimp only
  rw [if_pos hne]
  rfl

/-- Values of a ring are one if their numbers are, so places are compared as numbers are. -/
theorem compare_eq (h : s.WellFormed) (hb : s.value? b = some (.ring bits y)) (op : CmpOp) :
    ∃ holds, compare op a b s = .ok holds s ∧ (holds = true ↔ op.Holds x.toNat y.toNat) := by
  cases op with
  | eq =>
    refine ⟨a == b, value_both ha hb, beq_iff_eq.trans ?_⟩
    constructor
    · rintro rfl
      cases ha.symm.trans hb
      rfl
    · intro hxy
      obtain rfl := UInt64.toNat_inj.mp hxy
      exact h.place_unique ha hb rfl
  | lt =>
    refine ⟨decide (x < y), (value_both ha hb).trans ?_, ?_⟩
    · dsimp only
      rw [if_neg (not_not_intro rfl)]
      rfl
    · exact decide_eq_true_iff.trans UInt64.lt_iff_toNat_lt
  | le =>
    refine ⟨decide (x ≤ y), (value_both ha hb).trans ?_, ?_⟩
    · dsimp only
      rw [if_neg (not_not_intro rfl)]
      rfl
    · exact decide_eq_true_iff.trans UInt64.le_iff_toNat_le

theorem compare_of_ne (hb : s.value? b = some (.ring right y)) (hne : bits ≠ right) {op : CmpOp}
    (hop : op ≠ .eq) :
    compare op a b s = .error (.fault (.mismatch (.ringWidth bits right))) s := by
  cases op with
  | eq => exact absurd rfl hop
  | _ =>
    refine (value_both ha hb).trans ?_
    dsimp only
    rw [if_pos hne]
    rfl

end Work

/-! ### Instructions -/

namespace Instr

section
variable (hra : regs[ra.toNat]? = some (some a)) (hrb : regs[rb.toNat]? = some (some b))
include hra hrb

theorem arith_puts {op : ArithOp} (h : Work.arith op a b s = .ok c t) :
    (arith op dst ra rb).Puts act regs s dst c t :=
  .of_exec (run_bind_of_ok ((Work.read_both hra hrb).trans h))

theorem arith_stops {op : ArithOp} {e : Halt} (h : Work.arith op a b s = .error e s) :
    (arith op dst ra rb).Stops act regs s e :=
  .of_exec (run_bind_of_error ((Work.read_both hra hrb).trans h))

theorem cmp_puts {op : CmpOp} {holds : Bool} (h : Work.compare op a b s = .ok holds s) :
    (cmp op dst ra rb).Puts act regs s dst (Addr.truth holds) s :=
  .of_exec (run_bind_of_ok ((Work.read_both hra hrb).trans (run_bind_of_ok h)))

theorem cmp_stops {op : CmpOp} {e : Halt} (h : Work.compare op a b s = .error e s) :
    (cmp op dst ra rb).Stops act regs s e :=
  .of_exec (run_bind_of_error ((Work.read_both hra hrb).trans (run_bind_of_error h)))

end

end Instr

/-- **Ring arithmetic is arithmetic modulo a power of two**, in both ways of running code. Of two
values of one width every operator has its result, which is a value of the ring and is stored
if there is room for it, but for quotient and remainder by zero, which are faults. Comparisons
are those of the numbers. Values of different widths are neither computed with nor put in
order, whatever their numbers are. -/
theorem Reachable.ring_arithmetic_modular {s : Store} (hs : Reachable s) {a b : Addr}
    {bits right : UInt8} {x y : UInt64} (ha : s.value? a = some (.ring bits x))
    (hb : s.value? b = some (.ring right y)) (act : Activation) (regs : Regs) (dst ra rb : Reg)
    (hra : regs[ra.toNat]? = some (some a)) (hrb : regs[rb.toNat]? = some (some b)) :
    (Ring.IsWidth bits ∧ x.toNat < 2 ^ bits.toNat) ∧
    (Ring.IsWidth right ∧ y.toNat < 2 ^ right.toNat) ∧
    (bits = right →
      (∀ op : ArithOp, op.Divides ∧ y = 0 →
        (Instr.arith op dst ra rb).Stops act regs s (.fault .divisionByZero)) ∧
      (∀ op : ArithOp, ¬(op.Divides ∧ y = 0) →
        ∃ z, Ring.IsResult op bits.toNat x.toNat y.toNat z.toNat ∧
          s.validate (.ring bits z) = .ok () ∧
          (s.HasRoom (.ring bits z) → ∃ c t, t.value? c = some (.ring bits z) ∧
            (Instr.arith op dst ra rb).Puts act regs s dst c t) ∧
          (¬s.HasRoom (.ring bits z) →
            (Instr.arith op dst ra rb).Stops act regs s (.fatal (.store .exhausted)))) ∧
      ∀ op : CmpOp, ∃ holds, (holds = true ↔ op.Holds x.toNat y.toNat) ∧
        (Instr.cmp op dst ra rb).Puts act regs s dst (Addr.truth holds) s) ∧
    (bits ≠ right →
      (∀ op, (Instr.arith op dst ra rb).Stops act regs s
        (.fault (.mismatch (.ringWidth bits right)))) ∧
      ∀ op, op ≠ .eq → (Instr.cmp op dst ra rb).Stops act regs s
        (.fault (.mismatch (.ringWidth bits right)))) := by
  have h := hs.wellFormed
  have hring {c : Addr} {bits : UInt8} {x : UInt64} (hc : s.value? c = some (.ring bits x)) :
      Ring.IsWidth bits ∧ x.toNat < 2 ^ bits.toNat :=
    (h.valid' hc).2.imp_right Ring.truncate_eq_self_iff.mp
  obtain ⟨hwidth, hx⟩ := hring ha
  refine ⟨⟨hwidth, hx⟩, hring hb, ?_, fun hne => ⟨fun op => ?_, fun op hop => ?_⟩⟩
  · rintro rfl
    refine ⟨fun op hzero => ?_, fun op hzero => ?_, fun op => ?_⟩
    · refine Instr.arith_stops hra hrb ?_
      rw [Work.arith_eq ha hb, Ring.arith?_eq_none_iff.mpr hzero]
    · obtain ⟨z, hz⟩ := Option.ne_none_iff_exists'.mp (mt Ring.arith?_eq_none_iff.mp hzero)
      have hresult := Ring.isResult_of_arith? hwidth hx hz
      have hvalid : s.Valid (.ring bits z) :=
        ⟨fun _ hc => absurd hc List.not_mem_nil, hwidth, Ring.truncate_arith? hz⟩
      have harith := Work.arith_of_some ha hb hz hvalid
      rw [Work.lift_eq] at harith
      refine ⟨z, hresult, Store.validate_eq_ok_iff.mpr hvalid, fun hroom => ?_, fun hroom => ?_⟩
      · obtain ⟨c, t, hplace, hc⟩ := (Store.place_eq_ok_iff h).mpr hroom
        rw [hplace] at harith
        exact ⟨c, t, hc, Instr.arith_puts hra hrb harith⟩
      · rw [Store.place_of_no_room hroom] at harith
        exact Instr.arith_stops hra hrb harith
    · obtain ⟨holds, hcompare, hiff⟩ := Work.compare_eq ha h hb op
      exact ⟨holds, hiff, Instr.cmp_puts hra hrb hcompare⟩
  · exact Instr.arith_stops hra hrb (Work.arith_of_ne ha hb hne op)
  · exact Instr.cmp_stops hra hrb (Work.compare_of_ne ha hb hne hop)

/-! ### Numbers -/

/-- The first store with two numbers of one width, and zero of another one. -/
def Store.withNumbers : Store :=
  { initial with
    values := ((initial.values.insert (.ring 8 200)).insert (.ring 8 100)).insert (.ring 16 0) }

theorem Reachable.withNumbers : Reachable .withNumbers := by
  have hone := Store.reachable_of_new .initial (v := .ring 8 200) rfl rfl
    (by rw [Store.initial_values.1]; decide) (by decide)
  have htwo := Store.reachable_of_new hone (v := .ring 8 100) rfl rfl
    (by rw [Interner.toList_insert, Store.initial_values.1]; decide) (by decide)
  refine Store.reachable_of_new htwo rfl rfl ?_ (by decide)
  rw [Interner.toList_insert, Interner.toList_insert, Store.initial_values.1]
  decide

/-- A sum, a comparison, and a remainder by the zero of another width. -/
theorem Reachable.ring_arithmetic_modular_numbers :
    (∃ z c t, Ring.IsResult .add 8 200 100 z.toNat ∧ t.value? c = some (.ring 8 z) ∧
      (Instr.arith .add 0 0 1).Puts .unit #[some ⟨3⟩, some ⟨4⟩, some ⟨5⟩] .withNumbers 0 c t) ∧
    (∃ holds, (holds = true ↔ 200 < 100) ∧
      (Instr.cmp .lt 0 0 1).Puts .unit #[some ⟨3⟩, some ⟨4⟩, some ⟨5⟩] .withNumbers 0
        (Addr.truth holds) .withNumbers) ∧
    (Instr.arith .rem 0 0 2).Stops .unit #[some ⟨3⟩, some ⟨4⟩, some ⟨5⟩] .withNumbers
      (.fault (.mismatch (.ringWidth 8 16))) := by
  have hx : Store.withNumbers.value? ⟨3⟩ = some (.ring 8 200) := rfl
  have hy : Store.withNumbers.value? ⟨4⟩ = some (.ring 8 100) := rfl
  have hzero : Store.withNumbers.value? ⟨5⟩ = some (.ring 16 0) := rfl
  have hsame := Reachable.ring_arithmetic_modular .withNumbers hx hy .unit
    #[some ⟨3⟩, some ⟨4⟩, some ⟨5⟩] 0 0 1 rfl rfl
  have hother := Reachable.ring_arithmetic_modular .withNumbers hx hzero .unit
    #[some ⟨3⟩, some ⟨4⟩, some ⟨5⟩] 0 0 2 rfl rfl
  obtain ⟨-, -, hwidth, -⟩ := hsame
  obtain ⟨-, hresults, hcompare⟩ := hwidth rfl
  obtain ⟨z, hz, -, hroom, -⟩ := hresults .add fun h => h.1
  obtain ⟨c, t, hc, hputs⟩ := hroom (.inr (by decide))
  exact ⟨⟨z, c, t, hz, hc, hputs⟩, hcompare .lt, (hother.2.2.2 (by decide)).1 .rem⟩

end ValueMachine
