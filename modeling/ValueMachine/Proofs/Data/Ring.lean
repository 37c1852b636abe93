import Mathlib.Data.Int.ModEq
import ValueMachine.Data.Ring

/-! Ring arithmetic is arithmetic modulo a power of two.

Numbers are computed on 64 bits and cut back to the width. The power of two that belongs to
a width divides that of 64 bits, so nothing that counts is lost by either
(`isResult_of_arith?`). -/
namespace ValueMachine

/-- Quotient and remainder, which there are none of by zero. -/
def ArithOp.Divides : ArithOp → Prop
  | div | rem => True
  | add | sub | mul => False

namespace Ring

variable {op : ArithOp} {bits : UInt8} {x y z : UInt64}

/-! ### Cutting back -/

/-- What the values of a ring stay below. -/
theorem toNat_modulus (h : bits.toNat < 64) :
    (1 <<< bits.toUInt64 : UInt64).toNat = 2 ^ bits.toNat := by
  rw [UInt64.toNat_shiftLeft, UInt8.toNat_toUInt64, Nat.mod_eq_of_lt h, UInt64.toNat_one,
    Nat.one_shiftLeft, Nat.mod_eq_of_lt (Nat.pow_lt_pow_right (by decide) h)]

theorem toNat_truncate (bits : UInt8) (x : UInt64) :
    (truncate bits x).toNat = x.toNat % 2 ^ bits.toNat := by
  unfold truncate
  by_cases h : 64 ≤ bits
  · have hpow : 2 ^ 64 ≤ 2 ^ bits.toNat :=
      Nat.pow_le_pow_right (by decide) (UInt8.le_iff_toNat_le.mp h)
    rw [if_pos h, Nat.mod_eq_of_lt (Nat.lt_of_lt_of_le x.toNat_lt hpow)]
  · rw [if_neg h, UInt64.toNat_mod,
      toNat_modulus (Nat.lt_of_not_le fun hle => h (UInt8.le_iff_toNat_le.mpr hle))]

theorem truncate_eq_self_iff : truncate bits x = x ↔ x.toNat < 2 ^ bits.toNat := by
  rw [← UInt64.toNat_inj, toNat_truncate, Nat.mod_eq_iff_lt (Nat.two_pow_pos _).ne']

theorem truncate_truncate (bits : UInt8) (x : UInt64) :
    truncate bits (truncate bits x) = truncate bits x :=
  UInt64.toNat_inj.mp (by simp only [toNat_truncate, Nat.mod_mod])

/-- What is congruent at 64 bits is congruent at every width. -/
theorem modEq_truncate (hw : IsWidth bits) {n : Int} (h : (x.toNat : Int) ≡ n [ZMOD 2 ^ 64]) :
    ((truncate bits x).toNat : Int) ≡ n [ZMOD 2 ^ bits.toNat] := by
  have hdvd : (2 ^ bits.toNat : Int) ∣ 2 ^ 64 := pow_dvd_pow 2 (UInt8.le_iff_toNat_le.mp hw.2)
  rw [toNat_truncate]
  push_cast
  exact (Int.mod_modEq _ _).trans (h.of_dvd hdvd)

/-! ### Arithmetic on 64 bits -/

theorem toNat_add_modEq (x y : UInt64) :
    ((x + y).toNat : Int) ≡ x.toNat + y.toNat [ZMOD 2 ^ 64] := by
  rw [UInt64.toNat_add]
  push_cast
  exact Int.mod_modEq _ _

theorem toNat_mul_modEq (x y : UInt64) :
    ((x * y).toNat : Int) ≡ x.toNat * y.toNat [ZMOD 2 ^ 64] := by
  rw [UInt64.toNat_mul]
  push_cast
  exact Int.mod_modEq _ _

theorem toNat_sub_modEq (x y : UInt64) :
    ((x - y).toNat : Int) ≡ x.toNat - y.toNat [ZMOD 2 ^ 64] := by
  have hback : ((x - y).toNat : Int) + y.toNat ≡ x.toNat [ZMOD 2 ^ 64] := by
    have h := toNat_add_modEq (x - y) y
    rw [UInt64.sub_add_cancel] at h
    exact h.symm
  simpa using hback.sub_right (y.toNat : Int)

/-! ### Results -/

/-- What an operator makes of two numbers that are below the power of two: one that is again,
congruent to sum, difference and product, and exactly quotient and remainder. -/
def IsResult (op : ArithOp) (n x y z : Nat) : Prop :=
  z < 2 ^ n ∧
  match op with
  | .add => (z : Int) ≡ x + y [ZMOD 2 ^ n]
  | .sub => (z : Int) ≡ x - y [ZMOD 2 ^ n]
  | .mul => (z : Int) ≡ x * y [ZMOD 2 ^ n]
  | .div => ∃ r < y, x = z * y + r
  | .rem => z < y ∧ ∃ q, x = q * y + z

theorem arith?_eq_none_iff : arith? op bits x y = none ↔ op.Divides ∧ y = 0 := by
  cases op <;> simp [arith?, ArithOp.Divides]

theorem truncate_arith? (h : arith? op bits x y = some z) : truncate bits z = z := by
  cases op <;> simp only [arith?, Option.ite_none_left_eq_some, Option.some.injEq] at h
  all_goals first | rw [← h] | rw [← h.2]
  all_goals exact truncate_truncate _ _

/-- Quotient and remainder need no cutting back. -/
theorem toNat_truncate_of_le (hx : x.toNat < 2 ^ bits.toNat) (h : z.toNat ≤ x.toNat) :
    (truncate bits z).toNat = z.toNat := by
  rw [truncate_eq_self_iff.mpr (Nat.lt_of_le_of_lt h hx)]

theorem isResult_of_arith? (hw : IsWidth bits) (hx : x.toNat < 2 ^ bits.toNat)
    (h : arith? op bits x y = some z) : IsResult op bits.toNat x.toNat y.toNat z.toNat := by
  refine ⟨truncate_eq_self_iff.mp (truncate_arith? h), ?_⟩
  have hpos {y : UInt64} (hy : ¬y = 0) : 0 < y.toNat :=
    Nat.pos_of_ne_zero fun h0 => hy (UInt64.toNat_inj.mp h0)
  cases op with
  | add =>
    cases h
    exact modEq_truncate hw (toNat_add_modEq x y)
  | sub =>
    cases h
    exact modEq_truncate hw (toNat_sub_modEq x y)
  | mul =>
    cases h
    exact modEq_truncate hw (toNat_mul_modEq x y)
  | div =>
    obtain ⟨hy, ⟨⟩⟩ := Option.ite_none_left_eq_some.mp h
    have hdiv : (truncate bits (x / y)).toNat = x.toNat / y.toNat := by
      rw [toNat_truncate_of_le hx, UInt64.toNat_div]
      exact UInt64.toNat_div x y ▸ Nat.div_le_self _ _
    refine ⟨x.toNat % y.toNat, Nat.mod_lt _ (hpos hy), ?_⟩
    rw [hdiv, Nat.div_add_mod']
  | rem =>
    obtain ⟨hy, ⟨⟩⟩ := Option.ite_none_left_eq_some.mp h
    have hmod : (truncate bits (x % y)).toNat = x.toNat % y.toNat := by
      rw [toNat_truncate_of_le hx, UInt64.toNat_mod]
      exact UInt64.toNat_mod x y ▸ Nat.mod_le _ _
    rw [hmod]
    exact ⟨Nat.mod_lt _ (hpos hy), x.toNat / y.toNat, (Nat.div_add_mod' _ _).symm⟩

end Ring

end ValueMachine
