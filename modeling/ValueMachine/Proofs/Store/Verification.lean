import ValueMachine.Proofs.Store.Validity
import ValueMachine.Store.Register

/-! Which function bodies a store accepts, and that it goes on accepting them.

`Body.verify` accepts exactly the bodies that are `Verified`: every register,
argument, constant, shape and branch target that an instruction names is there, and
control cannot run past the last instruction. -/
namespace ValueMachine

/-- What `Body.verify` asks of an instruction. -/
def Instr.Verified (b : Body) (shapes : ShapeTable) (values : Nat) (i : Instr) : Prop :=
  i.items.length < 2 ^ 32 ∧ (∀ r ∈ i.regs, r < b.registers) ∧
  (∀ target ∈ i.targets, target.toNat < b.code.size) ∧
  match i with
  | .arg _ index => index.toNat < b.arity
  | .const _ addr => addr.index < values
  | .cotupleNew _ t tag _ => ∃ alternatives,
      shapes.get? t.index = some (.cotuple alternatives) ∧ tag.toNat < alternatives.size
  | .nil _ elem => elem.index < shapes.size
  | _ => True

/-- What `Body.verify` asks of a body. -/
structure Body.Verified (b : Body) (shapes : ShapeTable) (values : Nat) : Prop where
  arity_lt : b.params.length < 2 ^ 32
  size_lt : b.code.size < 2 ^ 32
  params : ∀ t ∈ b.params, t.index < shapes.size
  result : b.result.index < shapes.size
  last : ∃ i, b.code.back? = some i ∧ i.isTerminator = true
  instrs : ∀ (place : Nat) i, b.code[place]? = some i → i.Verified b shapes values

theorem Body.verifyInstr_eq_ok_iff {b : Body} {shapes : ShapeTable} {values place : Nat} {i : Instr} :
    b.verifyInstr shapes values place i = .ok () ↔ i.Verified b shapes values := by
  unfold Body.verifyInstr Instr.Verified
  simp only [bind_eq_ok_iff, exists_unit_iff]
  refine and_congr lift_checkLength_eq_ok_iff ?_
  -- Each search for an operand out of range either stops everything or finds nothing.
  cases hr : i.regs.find? (b.registers ≤ ·) with
  | some r =>
    have hle : b.registers ≤ r := by simpa using List.find?_some hr
    refine iff_of_false (fun h => by cases h) fun h => ?_
    exact absurd (h.1 r (List.mem_of_find?_eq_some hr)) (UInt32.not_lt.mpr hle)
  | none =>
    have hregs : ∀ r ∈ i.regs, r < b.registers := by simpa using hr
    rw [and_iff_right hregs]
    cases ht : i.targets.find? (b.code.size ≤ ·.toNat) with
    | some target =>
      have hle : b.code.size ≤ target.toNat := by simpa using List.find?_some ht
      refine iff_of_false (fun h => by cases h) fun h => ?_
      exact absurd (h.1 target (List.mem_of_find?_eq_some ht)) (Nat.not_lt.mpr hle)
    | none =>
      have htargets : ∀ target ∈ i.targets, target.toNat < b.code.size := by simpa using ht
      rw [and_iff_right htargets]
      cases i with
      | arg dst index => exact guard_eq_ok_iff
      | const dst addr => exact guard_eq_ok_iff
      | cotupleNew dst t tag payload =>
        simp only [bind_eq_ok_iff]
        exact exists_congr fun alternatives =>
          and_congr (ShapeTable.lift_alternatives_eq_ok_iff) guard_eq_ok_iff
      | nil dst elem =>
        simp only [discard_eq_ok_iff]
        exact ShapeTable.lift_lookup_known_iff
      | _ => exact ⟨fun _ => trivial, fun _ => rfl⟩

theorem Body.verify_eq_ok_iff {b : Body} {shapes : ShapeTable} {values : Nat} :
    b.verify shapes values = .ok () ↔ b.Verified shapes values := by
  unfold Body.verify
  simp only [bind_eq_ok_iff, exists_unit_iff, forM_eq_ok_iff, discard_eq_ok_iff]
  simp only [ShapeTable.lift_lookup_known_iff, lift_checkLength_eq_ok_iff]
  constructor
  · rintro ⟨harity, hsize, hparams, hresult, h⟩
    split at h
    · cases h
    · next last hlast =>
      split at h
      · next hterm =>
        refine ⟨harity, hsize, hparams, hresult, ⟨last, hlast, hterm⟩, fun place i hi => ?_⟩
        have hmem : (i, place) ∈ b.code.toList.zipIdx :=
          List.mem_zipIdx_iff_getElem?.mpr (by simpa using hi)
        exact verifyInstr_eq_ok_iff.mp (forM_eq_ok_iff.mp h _ hmem)
      · cases h
  · rintro ⟨harity, hsize, hparams, hresult, ⟨last, hlast, hterm⟩, hinstrs⟩
    refine ⟨harity, hsize, hparams, hresult, ?_⟩
    rw [hlast]
    show (ite _ _ _ = _)
    rw [if_pos hterm]
    refine forM_eq_ok_iff.mpr fun ⟨i, place⟩ hmem => ?_
    have hi : b.code[place]? = some i := by
      simpa using List.mem_zipIdx_iff_getElem?.mp hmem
    exact verifyInstr_eq_ok_iff.mpr (hinstrs place i hi)

namespace Body.Verified

variable {b : Body} {shapes : ShapeTable} {values : Nat} (h : b.Verified shapes values)
include h

/-- Verified code has a first instruction. -/
theorem code_pos : 0 < b.code.size := by
  obtain ⟨i, hi, -⟩ := h.last
  rw [Array.back?_eq_getElem?] at hi
  obtain ⟨hlt, -⟩ := Array.getElem?_eq_some_iff.mp hi
  omega

/-- Control does not run past the last instruction. -/
theorem next_lt {place : Nat} {i : Instr} (hi : b.code[place]? = some i)
    (ht : i.isTerminator = false) : place + 1 < b.code.size := by
  obtain ⟨hlt, -⟩ := Array.getElem?_eq_some_iff.mp hi
  by_contra hge
  obtain ⟨last, hlast, hterm⟩ := h.last
  rw [Array.back?_eq_getElem?, show b.code.size - 1 = place by omega, hi] at hlast
  cases hlast
  rw [ht] at hterm
  cases hterm

end Body.Verified

theorem Instr.Verified.mono {b : Body} {shapes shapes' : ShapeTable} {values values' : Nat}
    {i : Instr} (h : i.Verified b shapes values) (hs : shapes.Extends shapes')
    (hv : values ≤ values') : i.Verified b shapes' values' := by
  refine ⟨h.1, h.2.1, h.2.2.1, ?_⟩
  have h := h.2.2.2
  cases i with
  | const dst addr => exact Nat.lt_of_lt_of_le h hv
  | cotupleNew dst t tag payload => exact h.imp fun _ ha => ⟨hs _ _ ha.1, ha.2⟩
  | nil dst elem => exact Nat.lt_of_lt_of_le h hs.size_le
  | _ => exact h

theorem Body.Verified.mono {b : Body} {shapes shapes' : ShapeTable} {values values' : Nat}
    (h : b.Verified shapes values) (hs : shapes.Extends shapes') (hv : values ≤ values') :
    b.Verified shapes' values' :=
  ⟨h.arity_lt, h.size_lt, fun t ht => Nat.lt_of_lt_of_le (h.params t ht) hs.size_le,
    Nat.lt_of_lt_of_le h.result hs.size_le, h.last,
    fun place i hi => (h.instrs place i hi).mono hs hv⟩

end ValueMachine
