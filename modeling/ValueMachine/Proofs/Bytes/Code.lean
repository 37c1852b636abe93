import Mathlib.Algebra.GroupWithZero.Nat
import ValueMachine.Proofs.Bytes.Spelling

/-! Code and its bytes.

Instructions are read one after the other until no byte is left. What was written of a list
of instructions is read back as that list, and what is read of any bytes is written as
those bytes, so code and the bytes that are accepted stand for each other one to one
(`code_bytes_bijection`). -/
namespace ValueMachine

/-- The operands of the instruction can be counted in 32 bits. -/
def Instr.Short (i : Instr) : Prop := i.items.length < 2 ^ 32

instance (i : Instr) : Decidable i.Short := inferInstanceAs (Decidable (_ < _))

namespace Instr

theorem encode_pos (i : Instr) : 0 < i.encode.length := by simp [encode]

/-- A written list of instructions is read before whatever else stands behind it. -/
theorem readAll_append {c : List Instr} (h : ∀ i ∈ c, i.Short) (n : Nat) (code : Array Instr)
    (offset : Nat) (rest : List UInt8) :
    readAll (c.length + n) code (.at offset (encodeCode c ++ rest)) =
      readAll n (code ++ c.toArray) (.at (offset + (encodeCode c).length) rest) := by
  induction c generalizing code offset with
  | nil => simp [encodeCode]
  | cons i c ih =>
    obtain ⟨hi, hc⟩ := List.forall_mem_cons.mp h
    have hbytes : encodeCode (i :: c) ++ rest = i.encode ++ (encodeCode c ++ rest) :=
      List.append_assoc _ _ _
    have hpos := i.encode_pos
    have hleft : (i.encode ++ (encodeCode c ++ rest)).length ≠ 0 := by
      rw [List.length_append]
      omega
    have hread := Reads.instr hi offset (encodeCode c ++ rest)
    have hrest := ih hc (code.push i) (offset + i.encode.length)
    rw [hbytes, List.length_cons, Nat.add_right_comm, readAll, run_get_bind]
    refine (congrFun (if_neg hleft) _).trans ?_
    rw [run_bind_of_ok hread, hrest]
    simp [encodeCode, Nat.add_assoc]

/-- A written list of instructions is read to its end. -/
theorem readAll_encodeCode {c : List Instr} (h : ∀ i ∈ c, i.Short) {n : Nat} (hn : c.length ≤ n)
    (code : Array Instr) (offset : Nat) :
    ∃ r, readAll n code (.at offset (encodeCode c)) = .ok (code ++ c.toArray) r := by
  have hread := readAll_append h (n - c.length) code offset []
  rw [Nat.add_sub_of_le hn, List.append_nil] at hread
  rw [hread]
  cases n - c.length with
  | zero => exact ⟨_, rfl⟩
  | succ n => exact ⟨_, rfl⟩

/-- What is read of any bytes is written as those bytes. -/
theorem spells_of_readAll {n : Nat} {code out : Array Instr} {r r' : Reader}
    (h : readAll n code r = .ok out r') (hn : r.rest.length ≤ n) :
    ∃ c : List Instr, out = code ++ c.toArray ∧ (∀ i ∈ c, i.Short) ∧ r.rest = encodeCode c := by
  induction n generalizing code r with
  | zero =>
    cases h
    exact ⟨[], by simp, by simp, by simpa [encodeCode] using hn⟩
  | succ n ih =>
    rw [readAll] at h
    obtain ⟨_, _, hget, h⟩ := run_bind_eq_ok_iff.mp h
    cases hget
    by_cases hleft : r.left = 0
    · have hrest : r.rest = [] := List.eq_nil_of_length_eq_zero (r.left_eq.symm.trans hleft)
      rw [if_pos hleft] at h
      cases h
      exact ⟨[], by simp, by simp, hrest⟩
    · rw [if_neg hleft] at h
      obtain ⟨i, next, hi, h⟩ := run_bind_eq_ok_iff.mp h
      obtain ⟨bytes, ⟨hshort, rfl⟩, hrest⟩ := Spells.instr r i next hi
      have hpos := i.encode_pos
      have hle : next.rest.length ≤ n := by
        rw [hrest, List.length_append] at hn
        omega
      obtain ⟨c, rfl, hc, hnext⟩ := ih h hle
      refine ⟨i :: c, by simp, List.forall_mem_cons.mpr ⟨hshort, hc⟩, ?_⟩
      rw [hrest, hnext]
      rfl

end Instr

theorem length_encodeCode (c : List Instr) :
    (encodeCode c).length = (c.map Instr.encodedLength).sum := by
  simp [encodeCode, List.length_flatMap, Instr.length_encode]

theorem decodeCode_encodeCode {c : List Instr} (h : ∀ i ∈ c, i.Short) :
    decodeCode (encodeCode c) = .ok c.toArray := by
  have hle : c.length ≤ (encodeCode c).length := by
    have hlength : c.length * 1 ≤ (c.flatMap Instr.encode).length :=
      length_mul_le_flatMap fun i _ => i.encode_pos
    rwa [Nat.mul_one] at hlength
  obtain ⟨r, hr⟩ := Instr.readAll_encodeCode h hle #[] 0
  unfold decodeCode
  rw [show Reader.ofBytes (encodeCode c) = .at 0 (encodeCode c) from rfl, hr]
  simp

theorem encodeCode_of_decodeCode {bytes : List UInt8} {c : Array Instr}
    (h : decodeCode bytes = .ok c) : (∀ i ∈ c.toList, i.Short) ∧ encodeCode c.toList = bytes := by
  unfold decodeCode at h
  split at h
  · next out r hr =>
    cases h
    obtain ⟨c, rfl, hc, hbytes⟩ := Instr.spells_of_readAll hr (Nat.le_refl _)
    simpa using ⟨hc, hbytes.symm⟩
  · cases h

/-- **Code and the bytes that are accepted stand for each other one to one.** Instructions whose
operands can be counted are read back as they were written, each from as many bytes as it is
said to take, whatever stands behind them. Whatever bytes are read are those that are written
of what is read. -/
theorem code_bytes_bijection :
    (∀ c : List Instr, (∀ i ∈ c, i.Short) → decodeCode (encodeCode c) = .ok c.toArray ∧
      (encodeCode c).length = (c.map Instr.encodedLength).sum) ∧
    (∀ (bytes : List UInt8) (c : Array Instr), decodeCode bytes = .ok c →
      (∀ i ∈ c.toList, i.Short) ∧ encodeCode c.toList = bytes) ∧
    ∀ (i : Instr) (offset : Nat) (rest : List UInt8), i.Short →
      Instr.read (.at offset (i.encode ++ rest)) = .ok i (.at (offset + i.encodedLength) rest) := by
  refine ⟨fun c hc => ⟨decodeCode_encodeCode hc, length_encodeCode c⟩,
    fun bytes c h => encodeCode_of_decodeCode h, fun i offset rest hi => ?_⟩
  rw [Reads.instr hi offset rest, i.length_encode]

/-- A call and a return, and the call before a byte that is no instruction. -/
theorem code_bytes_bijection_call :
    decodeCode [0x51, 0, 0, 0, 0, 1, 0, 0, 0, 2, 0, 0, 0, 2, 0, 0, 0, 3, 0, 0, 0, 0x58, 0, 0, 0, 0] =
      .ok #[.call 0 1 [2, 3], .ret 0] ∧
    encodeCode [.call 0 1 [2, 3], .ret 0] =
      [0x51, 0, 0, 0, 0, 1, 0, 0, 0, 2, 0, 0, 0, 2, 0, 0, 0, 3, 0, 0, 0, 0x58, 0, 0, 0, 0] ∧
    Instr.read (.at 7 ((Instr.call 0 1 [2, 3]).encode ++ [0xff])) =
      .ok (.call 0 1 [2, 3]) (.at 28 [0xff]) := by
  have hread := (code_bytes_bijection.1 [.call 0 1 [2, 3], .ret 0] (by decide)).1
  have hwritten := (code_bytes_bijection.2.1 _ _ hread).2
  exact ⟨hread, hwritten, code_bytes_bijection.2.2 (.call 0 1 [2, 3]) 7 [0xff] (by decide)⟩

end ValueMachine
