import ValueMachine.Bytes.Reader
import ValueMachine.Code.Encoding
import ValueMachine.Proofs.Computation

/-! Readers that take back what was written.

A reader `Reads` a value from bytes if, before whatever else stands behind them, it
gives the value and leaves exactly what stands behind. Such readers chain: the bytes
of the parts stand one after the other. A count is the exception, since it looks at
how much is left, so it is only read together with what it counts. -/
namespace ValueMachine

theorem LittleEndian.decode_encode (width n : Nat) : decode (encode width n) = n % 256 ^ width := by
  induction width generalizing n with
  | zero => simp [encode, decode, Nat.mod_one]
  | succ width ih =>
    simp only [encode, decode, ih]
    rw [Nat.pow_succ, Nat.mul_comm, Nat.mul_comm (256 ^ width) 256, Nat.mod_mul]
    simp [Nat.mul_comm]

/-- The reader before the given bytes, after so many others. -/
def Reader.at (offset : Nat) (rest : List UInt8) : Reader :=
  { Reader.ofBytes rest with offset := offset }

/-- The reader takes the value from the bytes, and nothing more. -/
def Reads {ε α : Type} (read : EStateM ε Reader α) (bytes : List UInt8) (x : α) : Prop :=
  ∀ offset rest, read (.at offset (bytes ++ rest)) = .ok x (.at (offset + bytes.length) rest)

namespace Reads

variable {ε α β : Type} {bytes bytes' : List UInt8}

theorem pure (x : α) : Reads (Pure.pure x : EStateM ε Reader α) [] x := fun _ _ => rfl

theorem bind {read : EStateM ε Reader α} {next : α → EStateM ε Reader β} {x : α} {y : β}
    (h : Reads read bytes x) (h' : Reads (next x) bytes' y) :
    Reads (read >>= next) (bytes ++ bytes') y := by
  intro offset rest
  refine run_bind_eq_ok_iff.mpr ⟨x, .at (offset + bytes.length) (bytes' ++ rest), ?_, ?_⟩
  · rw [List.append_assoc]
    exact h offset (bytes' ++ rest)
  · rw [List.length_append, ← Nat.add_assoc]
    exact h' _ rest

/-- The last part of a record: nothing is read after it. -/
theorem map {read : EStateM ε Reader α} {x : α} (f : α → β) (h : Reads read bytes x) :
    Reads (read >>= fun x => Pure.pure (f x)) bytes (f x) := by
  have hbind : Reads (read >>= fun x => Pure.pure (f x)) (bytes ++ []) (f x) := h.bind (pure (f x))
  rwa [List.append_nil] at hbind

theorem take (bytes : List UInt8) : Reads (Read.take bytes.length) bytes bytes := by
  intro offset rest
  have hle : bytes.length ≤ (bytes ++ rest).length := by simp
  unfold Read.take
  refine (if_pos hle).trans ?_
  simp [Reader.at, Reader.ofBytes]

theorem byte (b : UInt8) : Reads Read.byte [b] b := by
  have h : (LittleEndian.decode [b]).toUInt8 = b := by simp [LittleEndian.decode]
  have hmap := (take [b]).map fun bytes => (LittleEndian.decode bytes).toUInt8
  rwa [h] at hmap

theorem word (x : UInt32) : Reads Read.word (encodeWord x) x := by
  have h : (LittleEndian.decode (encodeWord x)).toUInt32 = x := by
    have hlt : x.toNat < 256 ^ 4 := x.toNat_lt
    rw [encodeWord, LittleEndian.decode_encode, Nat.mod_eq_of_lt hlt]
    exact UInt32.ofNat_toNat
  have hmap := (take (encodeWord x)).map fun bytes => (LittleEndian.decode bytes).toUInt32
  rwa [h, encodeWord, LittleEndian.length_encode] at hmap

theorem long (x : UInt64) : Reads Read.long (encodeLong x) x := by
  have h : (LittleEndian.decode (encodeLong x)).toUInt64 = x := by
    have hlt : x.toNat < 256 ^ 8 := x.toNat_lt
    rw [encodeLong, LittleEndian.decode_encode, Nat.mod_eq_of_lt hlt]
    exact UInt64.ofNat_toNat
  have hmap := (take (encodeLong x)).map fun bytes => (LittleEndian.decode bytes).toUInt64
  rwa [h, encodeLong, LittleEndian.length_encode] at hmap

/-- One item after the other. -/
theorem times {read : Read α} {encode : α → List UInt8} {xs : List α}
    (h : ∀ x ∈ xs, Reads read (encode x) x) :
    Reads (Read.times xs.length read) (xs.flatMap encode) xs := by
  unfold Read.times
  induction xs with
  | nil => exact pure []
  | cons x xs ih =>
    rw [List.length_cons, List.replicate_succ, List.mapM_cons, List.flatMap_cons]
    obtain ⟨hx, hxs⟩ := List.forall_mem_cons.mp h
    exact hx.bind ((ih hxs).map (x :: ·))

/-- A count of items, if enough bytes for them follow. -/
theorem count_at {itemSize n offset : Nat} {rest : List UInt8} (hn : n < 2 ^ 32)
    (hle : n * itemSize ≤ rest.length) :
    Read.count itemSize (.at offset (encodeWord n.toUInt32 ++ rest)) =
      .ok n (.at (offset + (encodeWord n.toUInt32).length) rest) := by
  have hword : n.toUInt32.toNat = n := UInt32.toNat_ofNat_of_lt' hn
  have hleft : n.toUInt32.toNat * itemSize ≤ rest.length := by rwa [hword]
  refine run_bind_eq_ok_iff.mpr ⟨n.toUInt32, _, word _ offset rest, ?_⟩
  refine run_bind_eq_ok_iff.mpr ⟨_, _, rfl, ?_⟩
  refine (congrFun (if_pos hleft) _).trans ?_
  rw [hword]
  rfl

/-- A count of items, and then something that takes at least so many bytes. -/
theorem counted {next : Nat → Read α} {itemSize n : Nat} {x : α} (hn : n < 2 ^ 32)
    (hle : n * itemSize ≤ bytes.length) (h : Reads (next n) bytes x) :
    Reads (Read.count itemSize >>= next) (encodeWord n.toUInt32 ++ bytes) x := by
  intro offset rest
  have hleft : n * itemSize ≤ (bytes ++ rest).length := by
    rw [List.length_append]
    omega
  refine run_bind_eq_ok_iff.mpr
    ⟨n, .at (offset + (encodeWord n.toUInt32).length) (bytes ++ rest), ?_, ?_⟩
  · rw [List.append_assoc]
    exact count_at hn hleft
  · rw [List.length_append, ← Nat.add_assoc]
    exact h _ rest

end Reads

/-! ### How many bytes there are -/

/-- Items that take at least so many bytes each. -/
theorem length_mul_le_flatMap {α : Type} {encode : α → List UInt8} {k : Nat} {xs : List α}
    (h : ∀ x ∈ xs, k ≤ (encode x).length) : xs.length * k ≤ (xs.flatMap encode).length := by
  induction xs with
  | nil => simp
  | cons x xs ih =>
    obtain ⟨hx, hxs⟩ := List.forall_mem_cons.mp h
    have := ih hxs
    rw [List.flatMap_cons, List.length_append, List.length_cons, Nat.succ_mul]
    omega

@[simp] theorem length_encodeWord (x : UInt32) : (encodeWord x).length = 4 :=
  LittleEndian.length_encode 4 _

@[simp] theorem length_encodeLong (x : UInt64) : (encodeLong x).length = 8 :=
  LittleEndian.length_encode 8 _

theorem length_flatMap_encodeWord (xs : List UInt32) :
    (xs.flatMap encodeWord).length = 4 * xs.length := by
  induction xs with
  | nil => rfl
  | cons x xs ih =>
    rw [List.flatMap_cons, List.length_append, length_encodeWord, ih, List.length_cons]
    omega

@[simp] theorem length_encodeWords (xs : List UInt32) :
    (encodeWords xs).length = 4 + 4 * xs.length := by
  rw [encodeWords, List.length_append, LittleEndian.length_encode, length_flatMap_encodeWord]

/-! ### Lists of numbers -/

/-- A count that fits in 32 bits. -/
theorem encodeWord_toUInt32 {n : Nat} (h : n < 2 ^ 32) :
    encodeWord n.toUInt32 = LittleEndian.encode 4 n := by
  rw [encodeWord, show n.toUInt32.toNat = n from UInt32.toNat_ofNat_of_lt' h]

theorem Reads.words {xs : List UInt32} (h : xs.length < 2 ^ 32) :
    Reads Read.words (encodeWords xs) xs := by
  have hle : xs.length * 4 ≤ (xs.flatMap encodeWord).length := by
    rw [length_flatMap_encodeWord]
    omega
  have htimes : Reads (Read.times xs.length Read.word) (xs.flatMap encodeWord) xs :=
    .times fun x _ => .word x
  have hcounted : Reads Read.words (encodeWord xs.length.toUInt32 ++ xs.flatMap encodeWord) xs :=
    .counted h hle htimes
  rwa [encodeWord_toUInt32 h] at hcounted

end ValueMachine
