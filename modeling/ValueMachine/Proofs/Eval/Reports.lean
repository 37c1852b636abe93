import Mathlib.Data.Nat.Digits.Defs
import ValueMachine.Eval.Fault

/-! The text of a fault is short.

A report is put together from a few words and numbers. The numbers are names, which
have 32 bits, and counts. As long as no count takes more than 64 bits (`Bounded`), the
text is far below the length that a store accepts (`Fault.report_size_lt`). -/
namespace ValueMachine

/-! ### Counts -/

/-- The counts that a complaint tells. -/
def Mismatch.counts : Mismatch → List Nat
  | arity expected actual => [expected, actual]
  | tagOutOfRange _ n | indexOutOfRange _ n | argOutOfRange _ n | jumpOutOfRange n _ | tooLong n =>
    [n]
  | _ => []

/-- No count of the complaint takes more than 64 bits. -/
def Mismatch.Bounded (m : Mismatch) : Prop := ∀ n ∈ m.counts, n < UInt64.size

def Dangling.Bounded (d : Dangling) : Prop := d.size < UInt64.size

def Fault.Bounded : Fault → Prop
  | mismatch m => m.Bounded
  | dangling d => d.Bounded
  | _ => True

/-! ### Lengths -/

theorem utf8ByteSize_le (s : String) : s.utf8ByteSize ≤ 4 * s.length := by
  obtain ⟨l, rfl⟩ : ∃ l, s = String.ofList l := ⟨s.toList, String.ofList_toList.symm⟩
  induction l with
  | nil => simp
  | cons c l ih =>
    have hc := c.utf8Size_le_four
    rw [String.ofList_cons, String.utf8ByteSize_append, String.length_append,
      String.utf8ByteSize_singleton, String.length_singleton]
    omega

theorem digits_length {n : Nat} (h : n < UInt64.size) : (Nat.toDigits 10 n).length ≤ 20 :=
  Nat.toDigits_length 10 n 20 (by decide) (Nat.lt_trans h (by decide))

theorem UInt32.digits_length (n : UInt32) : (Nat.toDigits 10 n.toNat).length ≤ 20 := by
  exact ValueMachine.digits_length (Nat.lt_trans n.toNat_lt (by decide))

theorem Kind.label_length (k : Kind) : k.label.toList.length ≤ 11 := by
  cases k <;> decide

theorem Addr.label_length (a : Addr) : a.label.toList.length ≤ 21 := by
  have := UInt32.digits_length a.val
  simp [label, index]
  omega

theorem ShapeId.label_length (t : ShapeId) : t.label.toList.length ≤ 21 := by
  have := UInt32.digits_length t.val
  simp [label, index]
  omega

theorem FuncId.label_length (f : FuncId) : f.label.toList.length ≤ 21 := by
  have := UInt32.digits_length f.val
  simp [label, index]
  omega

theorem Mismatch.message_length {m : Mismatch} (h : m.Bounded) : m.message.toList.length ≤ 100 := by
  have hcount (n : Nat) (hn : n ∈ m.counts) : (Nat.toDigits 10 n).length ≤ 20 :=
    digits_length (h n hn)
  unfold message
  cases m with
  | kind expected actual =>
    have := expected.label_length
    have := actual.label_length
    simp
    omega
  | ringWidth left right =>
    have := digits_length (Nat.lt_trans left.toNat_lt (by decide))
    have := digits_length (Nat.lt_trans right.toNat_lt (by decide))
    simp
    omega
  | ringRange bits value =>
    have := digits_length (Nat.lt_trans bits.toNat_lt (by decide))
    have := digits_length value.toNat_lt
    simp
    omega
  | arity expected actual =>
    have := hcount expected (by simp [counts])
    have := hcount actual (by simp [counts])
    simp
    omega
  | tagOutOfRange tag n =>
    have := UInt32.digits_length tag
    have := hcount n (by simp [counts])
    simp
    omega
  | indexOutOfRange index n =>
    have := UInt32.digits_length index
    have := hcount n (by simp [counts])
    simp
    omega
  | nonconforming a t =>
    have := a.label_length
    have := t.label_length
    simp
    omega
  | shapeKind t expected =>
    have := t.label_length
    have := expected.label_length
    simp
    omega
  | listElem expected actual =>
    have := expected.label_length
    have := actual.label_length
    simp
    omega
  | predicate a t =>
    have := a.label_length
    have := t.label_length
    simp
    omega
  | notEqual a b =>
    have := a.label_length
    have := b.label_length
    simp
    omega
  | unknownShape t =>
    have := t.label_length
    simp
    omega
  | unknownFunction f =>
    have := f.label_length
    simp
    omega
  | argOutOfRange index n =>
    have := UInt32.digits_length index
    have := hcount n (by simp [counts])
    simp
    omega
  | regOutOfRange reg n =>
    have := UInt32.digits_length reg
    have := UInt32.digits_length n
    simp
    omega
  | jumpOutOfRange place target =>
    have := hcount place (by simp [counts])
    have := UInt32.digits_length target
    simp
    omega
  | tooLong n =>
    have := hcount n (by simp [counts])
    simp
    omega
  | emptyBody | missingTerminator | emptyCotuple => simp

theorem Fault.message_length {f : Fault} (h : f.Bounded) : f.message.toList.length ≤ 120 := by
  unfold message
  cases f with
  | mismatch m =>
    have := Mismatch.message_length h
    simp
    omega
  | dangling d =>
    have := d.addr.label_length
    have := digits_length h
    simp [Dangling.message]
    omega
  | uninitialized reg =>
    have := UInt32.digits_length reg
    simp
    omega
  | trap code =>
    have := UInt32.digits_length code
    simp
    omega
  | divisionByZero | emptyList | callDepth => simp

/-- The report of a fault can be stored as a text. -/
theorem Fault.report_size_lt {f : Fault} {site : Option Site} (h : f.Bounded)
    (hsite : ∀ x ∈ site, x.place < UInt64.size) : (f.report site).utf8ByteSize < 2 ^ 32 := by
  have hmessage := message_length h
  have hlength : (f.report site).toList.length ≤ 200 := by
    cases site with
    | none =>
      simp [report]
      omega
    | some site =>
      have := site.func.label_length
      have := digits_length (hsite site rfl)
      simp [report]
      omega
  have := utf8ByteSize_le (f.report site)
  rw [← String.length_toList] at this
  omega

end ValueMachine
