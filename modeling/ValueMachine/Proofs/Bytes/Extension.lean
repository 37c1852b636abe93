import ValueMachine.Bytes.Record
import ValueMachine.Proofs.Computation

/-! Readers before more bytes.

A reader `Lengthens` if more bytes at the end change nothing of what it gives: it takes the
same bytes and leaves the rest. If it fails it fails before more bytes too, unless it failed
for want of them: it came to the end too early, or found a count that the bytes that are left
cannot satisfy. Every reader of records lengthens. A computation that looks at the end itself
may give something else there (`LengthensTo`). -/
namespace ValueMachine

/-- The bytes end too early, for what is read next or for a count. -/
def DecodeError.IsShort (e : DecodeError) : Prop := e = unexpectedEnd ∨ e = outOfBounds

/-- The reader with more bytes at the end. -/
def Reader.append (r : Reader) (more : List UInt8) : Reader :=
  ⟨r.offset, r.rest ++ more, r.left + more.length, by rw [List.length_append, r.left_eq]⟩

theorem Reader.ofBytes_append (bytes more : List UInt8) :
    ofBytes (bytes ++ more) = (ofBytes bytes).append more := by
  simp [ofBytes, append]

/-- Where the reader gives a value, more bytes at the end lead to an end that compares. Where
it fails but not for want of bytes, it gives no value before more bytes either. -/
def LengthensTo {ε α : Type} (short : ε → Prop)
    (V : α → Reader → List UInt8 → EStateM.Result ε Reader α → Prop)
    (read : EStateM ε Reader α) : Prop :=
  ∀ r more, Ends (read r) (fun x r' => V x r' more (read (r.append more)))
    fun e _ => short e ∨ ∀ x r', read (r.append more) ≠ .ok x r'

/-- More bytes at the end change nothing of what the reader gives. -/
abbrev Lengthens {ε α : Type} (short : ε → Prop) (read : EStateM ε Reader α) : Prop :=
  LengthensTo short (fun x r more longer => longer = .ok x (r.append more)) read

namespace LengthensTo

variable {ε α β : Type} {short : ε → Prop}
  {V : β → Reader → List UInt8 → EStateM.Result ε Reader β → Prop}

theorem pure (x : α) : Lengthens short (Pure.pure x : EStateM ε Reader α) := fun _ _ => rfl

theorem throw (e : ε) : LengthensTo short V (throwThe ε e : EStateM ε Reader β) :=
  fun _ _ => .inr fun _ _ => run_throw_ne_ok

theorem bind {read : EStateM ε Reader α} {next : α → EStateM ε Reader β}
    (h : Lengthens short read) (hn : ∀ x, LengthensTo short V (next x)) :
    LengthensTo short V (read >>= next) := by
  intro r more
  apply Ends.bind
  apply (h r more).imp
  · intro x r' hx
    rw [run_bind_of_ok hx]
    exact hn x r' more
  · intro e r' he
    apply he.imp_right
    intro hne y r'' hy
    obtain ⟨x, r', hx, -⟩ := run_bind_eq_ok_iff.mp hy
    exact hne x r' hx

theorem map {read : EStateM ε Reader α} (f : α → β) (h : Lengthens short read) :
    Lengthens short (read >>= fun x => Pure.pure (f x)) := h.bind fun x => pure (f x)

/-- What is refused for another reason is refused before more bytes too. -/
theorem otherwise {p : Prop} [Decidable p] {e : ε} {next : Unit → EStateM ε Reader β}
    (h : LengthensTo short V (next ())) :
    LengthensTo short V (if p then MonadExcept.throw e >>= next else next ()) := by
  by_cases hp : p
  · rw [if_pos hp]
    exact throw e
  · rw [if_neg hp]
    exact h

/-- A computation that goes on if enough bytes are left for what comes. -/
theorem enough {e : ε} (he : short e) (n : Nat) {next : EStateM ε Reader β}
    (h : LengthensTo short V next) :
    LengthensTo short V (get >>= fun r => if n ≤ r.left then next else MonadExcept.throw e) := by
  intro r more
  rw [run_get_bind, run_get_bind]
  by_cases hle : n ≤ r.left
  · have hmore : n ≤ (r.append more).left := Nat.le_add_right_of_le hle
    rw [if_pos hle, if_pos hmore]
    exact h r more
  · rw [if_neg hle]
    exact .inl he

theorem room {e : ε} (he : short e) (n : Nat) {next : Unit → EStateM ε Reader β}
    (h : LengthensTo short V (next ())) :
    LengthensTo short V
      (get >>= fun r => if r.left < n then MonadExcept.throw e >>= next else next ()) := by
  have heq : (fun r : Reader => if r.left < n then MonadExcept.throw e >>= next else next ()) =
      fun r => if n ≤ r.left then next () else MonadExcept.throw e := by
    funext r
    by_cases hlt : r.left < n
    · rw [if_pos hlt, if_neg (Nat.not_le.mpr hlt)]
      rfl
    · rw [if_neg hlt, if_pos (Nat.not_lt.mp hlt)]
  rw [heq]
  exact enough he n h

end LengthensTo

/-! ### Numbers and texts -/

namespace Lengthens

variable {α : Type}

open LengthensTo

theorem take (n : Nat) : Lengthens DecodeError.IsShort (Read.take n) := by
  intro r more
  unfold Read.take
  by_cases hle : n ≤ r.left
  · have hrest : n ≤ r.rest.length := r.left_eq ▸ hle
    rw [if_pos hle]
    show (if n ≤ r.left + more.length then _ else _) = _
    rw [if_pos (Nat.le_add_right_of_le hle)]
    simp [Reader.append, List.take_append_of_le_length hrest, List.drop_append_of_le_length hrest,
      Nat.sub_add_comm hle]
  · rw [if_neg hle]
    exact .inl (.inl rfl)

theorem byte : Lengthens DecodeError.IsShort Read.byte := map _ (take 1)

theorem word : Lengthens DecodeError.IsShort Read.word := map _ (take 4)

theorem long : Lengthens DecodeError.IsShort Read.long := map _ (take 8)

theorem times {read : Read α} (h : Lengthens DecodeError.IsShort read) (n : Nat) :
    Lengthens DecodeError.IsShort (Read.times n read) := by
  unfold Read.times
  induction n with
  | zero => exact pure []
  | succ n ih =>
    rw [List.replicate_succ, List.mapM_cons]
    exact h.bind fun x => ih.map _

theorem count (itemSize : Nat) : Lengthens DecodeError.IsShort (Read.count itemSize) :=
  word.bind fun _ => enough (.inr rfl) _ (pure _)

theorem words : Lengthens DecodeError.IsShort Read.words := (count 4).bind (times word)

theorem text (len : Nat) : Lengthens DecodeError.IsShort (Read.text len) := by
  apply (take len).bind
  intro bytes
  split
  · exact pure _
  · exact throw _

/-! ### Records -/

theorem shapeId : Lengthens DecodeError.IsShort Read.shapeId := word.map _

theorem funcId : Lengthens DecodeError.IsShort Read.funcId := word.map _

theorem addr : Lengthens DecodeError.IsShort Read.addr := word.map _

theorem shapeIds : Lengthens DecodeError.IsShort Read.shapeIds := words.map _

theorem addrs : Lengthens DecodeError.IsShort Read.addrs := words.map _

theorem charWidth : Lengthens DecodeError.IsShort Read.charWidth := by
  apply byte.bind
  intro tag
  split
  · exact pure _
  · exact throw _

theorem char : Lengthens DecodeError.IsShort Read.char := by
  apply word.bind
  intro code
  split
  · exact pure _
  · exact throw _

theorem shape : Lengthens DecodeError.IsShort Read.shape := by
  apply byte.bind
  intro tag
  split
  · exact pure _
  · exact pure _
  · exact byte.map _
  · exact pure _
  · exact charWidth.map _
  · exact pure _
  · exact shapeIds.map _
  · exact shapeIds.map _
  · exact shapeIds.bind fun _ => shapeId.map _
  · exact shapeId.map _
  · exact shapeId.map _
  · exact shapeId.map _
  · exact shapeId.map _
  · exact throw _

theorem value : Lengthens DecodeError.IsShort Read.value := by
  apply byte.bind
  intro tag
  split
  · exact byte.bind fun _ => long.map _
  · exact long.map _
  · exact char.map _
  · exact (count 1).bind fun len => (text len).map _
  · exact addrs.map _
  · exact shapeId.bind fun _ => word.bind fun _ => addr.map _
  · exact funcId.bind fun _ => addrs.map _
  · exact shapeId.map _
  · exact shapeId.bind fun _ => addr.bind fun _ => addr.map _
  · exact addr.map _
  · exact shapeId.bind fun _ => addr.map _
  · exact shapeId.bind fun _ => addr.map _
  · exact shapeId.bind fun _ => long.map _
  · exact throw _

theorem instr : Lengthens DecodeError.IsShort Instr.read := by
  apply byte.bind
  intro b
  split
  · exact throw _
  · next op _ =>
    apply (times word op.wordCount).bind
    intro operands
    by_cases hl : op.hasList = true
    · rw [if_pos hl]
      apply words.bind
      intro items
      dsimp only
      split
      · exact pure _
      · exact throw _
    · rw [if_neg hl, pure_bind]
      dsimp only
      split
      · exact pure _
      · exact throw _

theorem body : Lengthens DecodeError.IsShort Read.body :=
  shapeIds.bind fun _ => shapeId.bind fun _ => word.bind fun _ => (count 1).bind fun n =>
    (times instr n).map _

end Lengthens

end ValueMachine
