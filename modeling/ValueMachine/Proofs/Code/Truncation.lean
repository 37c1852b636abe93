import ValueMachine.Proofs.Bytes.Code
import ValueMachine.Proofs.Bytes.Extension

/-! Code that is cut off.

A reader that is given only the first of the bytes that it takes fails, and how many there are
decides with which error (`Starves`). An instruction that is cut off ends too early, unless the
cut lies behind the count of its list of operands: then the count is more than what is left
can hold. So bytes that are cut from code are never taken for other code (`cut_code_safe`). -/
namespace ValueMachine

/-- Before some of the bytes, but not all of them, the reader fails with the error that belongs
to their number. -/
def Starves {ε α : Type} (read : EStateM ε Reader α) (bytes : List UInt8) (e : Nat → ε) : Prop :=
  ∀ offset part more, bytes = part ++ more → more ≠ [] →
    ∃ r, read (.at offset part) = .error (e part.length) r

namespace Starves

variable {ε α β : Type} {bytes bytes' : List UInt8}

theorem nil (read : EStateM ε Reader α) (e : Nat → ε) : Starves read [] e := by
  intro _ part more h hmore
  exact absurd (List.append_eq_nil_iff.mp h.symm).2 hmore

/-- The cut lies in the first part, or in the second behind the whole of the first. -/
theorem bind {read : EStateM ε Reader α} {next : α → EStateM ε Reader β} {x : α} {e : Nat → ε}
    (hr : Reads read bytes x) (h : Starves read bytes e)
    (hn : Starves (next x) bytes' fun n => e (bytes.length + n)) :
    Starves (read >>= next) (bytes ++ bytes') e := by
  intro offset part more hsplit hmore
  rcases List.append_eq_append_iff.mp hsplit with ⟨inner, rfl, hrest⟩ | ⟨inner, hfirst, hrest⟩
  · obtain ⟨r, hfail⟩ := hn (offset + bytes.length) inner more hrest hmore
    refine ⟨r, ?_⟩
    rw [run_bind_of_ok (hr offset inner), hfail, List.length_append]
  · by_cases hinner : inner = []
    · -- All of the first part is there, and nothing of the second.
      subst hinner
      rw [List.append_nil] at hfirst
      obtain ⟨r, hfail⟩ := hn (offset + bytes.length) [] bytes' rfl
        (by rintro rfl; exact hmore hrest)
      refine ⟨r, ?_⟩
      have hread := hr offset []
      rw [List.append_nil] at hread
      rw [← hfirst, run_bind_of_ok hread, hfail]
      rfl
    · obtain ⟨r, hfail⟩ := h offset part inner hfirst hinner
      exact ⟨r, run_bind_of_error hfail⟩

/-- The last part of a record: nothing is read after it. -/
theorem map {read : EStateM ε Reader α} {e : Nat → ε} (f : α → β) (h : Starves read bytes e) :
    Starves (read >>= fun x => Pure.pure (f x)) bytes e := by
  intro offset part more hsplit hmore
  obtain ⟨r, hfail⟩ := h offset part more hsplit hmore
  exact ⟨r, run_bind_of_error hfail⟩

variable {e : Nat → DecodeError}

theorem take (bytes : List UInt8) (he : ∀ n < bytes.length, e n = .unexpectedEnd) :
    Starves (Read.take bytes.length) bytes e := by
  intro offset part more hsplit hmore
  have hlt : part.length < bytes.length := by
    rw [hsplit, List.length_append]
    exact Nat.lt_add_of_pos_right (List.length_pos_iff.mpr hmore)
  refine ⟨.at offset part, ?_⟩
  unfold Read.take
  rw [he _ hlt]
  exact if_neg (Nat.not_le.mpr hlt)

theorem byte (b : UInt8) (he : e 0 = .unexpectedEnd) : Starves Read.byte [b] e :=
  (take [b] fun n hn => by rw [Nat.lt_one_iff.mp hn, he]).map _

theorem word (x : UInt32) (he : ∀ n < 4, e n = .unexpectedEnd) :
    Starves Read.word (encodeWord x) e := by
  have h := take (encodeWord x) (e := e) (by rwa [length_encodeWord])
  rw [length_encodeWord] at h
  exact h.map _

/-- One number after the other. -/
theorem words (xs : List UInt32) (he : ∀ n < 4 * xs.length, e n = .unexpectedEnd) :
    Starves (Read.times xs.length Read.word) (xs.flatMap encodeWord) e := by
  unfold Read.times
  induction xs generalizing e with
  | nil => exact nil _ e
  | cons x xs ih =>
    rw [List.length_cons] at he
    rw [List.length_cons, List.replicate_succ, List.mapM_cons, List.flatMap_cons]
    refine bind (.word x) (word x fun n hn => he n (by omega)) ?_
    rw [length_encodeWord]
    exact (ih fun n hn => he (4 + n) (by omega)).map _

/-- A list with its length in front. Once the length is read, there must be enough bytes. -/
theorem list {xs : List UInt32} (hxs : xs.length < 2 ^ 32) (he : ∀ n < 4, e n = .unexpectedEnd)
    (he' : ∀ n, 4 ≤ n → e n = .outOfBounds) : Starves Read.words (encodeWords xs) e := by
  have hcount : Starves (Read.count 4)
      (encodeWord xs.length.toUInt32 ++ xs.flatMap encodeWord) e := by
    refine bind (.word _) (word _ he) ?_
    intro offset part more hsplit hmore
    refine ⟨.at offset part, ?_⟩
    have hshort : ¬ xs.length.toUInt32.toNat * 4 ≤ (Reader.at offset part).left := by
      have hn : xs.length.toUInt32.toNat = xs.length := UInt32.toNat_ofNat_of_lt' hxs
      have hleft : (Reader.at offset part).left = part.length := rfl
      have hlength := congrArg List.length hsplit
      have hpos := List.length_pos_iff.mpr hmore
      rw [length_flatMap_encodeWord, List.length_append] at hlength
      omega
    have hfour : 4 ≤ (encodeWord xs.length.toUInt32).length + part.length := by
      rw [length_encodeWord]
      exact Nat.le_add_right 4 _
    rw [run_get_bind]
    refine (congrFun (if_neg hshort) _).trans ?_
    show _ = EStateM.Result.error (e _) _
    rw [he' _ hfour]
    rfl
  intro offset part more hsplit hmore
  rw [encodeWords, ← encodeWord_toUInt32 hxs] at hsplit
  obtain ⟨r, hfail⟩ := hcount offset part more hsplit hmore
  exact ⟨r, run_bind_of_error hfail⟩

end Starves

namespace Instr

/-- Why an instruction of which so many bytes are left cannot be read: the count of its list
of operands is there, and behind it there is not enough; or it ends before that. -/
def cutError (i : Instr) (n : Nat) : DecodeError :=
  if 1 + 4 * i.opcode.wordCount + 4 ≤ n then .outOfBounds else .unexpectedEnd

theorem cutError_isShort (i : Instr) (n : Nat) : (i.cutError n).IsShort := by
  unfold cutError
  split
  · exact .inr rfl
  · exact .inl rfl

theorem read_starves {i : Instr} (h : i.Short) : Starves read i.encode i.cutError := by
  have hearly (n : Nat) (hn : n < 1 + 4 * i.opcode.wordCount + 4) :
      i.cutError n = .unexpectedEnd := if_neg (Nat.not_le.mpr hn)
  refine Starves.bind (.byte i.opcode.byte) (.byte _ (hearly 0 (by omega))) ?_
  rw [Opcode.ofByte?_byte]
  have hwords : Reads (Read.times i.opcode.wordCount Read.word) (i.words.flatMap encodeWord)
      i.words := by
    rw [← i.length_words]
    exact .times fun x _ => .word x
  have hstarves := Starves.words i.words (e := fun n => i.cutError (1 + n))
    fun n hn => hearly (1 + n) (by rw [i.length_words] at hn; omega)
  rw [i.length_words] at hstarves
  refine .bind hwords hstarves ?_
  -- What is behind the single operands is the list, if there is one.
  have hlength : [i.opcode.byte].length + (i.words.flatMap encodeWord).length =
      1 + 4 * i.opcode.wordCount := by
    rw [List.length_singleton, length_flatMap_encodeWord, i.length_words]
  simp only [← Nat.add_assoc, hlength]
  by_cases hl : i.opcode.hasList = true
  · rw [if_pos hl, if_pos hl, ← List.append_nil (encodeWords i.items)]
    exact .bind (.words h)
      (.list h (fun n hn => hearly _ (Nat.add_lt_add_left hn _))
        fun n hn => if_pos (Nat.add_le_add_left hn _))
      (.nil _ _)
  · rw [if_neg hl, if_neg hl]
    exact .nil _ _

end Instr

/-- Whatever is cut from code ends before an instruction, or inside one. -/
theorem cut_of_prefix {c : List Instr} {cut more : List UInt8} (h : encodeCode c = cut ++ more)
    (hmore : more ≠ []) : ∃ before i after part, c = before ++ i :: after ∧
      cut = encodeCode before ++ part ∧ ∃ rest, i.encode = part ++ rest ∧ rest ≠ [] := by
  induction c generalizing cut with
  | nil => exact absurd (List.append_eq_nil_iff.mp h.symm).2 hmore
  | cons i c ih =>
    have hcons : i.encode ++ encodeCode c = cut ++ more := h
    rcases List.append_eq_append_iff.mp hcons with ⟨inner, rfl, hrest⟩ | ⟨inner, hfirst, -⟩
    · obtain ⟨before, j, after, part, rfl, rfl, hpart⟩ := ih hrest
      exact ⟨i :: before, j, after, part, rfl, (List.append_assoc _ _ _).symm, hpart⟩
    · by_cases hinner : inner = []
      · -- The cut lies behind this instruction, and before the next one.
        subst hinner
        rw [List.append_nil] at hfirst
        have hrest : encodeCode c = [] ++ more := by
          rw [hfirst] at hcons
          exact List.append_cancel_left hcons
        obtain ⟨before, j, after, part, rfl, hpart, hj⟩ := ih hrest
        refine ⟨i :: before, j, after, part, rfl, ?_, hj⟩
        rw [← hfirst, ← List.append_nil i.encode, hpart]
        exact (List.append_assoc _ _ _).symm
      · exact ⟨[], i, c, cut, rfl, rfl, inner, hfirst, hinner⟩

/-- Bytes that end inside an instruction fail where that instruction is read. -/
theorem decodeCode_cut {before : List Instr} (hc : ∀ i ∈ before, i.Short) {i : Instr} (hi : i.Short)
    {part rest : List UInt8} (h : i.encode = part ++ rest) (hrest : rest ≠ []) (hpart : part ≠ []) :
    decodeCode (encodeCode before ++ part) = .error (i.cutError part.length) := by
  have hle : before.length ≤ (encodeCode before).length := by
    have hlength : before.length * 1 ≤ (before.flatMap Instr.encode).length :=
      length_mul_le_flatMap fun i _ => i.encode_pos
    rwa [Nat.mul_one] at hlength
  have hpos := List.length_pos_iff.mpr hpart
  -- So much is left to read at most, once the instructions before the cut are read.
  obtain ⟨n, hn⟩ : ∃ n, (encodeCode before ++ part).length = before.length + (n + 1) := by
    refine ⟨(encodeCode before ++ part).length - before.length - 1, ?_⟩
    rw [List.length_append]
    omega
  have hleft : part.length ≠ 0 := Nat.pos_iff_ne_zero.mp hpos
  obtain ⟨r, hfail⟩ := Instr.read_starves hi (0 + (encodeCode before).length) part rest h hrest
  have hread : Instr.readAll (encodeCode before ++ part).length #[]
      (Reader.ofBytes (encodeCode before ++ part)) = .error (i.cutError part.length) r := by
    have hstart : Reader.ofBytes (encodeCode before ++ part) =
        .at 0 (encodeCode before ++ part) := rfl
    rw [hstart, hn, Instr.readAll_append hc, Instr.readAll, run_get_bind]
    refine (congrFun (if_neg hleft) _).trans ?_
    exact run_bind_of_error hfail
  unfold decodeCode
  rw [hread]

/-- **Code that is cut off is never taken for other code.** If the cut lies between two
instructions, those before it are read. Otherwise nothing is read, and the error tells of bytes
that are missing: of the list of the instruction that is cut if its count is there, and of the
instruction itself if not. Hence an opcode is never unknown, and no instruction is read that
does not stand in the code at its place. -/
theorem cut_code_safe {c : List Instr} (hc : ∀ i ∈ c, i.Short) {cut : List UInt8}
    (h : cut <+: encodeCode c) (hne : cut ≠ encodeCode c) :
    ((∃ before, before <+: c ∧ cut = encodeCode before ∧ decodeCode cut = .ok before.toArray) ∨
      ∃ before i part, before ++ [i] <+: c ∧ cut = encodeCode before ++ part ∧ part ≠ [] ∧
        part <+: i.encode ∧ part ≠ i.encode ∧ decodeCode cut = .error (i.cutError part.length)) ∧
    (∀ code, decodeCode cut = .ok code → code.toList <+: c) ∧
    ∀ e, decodeCode cut = .error e → e = .unexpectedEnd ∨ e = .outOfBounds := by
  obtain ⟨more, hmore⟩ := h
  have hleft : more ≠ [] := fun he => hne (by rw [← hmore, he, List.append_nil])
  obtain ⟨before, i, after, part, rfl, rfl, rest, hi, hrest⟩ := cut_of_prefix hmore.symm hleft
  obtain ⟨hbefore, hshort, -⟩ : (∀ j ∈ before, j.Short) ∧ i.Short ∧ ∀ j ∈ after, j.Short := by
    simpa only [List.forall_mem_append, List.forall_mem_cons] using hc
  by_cases hpart : part = []
  · subst hpart
    rw [List.append_nil]
    have hread := decodeCode_encodeCode hbefore
    have hstands : before <+: before ++ i :: after := List.prefix_append _ _
    refine ⟨.inl ⟨before, hstands, rfl, hread⟩, ?_, ?_⟩
    · intro code hcode
      cases hread.symm.trans hcode
      exact hstands
    · intro e he
      cases hread.symm.trans he
  · have hread := decodeCode_cut hbefore hshort hi hrest hpart
    have hstands : before ++ [i] <+: before ++ i :: after := ⟨after, by simp⟩
    have hproper : part ≠ i.encode := by
      intro he
      rw [← he] at hi
      exact hrest (List.self_eq_append_right.mp hi)
    refine ⟨.inr ⟨before, i, part, hstands, rfl, hpart, ⟨rest, hi.symm⟩, hproper, hread⟩, ?_, ?_⟩
    · intro code hcode
      cases hread.symm.trans hcode
    · intro e he
      cases hread.symm.trans he
      exact i.cutError_isShort part.length

/-- A call that is cut off behind the first of its two arguments. -/
theorem cut_code_safe_call :
    (∀ i ∈ [Instr.call 0 1 [2, 3], .ret 0], i.Short) ∧
    (encodeCode [.call 0 1 [2, 3], .ret 0]).take 17 <+: encodeCode [.call 0 1 [2, 3], .ret 0] ∧
    (encodeCode [.call 0 1 [2, 3], .ret 0]).take 17 ≠ encodeCode [.call 0 1 [2, 3], .ret 0] ∧
    ∃ e, decodeCode ((encodeCode [.call 0 1 [2, 3], .ret 0]).take 17) = .error e ∧
      (e = .unexpectedEnd ∨ e = .outOfBounds) := by
  have hc : ∀ i ∈ [Instr.call 0 1 [2, 3], .ret 0], i.Short := by decide
  have hprefix := List.take_prefix 17 (encodeCode [.call 0 1 [2, 3], .ret 0])
  have hne : (encodeCode [.call 0 1 [2, 3], .ret 0]).take 17 ≠
      encodeCode [.call 0 1 [2, 3], .ret 0] := by decide
  have hread : decodeCode ((encodeCode [.call 0 1 [2, 3], .ret 0]).take 17) =
      .error .outOfBounds := rfl
  exact ⟨hc, hprefix, hne, _, hread, (cut_code_safe hc hprefix hne).2.2 _ hread⟩

end ValueMachine
