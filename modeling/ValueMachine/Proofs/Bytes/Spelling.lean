import ValueMachine.Proofs.Bytes.Records

/-! What is read is what is written.

A reader `Spells` its values if the bytes that it takes are always a spelling of the value
that it gives. For shapes, instructions and bodies the only spelling is the record that is
written, so no two byte strings are read as the same one. A value may have several: the
bits of a number are taken to their canonical form (`WrittenValue`). -/
namespace ValueMachine

/-- Whatever the reader takes from the front is a spelling of the value that it gives. -/
def Spells {ε α : Type} (read : EStateM ε Reader α) (spelling : α → List UInt8 → Prop) : Prop :=
  ∀ r x r', read r = .ok x r' → ∃ bytes, spelling x bytes ∧ r.rest = bytes ++ r'.rest

theorem LittleEndian.encode_decode (bytes : List UInt8) :
    encode bytes.length (decode bytes) = bytes := by
  induction bytes with
  | nil => rfl
  | cons b rest ih =>
    have hb : b.toNat < 256 := b.toNat_lt
    have hlow : (b.toNat + 256 * decode rest).toUInt8 = b := by
      apply UInt8.toNat_inj.mp
      simp
    have hhigh : (b.toNat + 256 * decode rest) / 256 = decode rest := by omega
    simp only [List.length_cons, encode, decode, hlow, hhigh, ih]

theorem LittleEndian.decode_lt (bytes : List UInt8) : decode bytes < 256 ^ bytes.length := by
  induction bytes with
  | nil => simp [decode]
  | cons b rest ih =>
    have hb : b.toNat < 256 := b.toNat_lt
    rw [decode, List.length_cons, Nat.pow_succ]
    omega

namespace Spells

variable {ε α β : Type} {V : α → List UInt8 → Prop} {W : β → List UInt8 → Prop}

theorem imp {read : EStateM ε Reader α} {V' : α → List UInt8 → Prop} (h : Spells read V)
    (hV : ∀ x bytes, V x bytes → V' x bytes) : Spells read V' := by
  intro r x r' hr
  obtain ⟨bytes, hx, hrest⟩ := h r x r' hr
  exact ⟨bytes, hV x bytes hx, hrest⟩

theorem pure {x : α} (h : V x []) : Spells (Pure.pure x : EStateM ε Reader α) V := by
  intro r y r' hr
  cases hr
  exact ⟨[], h, rfl⟩

theorem throw (e : ε) : Spells (throwThe ε e : EStateM ε Reader α) V :=
  fun _ _ _ hr => absurd hr run_throw_ne_ok

/-- The spelling of two parts is that of the first and then that of the second. -/
theorem bind {read : EStateM ε Reader α} {next : α → EStateM ε Reader β} (h : Spells read V)
    (hn : ∀ x bytes, V x bytes → Spells (next x) fun y rest => W y (bytes ++ rest)) :
    Spells (read >>= next) W := by
  intro r y r'' hr
  obtain ⟨x, r', hx, hy⟩ := run_bind_eq_ok_iff.mp hr
  obtain ⟨first, hV, hfirst⟩ := h r x r' hx
  obtain ⟨second, hW, hsecond⟩ := hn x first hV r' y r'' hy
  exact ⟨first ++ second, hW, by rw [hfirst, hsecond, List.append_assoc]⟩

/-- The last part of a record: nothing is read after it. -/
theorem map {read : EStateM ε Reader α} {f : α → β} (h : Spells read V)
    (hf : ∀ x bytes, V x bytes → W (f x) bytes) :
    Spells (read >>= fun x => Pure.pure (f x)) W := by
  apply h.bind
  intro x bytes hx
  apply pure
  rw [List.append_nil]
  exact hf x bytes hx

/-! ### Numbers -/

theorem take (n : Nat) : Spells (Read.take n) fun x bytes => x.length = n ∧ bytes = x := by
  intro r x r' hr
  unfold Read.take at hr
  split at hr
  · next hle =>
    cases hr
    rw [r.left_eq] at hle
    exact ⟨_, ⟨List.length_take_of_le hle, rfl⟩, (List.take_append_drop n r.rest).symm⟩
  · cases hr

theorem byte : Spells Read.byte fun b bytes => bytes = [b] := by
  apply (take 1).map
  intro x bytes h
  obtain ⟨hlength, rfl⟩ := h
  obtain ⟨b, rfl⟩ := List.length_eq_one_iff.mp hlength
  simp [LittleEndian.decode]

theorem word : Spells Read.word fun x bytes => bytes = encodeWord x := by
  apply (take 4).map
  intro x bytes h
  obtain ⟨hlength, rfl⟩ := h
  have hlt : LittleEndian.decode bytes < 2 ^ 32 := by simpa [hlength] using LittleEndian.decode_lt bytes
  have hword : (LittleEndian.decode bytes).toUInt32.toNat = LittleEndian.decode bytes :=
    UInt32.toNat_ofNat_of_lt' hlt
  rw [encodeWord, hword, ← hlength, LittleEndian.encode_decode]

theorem long : Spells Read.long fun x bytes => bytes = encodeLong x := by
  apply (take 8).map
  intro x bytes h
  obtain ⟨hlength, rfl⟩ := h
  have hlt : LittleEndian.decode bytes < 2 ^ 64 := by simpa [hlength] using LittleEndian.decode_lt bytes
  have hlong : (LittleEndian.decode bytes).toUInt64.toNat = LittleEndian.decode bytes :=
    UInt64.toNat_ofNat_of_lt' hlt
  rw [encodeLong, hlong, ← hlength, LittleEndian.encode_decode]

/-- One item after the other. -/
theorem times {read : Read α} {encode : α → List UInt8}
    (h : Spells read fun x bytes => bytes = encode x) (n : Nat) :
    Spells (Read.times n read) fun xs bytes => xs.length = n ∧ bytes = xs.flatMap encode := by
  unfold Read.times
  induction n with
  | zero => exact pure ⟨rfl, rfl⟩
  | succ n ih =>
    rw [List.replicate_succ, List.mapM_cons]
    apply h.bind
    intro x first hx
    apply ih.map
    intro xs rest hxs
    obtain ⟨rfl, rfl⟩ := hxs
    simp [hx]

theorem count (itemSize : Nat) :
    Spells (Read.count itemSize) fun n bytes => n < 2 ^ 32 ∧ bytes = encodeWord n.toUInt32 := by
  apply word.bind
  intro x bytes hx r n r' hr
  obtain ⟨_, _, hget, hr⟩ := run_bind_eq_ok_iff.mp hr
  cases hget
  split at hr
  · cases hr
    exact ⟨[], ⟨x.toNat_lt, by simp [hx]⟩, rfl⟩
  · cases hr

theorem words : Spells Read.words fun xs bytes => xs.length < 2 ^ 32 ∧ bytes = encodeWords xs := by
  apply (count 4).bind
  intro n first hn
  obtain ⟨hlt, rfl⟩ := hn
  apply (word.times n).imp
  intro xs rest hxs
  obtain ⟨rfl, rfl⟩ := hxs
  exact ⟨hlt, by rw [encodeWord_toUInt32 hlt, encodeWords]⟩

/-! ### Identifiers -/

theorem shapeId : Spells Read.shapeId fun t bytes => bytes = encodeWord t.val :=
  word.map fun _ _ h => h

theorem funcId : Spells Read.funcId fun f bytes => bytes = encodeWord f.val :=
  word.map fun _ _ h => h

theorem addr : Spells Read.addr fun a bytes => bytes = encodeWord a.val :=
  word.map fun _ _ h => h

theorem shapeIds : Spells Read.shapeIds fun ids bytes => bytes = encodeIds ShapeId.val ids := by
  apply words.map
  intro xs bytes h
  simp [encodeIds, Function.comp_def, h.2]

theorem addrs : Spells Read.addrs fun ids bytes => bytes = encodeIds Addr.val ids := by
  apply words.map
  intro xs bytes h
  simp [encodeIds, Function.comp_def, h.2]

theorem charWidth : Spells Read.charWidth fun w bytes => bytes = [w.size] := by
  apply byte.bind
  intro tag bytes htag
  split
  · next w hw =>
    have hsize : w.size = tag := by simpa using List.find?_some hw
    exact pure (by simp [htag, hsize])
  · exact throw _

theorem char : Spells Read.char fun c bytes => bytes = encodeWord c.val := by
  apply word.bind
  intro code bytes hcode
  split
  · exact pure (by simp [hcode])
  · exact throw _

/-! ### Shapes -/

theorem shape : Spells Read.shape fun x bytes => bytes = x.encode := by
  apply byte.bind
  intro tag bytes htag
  subst htag
  split
  · exact pure rfl
  · exact pure rfl
  · exact byte.map fun _ _ h => congrArg (List.cons _) h
  · exact pure rfl
  · exact charWidth.map fun _ _ h => congrArg (List.cons _) h
  · exact pure rfl
  · exact shapeIds.map fun _ _ h => congrArg (List.cons _) h
  · exact shapeIds.map fun _ _ h => congrArg (List.cons _) h
  · apply shapeIds.bind
    intro params first hparams
    apply shapeId.map
    intro result second hresult
    rw [hparams, hresult]
    rfl
  · exact shapeId.map fun _ _ h => congrArg (List.cons _) h
  · exact shapeId.map fun _ _ h => congrArg (List.cons _) h
  · exact shapeId.map fun _ _ h => congrArg (List.cons _) h
  · exact shapeId.map fun _ _ h => congrArg (List.cons _) h
  · exact throw _

end Spells

/-! ### Values -/

/-- A value as it may be written: the bits of a number in any of its patterns. -/
inductive WrittenValue
  | flex (bits : UInt64)
  | plain (v : Value) (h : v.kind ≠ .flex)

namespace WrittenValue

/-- The value that is read. -/
def value : WrittenValue → Value
  | flex bits => .flex (Flex.ofBits bits)
  | plain v _ => v

/-- The record, with the bits as they are. -/
def encode : WrittenValue → List UInt8
  | flex bits => (Value.flex (Flex.ofBits bits)).tag :: encodeLong bits
  | plain v _ => v.encode

/-- The same value, with its bits in canonical form. -/
def canonical : WrittenValue → WrittenValue
  | flex bits => flex (canonicalBits bits)
  | plain v h => plain v h

theorem value_canonical (w : WrittenValue) : w.canonical.value = w.value := by
  cases w with
  | flex bits => exact congrArg Value.flex (Flex.ext (canonicalBits_idem bits))
  | plain v h => rfl

/-- What is written of a value is its canonical spelling. -/
theorem encode_canonical (w : WrittenValue) : w.canonical.encode = w.value.encode := by
  cases w <;> rfl

theorem length_encode (w : WrittenValue) : w.encode.length = w.value.encode.length := by
  cases w with
  | flex bits => simp [encode, value, Value.encode, Value.encodeFields]
  | plain v h => rfl

end WrittenValue

namespace Spells

theorem text (len : Nat) :
    Spells (Read.text len) fun s bytes => s.utf8ByteSize = len ∧ bytes = s.toUTF8.toList := by
  apply (take len).bind
  intro x bytes hx
  obtain ⟨hlength, rfl⟩ := hx
  split
  · next s hs =>
    have hbytes : s.toUTF8.toList = bytes := by
      unfold String.fromUTF8? at hs
      split at hs
      · cases hs
        rw [toList_toUTF8]
        simp [String.fromUTF8]
      · cases hs
    apply pure
    rw [← length_toUTF8, hbytes, List.append_nil]
    exact ⟨hlength, rfl⟩
  · exact throw _

/-- A number is read from any of its patterns, any other value only from its record. -/
theorem value : Spells Read.value fun v bytes => ∃ w : WrittenValue, w.value = v ∧ bytes = w.encode := by
  have plain {v : Value} {bytes : List UInt8} (hv : v.kind ≠ .flex) (h : bytes = v.encode) :
      ∃ w : WrittenValue, w.value = v ∧ bytes = w.encode := ⟨.plain v hv, rfl, h⟩
  apply byte.bind
  intro tag bytes htag
  subst htag
  split
  · apply byte.bind
    intro bits first hbits
    apply long.map
    intro x second hx
    exact plain (by simp [Value.kind]) (by simp [hbits, hx, Value.encode, Value.encodeFields, Value.tag])
  · exact long.map fun bits _ h => ⟨.flex bits, rfl, congrArg (List.cons _) h⟩
  · exact char.map fun _ _ h => plain (by simp [Value.kind]) (congrArg (List.cons _) h)
  · apply (count 1).bind
    intro len first hlen
    apply (text len).map
    intro s second hs
    exact plain (by simp [Value.kind]) (by simp [hlen.2, hs.2, ← hs.1, Value.encode, Value.encodeFields, Value.tag])
  · exact addrs.map fun _ _ h => plain (by simp [Value.kind]) (congrArg (List.cons _) h)
  · apply shapeId.bind
    intro t first ht
    apply word.bind
    intro tag second htag
    apply addr.map
    intro payload third hpayload
    exact plain (by simp [Value.kind]) (by simp [ht, htag, hpayload, Value.encode, Value.encodeFields, Value.tag])
  · apply funcId.bind
    intro f first hf
    apply addrs.map
    intro captures second hcaptures
    exact plain (by simp [Value.kind]) (by simp [hf, hcaptures, Value.encode, Value.encodeFields, Value.tag])
  · exact shapeId.map fun _ _ h => plain (by simp [Value.kind]) (congrArg (List.cons _) h)
  · apply shapeId.bind
    intro elem first helem
    apply addr.bind
    intro head second hhead
    apply addr.map
    intro tail third htail
    exact plain (by simp [Value.kind]) (by simp [helem, hhead, htail, Value.encode, Value.encodeFields, Value.tag])
  · exact addr.map fun _ _ h => plain (by simp [Value.kind]) (congrArg (List.cons _) h)
  · apply shapeId.bind
    intro domain first hdomain
    apply addr.map
    intro predicate second hpredicate
    exact plain (by simp [Value.kind]) (by simp [hdomain, hpredicate, Value.encode, Value.encodeFields, Value.tag])
  · apply shapeId.bind
    intro domain first hdomain
    apply addr.map
    intro predicate second hpredicate
    exact plain (by simp [Value.kind]) (by simp [hdomain, hpredicate, Value.encode, Value.encodeFields, Value.tag])
  · apply shapeId.bind
    intro t first ht
    apply long.map
    intro external second hexternal
    exact plain (by simp [Value.kind]) (by simp [ht, hexternal, Value.encode, Value.encodeFields, Value.tag])
  · exact throw _

end Spells

/-- Any pattern of a number is read, and only its canonical form is left of it. -/
theorem Reads.written {w : WrittenValue} (h : w.value.size < 2 ^ 32) :
    Reads Read.value w.encode w.value := by
  cases w with
  | flex bits =>
    exact (Reads.byte _).bind ((Reads.long bits).map fun bits => Value.flex (Flex.ofBits bits))
  | plain v hv => exact Reads.value h

/-- Values are written in one way among others. -/
theorem WrittenValue.exists_records (xs : List Value) : ∃ records : List WrittenValue,
    records.map value = xs ∧ records.flatMap encode = xs.flatMap Value.encode := by
  induction xs with
  | nil => exact ⟨[], rfl, rfl⟩
  | cons v xs ih =>
    obtain ⟨records, hvalues, hbytes⟩ := ih
    obtain ⟨w, rfl, hw⟩ : ∃ w : WrittenValue, w.value = v ∧ w.encode = v.encode := by
      by_cases hv : v.kind = .flex
      · cases v with
        | flex x => exact ⟨flex x.bits, congrArg Value.flex (Flex.ext x.canonical), rfl⟩
        | _ => cases hv
      · exact ⟨plain v hv, rfl, rfl⟩
    exact ⟨w :: records, by simp [hvalues], by simp [hw, hbytes]⟩

/-! ### Instructions and bodies -/

theorem Opcode.byte_of_ofByte? {b : UInt8} {op : Opcode} (h : ofByte? b = some op) : op.byte = b := by
  simpa using List.find?_some h

/-- The operands of an instruction are those that it was put together from. -/
theorem Instr.of_ofOperands? {op : Opcode} {words items : List UInt32} {i : Instr}
    (h : ofOperands? op words items = some i) :
    i.opcode = op ∧ i.words = words ∧ i.items = items := by
  -- No opcode has more than four words.
  rcases words with _ | ⟨_, _ | ⟨_, _ | ⟨_, _ | ⟨_, _ | _⟩⟩⟩⟩
  all_goals cases items <;> cases op <;> cases h <;> exact ⟨rfl, rfl, rfl⟩

theorem Instr.encode_of_ofOperands? {b : UInt8} {op : Opcode} {words items : List UInt32} {i : Instr}
    (hop : Opcode.ofByte? b = some op) (h : ofOperands? op words items = some i) :
    i.encode = b :: (words.flatMap encodeWord ++ if op.hasList then encodeWords items else []) := by
  obtain ⟨rfl, rfl, rfl⟩ := of_ofOperands? h
  rw [encode, Opcode.byte_of_ofByte? hop]

namespace Spells

theorem instr : Spells Instr.read fun i bytes => i.items.length < 2 ^ 32 ∧ bytes = i.encode := by
  apply byte.bind
  intro b first hb
  subst hb
  split
  · exact throw _
  · next op hop =>
    apply (word.times op.wordCount).bind
    intro words second hwords
    by_cases hl : op.hasList = true
    · rw [if_pos hl]
      apply Spells.words.bind
      intro items third hitems
      dsimp only
      split
      · next i hi =>
        apply pure
        rw [Instr.encode_of_ofOperands? hop hi, if_pos hl, hwords.2, hitems.2]
        exact ⟨(Instr.of_ofOperands? hi).2.2 ▸ hitems.1, by simp⟩
      · exact throw _
    · rw [if_neg hl, pure_bind]
      dsimp only
      split
      · next i hi =>
        apply pure
        rw [Instr.encode_of_ofOperands? hop hi, if_neg hl, hwords.2, (Instr.of_ofOperands? hi).2.2]
        simp
      · exact throw _

theorem body : Spells Read.body fun b bytes => bytes = b.encode := by
  apply shapeIds.bind
  intro params first hparams
  apply shapeId.bind
  intro result second hresult
  apply word.bind
  intro registers third hregisters
  apply (count 1).bind
  intro n fourth hn
  have hinstr : Spells Instr.read fun i bytes => bytes = i.encode := instr.imp fun _ _ h => h.2
  apply (hinstr.times n).map
  intro code fifth hcode
  obtain ⟨rfl, rfl⟩ := hcode
  simp [Body.encode, encodeCode, hparams, hresult, hregisters, hn.2]

end Spells

end ValueMachine
