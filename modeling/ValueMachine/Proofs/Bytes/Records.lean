import ValueMachine.Bytes.Record
import ValueMachine.Proofs.Bytes.Reading
import ValueMachine.Proofs.Store.Verification

/-! Records are read back as they were written.

A record can be written down if its lists can be counted in 32 bits, which every
shape, value and body of a store satisfies. The number of bytes that a record is
said to take is the number that it takes. -/
namespace ValueMachine

/-! ### Identifiers -/

theorem Reads.shapeId (t : ShapeId) : Reads Read.shapeId (encodeWord t.val) t :=
  (Reads.word t.val).map ShapeId.mk

theorem Reads.funcId (f : FuncId) : Reads Read.funcId (encodeWord f.val) f :=
  (Reads.word f.val).map FuncId.mk

theorem Reads.addr (a : Addr) : Reads Read.addr (encodeWord a.val) a :=
  (Reads.word a.val).map Addr.mk

theorem Reads.shapeIds {ids : List ShapeId} (h : ids.length < 2 ^ 32) :
    Reads Read.shapeIds (encodeIds ShapeId.val ids) ids := by
  have hlt : (ids.map ShapeId.val).length < 2 ^ 32 := by rwa [List.length_map]
  have hmap := (Reads.words hlt).map (·.map ShapeId.mk)
  rwa [List.map_map, show ShapeId.mk ∘ ShapeId.val = id from rfl, List.map_id] at hmap

theorem Reads.addrs {ids : List Addr} (h : ids.length < 2 ^ 32) :
    Reads Read.addrs (encodeIds Addr.val ids) ids := by
  have hlt : (ids.map Addr.val).length < 2 ^ 32 := by rwa [List.length_map]
  have hmap := (Reads.words hlt).map (·.map Addr.mk)
  rwa [List.map_map, show Addr.mk ∘ Addr.val = id from rfl, List.map_id] at hmap

theorem Reads.charWidth (w : CharWidth) : Reads Read.charWidth [w.size] w := by
  have h : Reads Read.charWidth ([w.size] ++ []) w := (Reads.byte w.size).bind (by
    cases w <;> exact .pure _)
  exact h

theorem Reads.char (c : Char) : Reads Read.char (encodeWord c.val) c := by
  have h : Reads Read.char (encodeWord c.val ++ []) c := (Reads.word c.val).bind (by
    rw [dif_pos c.valid]
    exact .pure _)
  rwa [List.append_nil] at h

/-! ### Shapes -/

theorem Shape.length_encode (shape : Shape) : shape.encode.length = shape.encodedLength := by
  cases shape <;> simp [Shape.encode, Shape.encodeFields, Shape.encodedLength, encodeIds] <;> omega

theorem Reads.shape {known : Nat} {shape : Shape} (h : shape.Sound known) :
    Reads Read.shape shape.encode shape := by
  have hlength := h.2
  refine (Reads.byte shape.tag).bind ?_
  cases shape with
  | any => exact .pure _
  | empty => exact .pure _
  | ring bits => exact (Reads.byte bits).map Shape.ring
  | flex => exact .pure _
  | char w => exact (Reads.charWidth w).map Shape.char
  | text => exact .pure _
  | tuple items => exact (Reads.shapeIds hlength).map Shape.tuple
  | cotuple alternatives =>
    exact (Reads.shapeIds hlength.2).map fun ids => Shape.cotuple ids.toArray
  | function params result =>
    exact (Reads.shapeIds hlength).bind ((Reads.shapeId result).map (Shape.function params))
  | list t => exact (Reads.shapeId t).map Shape.list
  | identity t => exact (Reads.shapeId t).map Shape.identity
  | universal t => exact (Reads.shapeId t).map Shape.universal
  | existential t => exact (Reads.shapeId t).map Shape.existential

/-! ### Texts -/

section Texts

theorem toList_loop_eq (bytes : ByteArray) (i : Nat) (before : List UInt8) :
    ByteArray.toList.loop bytes i before = before.reverse ++ bytes.data.toList.drop i := by
  induction h : bytes.size - i generalizing i before with
  | zero =>
    have hle : bytes.data.toList.length ≤ i := by
      rw [Array.length_toList, ByteArray.size_data]
      omega
    rw [ByteArray.toList.loop, if_neg (by omega), List.drop_eq_nil_of_le hle, List.append_nil]
  | succ n ih =>
    have hi : i < bytes.data.size := by
      rw [ByteArray.size_data]
      omega
    have hget : bytes.get! i = bytes.data[i] := getElem!_pos bytes.data i hi
    have hdrop : bytes.data.toList.drop i = bytes.data[i] :: bytes.data.toList.drop (i + 1) :=
      List.drop_eq_getElem_cons (by rwa [Array.length_toList])
    rw [ByteArray.toList.loop, if_pos (by omega), ih _ _ (by omega), hget, hdrop,
      List.reverse_cons, List.append_assoc, List.singleton_append]

theorem toList_toUTF8 (s : String) : s.toUTF8.toList = s.toByteArray.data.toList := by
  unfold ByteArray.toList
  rw [toList_loop_eq]
  rfl

theorem length_toUTF8 (s : String) : s.toUTF8.toList.length = s.utf8ByteSize := by
  rw [toList_toUTF8, Array.length_toList]
  rfl

theorem fromUTF8?_toUTF8 (s : String) : String.fromUTF8? s.toUTF8.toList.toByteArray = some s := by
  have h : s.toUTF8.toList.toByteArray = s.toByteArray := by
    refine ByteArray.ext ?_
    rw [toList_toUTF8, List.data_toByteArray, Array.toArray_toList]
  rw [h]
  exact dif_pos s.isValidUTF8

theorem Reads.text (s : String) : Reads (Read.text s.utf8ByteSize) s.toUTF8.toList s := by
  have h : Reads (Read.text s.toUTF8.toList.length) (s.toUTF8.toList ++ []) s := by
    refine (Reads.take s.toUTF8.toList).bind ?_
    rw [fromUTF8?_toUTF8]
    exact .pure s
  rwa [List.append_nil, length_toUTF8] at h

end Texts

/-! ### Values -/

theorem Value.length_encode (v : Value) : v.encode.length = v.encodedLength := by
  cases v <;>
    simp [Value.encode, Value.encodeFields, Value.encodedLength, encodeIds, length_toUTF8,
      -String.toUTF8_eq_toByteArray] <;> omega

theorem Store.Valid.size_lt {s : Store} {v : Value} (h : s.Valid v) : v.size < 2 ^ 32 := by
  have h := h.2
  cases v with
  | text t => exact h
  | tuple items => exact h
  | function f captures => exact h.1
  | _ => exact Nat.two_pow_pos 32

theorem Reads.value {v : Value} (h : v.size < 2 ^ 32) : Reads Read.value v.encode v := by
  refine (Reads.byte v.tag).bind ?_
  cases v with
  | ring bits x => exact (Reads.byte bits).bind ((Reads.long x).map (Value.ring bits))
  | flex x =>
    have hx : Flex.ofBits x.bits = x := Flex.ext x.canonical
    have hmap := (Reads.long x.bits).map fun bits => Value.flex (Flex.ofBits bits)
    rwa [hx] at hmap
  | char c => exact (Reads.char c).map Value.char
  | text s =>
    have hle : s.utf8ByteSize * 1 ≤ s.toUTF8.toList.length :=
      Nat.le_of_eq ((Nat.mul_one _).trans (length_toUTF8 s).symm)
    refine Reads.counted h hle ?_
    exact (Reads.text s).map Value.text
  | tuple items => exact (Reads.addrs h).map fun ids => Value.tuple ids.toArray
  | cotuple t tag payload =>
    show Reads _ (encodeWord t.val ++ encodeWord tag ++ encodeWord payload.val) _
    rw [List.append_assoc]
    exact (Reads.shapeId t).bind ((Reads.word tag).bind
      ((Reads.addr payload).map (Value.cotuple t tag)))
  | function f captures =>
    exact (Reads.funcId f).bind ((Reads.addrs h).map fun ids => Value.function f ids.toArray)
  | nil elem => exact (Reads.shapeId elem).map Value.nil
  | cons elem head tail =>
    show Reads _ (encodeWord elem.val ++ encodeWord head.val ++ encodeWord tail.val) _
    rw [List.append_assoc]
    exact (Reads.shapeId elem).bind ((Reads.addr head).bind
      ((Reads.addr tail).map (Value.cons elem head)))
  | identity of => exact (Reads.addr of).map Value.identity
  | universal domain predicate =>
    exact (Reads.shapeId domain).bind ((Reads.addr predicate).map (Value.universal domain))
  | existential domain predicate =>
    exact (Reads.shapeId domain).bind ((Reads.addr predicate).map (Value.existential domain))
  | concrete t external =>
    exact (Reads.shapeId t).bind ((Reads.long external).map (Value.concrete t))

/-! ### Instructions and bodies -/

theorem Opcode.ofByte?_byte (op : Opcode) : Opcode.ofByte? op.byte = some op := by
  cases op with
  | arith op => cases op <;> rfl
  | cmp op => cases op <;> rfl
  | _ => rfl

theorem Instr.length_words (i : Instr) : i.words.length = i.opcode.wordCount := by
  cases i <;> rfl

theorem Instr.items_of_not_hasList {i : Instr} (h : i.opcode.hasList = false) : i.items = [] := by
  cases i <;> first | rfl | cases h

theorem Instr.length_encode (i : Instr) : i.encode.length = i.encodedLength := by
  unfold Instr.encode Instr.encodedLength
  rw [List.length_cons, List.length_append, length_flatMap_encodeWord, Instr.length_words]
  split
  · rw [length_encodeWords]
    omega
  · rw [List.length_nil]
    omega

theorem Reads.instr {i : Instr} (h : i.items.length < 2 ^ 32) : Reads Instr.read i.encode i := by
  refine (Reads.byte i.opcode.byte).bind ?_
  rw [Opcode.ofByte?_byte]
  have hwords : Reads (Read.times i.opcode.wordCount Read.word) (i.words.flatMap encodeWord)
      i.words := by
    rw [← Instr.length_words]
    exact .times fun x _ => .word x
  refine hwords.bind ?_
  by_cases hl : i.opcode.hasList = true
  · rw [if_pos hl, if_pos hl, ← List.append_nil (encodeWords i.items)]
    refine (Reads.words h).bind ?_
    dsimp only
    rw [Instr.ofOperands?_self]
    exact .pure i
  · have hself := Instr.ofOperands?_self i
    rw [Instr.items_of_not_hasList (by simpa using hl)] at hself
    rw [if_neg hl, if_neg hl]
    refine (Reads.pure []).bind ?_
    dsimp only
    rw [hself]
    exact .pure i

theorem length_flatMap_eq_totalLength {α : Type} {encode : α → List UInt8} {length : α → Nat}
    (h : ∀ x, (encode x).length = length x) (xs : List α) :
    (xs.flatMap encode).length = totalLength length xs := by
  suffices ∀ n, n + (xs.flatMap encode).length = xs.foldl (fun total x => total + length x) n by
    rw [← Nat.zero_add (xs.flatMap encode).length]
    exact this 0
  induction xs with
  | nil => exact fun _ => rfl
  | cons x xs ih =>
    intro n
    rw [List.flatMap_cons, List.length_append, h, ← Nat.add_assoc, List.foldl_cons]
    exact ih (n + length x)

theorem Body.length_encode (b : Body) : b.encode.length = b.encodedLength := by
  simp only [Body.encode, Body.encodedLength, encodeIds, encodeCode,
    length_flatMap_eq_totalLength Instr.length_encode, List.length_append, length_encodeWords,
    length_encodeWord, List.length_map]

theorem Reads.body {b : Body} {shapes : ShapeTable} {values : Nat} (h : b.Verified shapes values) :
    Reads Read.body b.encode b := by
  have hcode : Reads (Read.times b.code.size Instr.read) (encodeCode b.code.toList)
      b.code.toList := by
    rw [← Array.length_toList]
    refine .times fun i hi => .instr ?_
    obtain ⟨place, hplace⟩ := List.mem_iff_getElem?.mp hi
    exact (h.instrs place i (by simpa using hplace)).1
  have hle : b.code.size * 1 ≤ (encodeCode b.code.toList).length := by
    rw [encodeCode, ← Array.length_toList]
    exact length_mul_le_flatMap fun i _ => by simp [Instr.encode]
  show Reads _ (_ ++ _ ++ _ ++ _ ++ _) _
  simp only [List.append_assoc]
  refine (Reads.shapeIds h.arity_lt).bind ((Reads.shapeId b.result).bind
    ((Reads.word b.registers).bind ?_))
  exact Reads.counted h.size_lt hle
    (hcode.map fun code => Body.mk b.params b.result b.registers code.toArray)

end ValueMachine
