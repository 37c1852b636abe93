import ValueMachine.Proofs.Bytes.Spelling
import ValueMachine.Proofs.Operation

/-! Saved stores are loaded as they were.

The snapshot of a well-formed store passes every check of a load: its tables come
back entry by entry, with the same entries in the same places. The tables differ in
nothing that can be asked of them, so every lookup has the same answer (`Same`). Bytes
that were never saved may be loaded too, but nothing unsound comes of it
(`load_sound`). -/
namespace ValueMachine

/-- The stores have the same entries at the same places, and find them by their content
at the same places. -/
structure Store.Same (s t : Store) : Prop where
  values : s.values.toList = t.values.toList
  shapes : s.shapes.toList = t.shapes.toList
  functions : s.functions = t.functions
  find : ∀ v, s.find? v = t.find? v
  findShape : ∀ x, s.shapes.find? x = t.shapes.find? x

namespace Snapshot

/-! ### Tables -/

/-- No entry of a sort is in the list twice. -/
def Distinct {α : Type} (xs : List α) (sort : α → Bool) : Prop :=
  ∀ (i j : Nat) (x : α), xs[i]? = some x → xs[j]? = some x → sort x = true → i = j

theorem distinct_toList {α : Type} [BEq α] [Hashable α] {t : Interner α} {sort : α → Bool}
    (hi : t.Indexed sort) : Distinct t.toList sort := by
  intro i j x hx hy hs
  rw [← Interner.get?_eq_toList] at hx hy
  exact hi.injective hx hy hs

/-- What comes behind the entries of a table, and is not in it twice, is new to it. -/
theorem find?_eq_none {α : Type} [BEq α] [Hashable α] {t : Interner α} {sort : α → Bool}
    {x : α} {xs : List α} (hi : t.Indexed sort) (hd : Distinct (t.toList ++ x :: xs) sort)
    (hx : sort x = true) : t.find? x = none := by
  cases hf : t.find? x with
  | none => rfl
  | some i =>
    have hget := ((hi x i).mp hf).1
    have hbefore := Interner.lt_size hget
    rw [Interner.get?_eq_toList] at hget
    rw [Interner.size_eq_length] at hbefore
    have := hd i t.toList.length x (by rwa [List.getElem?_append_left hbefore]) (by simp) hx
    omega

/-- Shapes are read back behind those before them. -/
theorem loadShapes_reads {xs : List Shape} {shapes : ShapeTable}
    (hi : shapes.Indexed fun _ => true) (hd : Distinct (shapes.toList ++ xs) fun _ => true)
    (hs : ∀ (i : Nat) (x : Shape), xs[i]? = some x → x.Sound (shapes.size + i)) :
    ∃ out, Reads (loadShapes xs.length shapes) (xs.flatMap Shape.encode) out ∧
      out.toList = shapes.toList ++ xs := by
  induction xs generalizing shapes with
  | nil => exact ⟨shapes, .pure shapes, (List.append_nil _).symm⟩
  | cons x xs ih =>
    have hnew : Interner.find? shapes x = none := find?_eq_none hi hd rfl
    have hsound : x.Sound shapes.size := hs 0 x rfl
    obtain ⟨out, hout, hlist⟩ := ih (Interner.indexed_insert hi hnew rfl)
      (by rwa [Interner.toList_insert, List.append_assoc])
      (by
        intro i y hy
        have := hs (i + 1) y hy
        rwa [Interner.size_insert, Nat.add_right_comm])
    refine ⟨out, fun offset rest => ?_, ?_⟩
    · refine loadShapes_succ_iff.mpr ⟨x,
        .at (offset + x.encode.length) (xs.flatMap Shape.encode ++ rest), ?_, hnew, hsound, ?_⟩
      · rw [List.flatMap_cons, List.append_assoc]
        exact Reads.shape hsound _ _
      · rw [List.flatMap_cons, List.length_append, ← Nat.add_assoc]
        exact hout _ rest
    · rw [hlist, Interner.toList_insert, List.append_assoc]
      rfl

/-- Values are read back behind those before them, however they are spelled. -/
theorem loadValues_reads {shapes : ShapeTable} {functions : Nat} {records : List WrittenValue}
    {values : Interner Value} (hi : values.Indexed Value.isAbstract)
    (hlt : values.size + records.length < 2 ^ 32)
    (hd : Distinct (values.toList ++ records.map WrittenValue.value) Value.isAbstract)
    (hv : ∀ (i : Nat) (v : Value), (records.map WrittenValue.value)[i]? = some v →
      NamesKnown shapes.size functions (values.size + i) v ∧ v.size < 2 ^ 32) :
    ∃ out, Reads (loadValues shapes functions records.length values)
      (records.flatMap WrittenValue.encode) out ∧
      out.toList = values.toList ++ records.map WrittenValue.value := by
  induction records generalizing values with
  | nil => exact ⟨values, .pure values, (List.append_nil _).symm⟩
  | cons w records ih =>
    rw [List.length_cons] at hlt
    have hnew (ha : w.value.isAbstract = true) : values.find? w.value = none :=
      find?_eq_none hi hd ha
    obtain ⟨hnames, hsize⟩ := hv 0 w.value rfl
    have hnsize := Interner.size_add Value.isAbstract values w.value
    obtain ⟨out, hout, hlist⟩ := ih (Interner.indexed_add hi hnew) (by omega)
      (by
        rw [Interner.toList_add, List.append_assoc]
        exact hd)
      (by
        intro i v hv'
        have := hv (i + 1) v hv'
        rwa [hnsize, Nat.add_right_comm])
    refine ⟨out, fun offset rest => ?_, ?_⟩
    · refine loadValues_succ_iff.mpr ⟨w.value,
        .at (offset + w.encode.length) (records.flatMap WrittenValue.encode ++ rest), ?_, ?_, hnew, ?_⟩
      · rw [List.flatMap_cons, List.append_assoc]
        exact Reads.written hsize _ _
      · rw [Addr.index_ofIndex (by omega)]
        exact hnames
      · rw [List.flatMap_cons, List.length_append, ← Nat.add_assoc]
        exact hout _ rest
    · rw [hlist, Interner.toList_add, List.append_assoc]
      rfl

/-- Bodies are read back behind those before them. -/
theorem loadBodies_reads {shapes : ShapeTable} {values : Nat} {bs : List Body} {bodies : Array Body}
    (hb : ∀ b ∈ bs, b.Verified shapes values) :
    Reads (loadBodies shapes values bs.length bodies) (bs.flatMap Body.encode)
      (bodies ++ bs.toArray) := by
  induction bs generalizing bodies with
  | nil =>
    rw [show bodies ++ [].toArray = bodies from Array.append_empty]
    exact .pure bodies
  | cons b bs ih =>
    obtain ⟨hverified, hbs⟩ := List.forall_mem_cons.mp hb
    have hout : bodies ++ (b :: bs).toArray = bodies.push b ++ bs.toArray := by
      rw [← Array.toList_inj]
      simp
    intro offset rest
    refine loadBodies_succ_iff.mpr ⟨b,
      .at (offset + b.encode.length) (bs.flatMap Body.encode ++ rest), ?_, hverified, ?_⟩
    · rw [List.flatMap_cons, List.append_assoc]
      exact Reads.body hverified _ _
    · rw [List.flatMap_cons, List.length_append, ← Nat.add_assoc, hout]
      exact ih hbs _ rest

/-! ### Whole stores -/

theorem minValueLength_le (w : WrittenValue) : minValueLength ≤ w.encode.length := by
  rw [w.length_encode, Value.length_encode]
  unfold minValueLength Value.encodedLength
  cases w.value <;> dsimp only <;> omega

theorem minBodyLength_le (b : Body) : minBodyLength ≤ b.encode.length := by
  rw [Body.length_encode]
  unfold minBodyLength Body.encodedLength
  omega

/-- The snapshot of a store, its values spelled like this. -/
def spell (s : Store) (records : List WrittenValue) : List UInt8 :=
  magic ++ encodeWord version ++ encodeWord s.size.toUInt32 ++
    encodeWord s.functions.size.toUInt32 ++ encodeWord s.shapes.size.toUInt32 ++
    s.shapes.toList.flatMap Shape.encode ++ records.flatMap WrittenValue.encode ++
    s.functions.toList.flatMap Body.encode

/-- A snapshot has the length that is told without making it. -/
theorem length_save (s : Store) : (save s).length = size s := by
  simp only [save, size, List.length_append, length_encodeWord,
    length_flatMap_eq_totalLength Shape.length_encode,
    length_flatMap_eq_totalLength Value.length_encode,
    length_flatMap_eq_totalLength Body.length_encode]

theorem namesKnown {s : Store} (h : s.WellFormed) {a : Addr} {v : Value} (hv : s.value? a = some v) :
    NamesKnown s.shapes.size s.functions.size a.index v := by
  refine ⟨h.children a v hv, fun t ht => h.named a v hv t ht, ?_⟩
  rintro f captures rfl
  obtain ⟨-, -, b, hb⟩ := h.valid' hv
  exact (Array.getElem?_eq_some_iff.mp hb).1

section Tables
variable {s : Store} (h : s.WellFormed)
include h

theorem loadShapes_save : ∃ out, out.toList = s.shapes.toList ∧
    Reads (loadShapes s.shapes.size .empty) (s.shapes.toList.flatMap Shape.encode) out := by
  have hsound (i : Nat) (x : Shape) (hx : s.shapes.toList[i]? = some x) :
      x.Sound ((Interner.empty : ShapeTable).size + i) := by
    rw [← Interner.get?_eq_toList] at hx
    rw [show (Interner.empty : ShapeTable).size = 0 from rfl, Nat.zero_add]
    exact h.shapes.sound i x hx
  rw [Interner.size_eq_length]
  obtain ⟨out, hout, hlist⟩ :=
    loadShapes_reads Interner.indexed_empty (distinct_toList h.shapes.indexed) hsound
  exact ⟨out, hlist, hout⟩

theorem loadValues_spell {shapes : ShapeTable} (hs : shapes.size = s.shapes.size)
    {records : List WrittenValue} (hr : records.map WrittenValue.value = s.values.toList) :
    ∃ out, out.toList = s.values.toList ∧ Reads (loadValues shapes s.functions.size s.size .empty)
      (records.flatMap WrittenValue.encode) out := by
  have hsize : s.size = records.length := by
    rw [Store.size, Interner.size_eq_length, ← hr, List.length_map]
  have hlt : s.size < 2 ^ 32 := Nat.lt_succ_of_le h.bounded
  have hzero : (Interner.empty : Interner Value).size = 0 := rfl
  have hvalue (i : Nat) (v : Value) (hget : (records.map WrittenValue.value)[i]? = some v) :
      NamesKnown shapes.size s.functions.size ((Interner.empty : Interner Value).size + i) v ∧
        v.size < 2 ^ 32 := by
    rw [hr, ← Interner.get?_eq_toList] at hget
    rw [hzero, Nat.zero_add]
    have hi : (Addr.ofIndex i).index = i := Addr.index_ofIndex (h.index_lt (Interner.lt_size hget))
    have hget : s.value? (Addr.ofIndex i) = some v := by
      rw [← hi] at hget
      exact hget
    have hnames := namesKnown h hget
    rw [hi] at hnames
    exact ⟨hs ▸ hnames, (h.valid' hget).size_lt⟩
  have hroom : (Interner.empty : Interner Value).size + records.length < 2 ^ 32 := by
    rw [hzero, ← hsize, Nat.zero_add]
    exact hlt
  have hd : Distinct ([] ++ records.map WrittenValue.value) Value.isAbstract := by
    rw [hr]
    exact distinct_toList h.indexed
  rw [hsize]
  obtain ⟨out, hout, hlist⟩ := loadValues_reads Interner.indexed_empty hroom hd hvalue
  exact ⟨out, hlist.trans hr, hout⟩

theorem loadBodies_save {shapes : ShapeTable} {values : Nat} (hs : s.shapes.Extends shapes)
    (hv : s.size ≤ values) : Reads (loadBodies shapes values s.functions.size #[])
      (s.functions.toList.flatMap Body.encode) s.functions := by
  have hreads : Reads (loadBodies shapes values s.functions.toList.length #[])
      (s.functions.toList.flatMap Body.encode) (#[] ++ s.functions.toList.toArray) := by
    refine loadBodies_reads fun b hb => ?_
    obtain ⟨i, hi⟩ := List.mem_iff_getElem?.mp hb
    exact (Body.verify_eq_ok_iff.mp (h.verified i b (by simpa using hi))).mono hs hv
  simpa using hreads

/-- The tables of a snapshot are read back to its end. -/
theorem loadTables_spell (hs : s.shapes.size < 2 ^ 32) (hf : s.functions.size < 2 ^ 32)
    {records : List WrittenValue} (hr : records.map WrittenValue.value = s.values.toList) :
    ∃ t r, loadTables (Reader.ofBytes (spell s records)) = .ok t r ∧
      t.values.toList = s.values.toList ∧ t.shapes.toList = s.shapes.toList ∧
      t.functions = s.functions := by
  have hv : s.size < 2 ^ 32 := Nat.lt_succ_of_le h.bounded
  obtain ⟨shapes, hsl, hshapes⟩ := loadShapes_save h
  have hssize : shapes.size = s.shapes.size := by
    rw [Interner.size_eq_length, hsl, ← Interner.size_eq_length]
  obtain ⟨values, hvl, hvalues⟩ := loadValues_spell h hssize hr
  have hvsize : values.size = s.size := by
    rw [Interner.size_eq_length, hvl, ← Interner.size_eq_length]
    rfl
  have hext : s.shapes.Extends shapes := by
    intro i x hx
    rwa [Interner.get?_eq_toList, hsl, ← Interner.get?_eq_toList]
  have hbodies := loadBodies_save h hext (Nat.le_of_eq hvsize.symm)
  -- The header, and what the counts in it ask for.
  have hsplit : spell s records = magic ++ (encodeWord version ++ (encodeWord s.size.toUInt32 ++
      (encodeWord s.functions.size.toUInt32 ++ (encodeWord s.shapes.size.toUInt32 ++
      (s.shapes.toList.flatMap Shape.encode ++ (records.flatMap WrittenValue.encode ++
      (s.functions.toList.flatMap Body.encode ++ []))))))) := by
    simp only [spell, List.append_assoc, List.append_nil]
  have hvcount : s.size.toUInt32.toNat = s.size := UInt32.toNat_ofNat_of_lt' hv
  have hfcount : s.functions.size.toUInt32.toNat = s.functions.size := UInt32.toNat_ofNat_of_lt' hf
  have hsbytes : s.shapes.size * 1 ≤ (s.shapes.toList.flatMap Shape.encode).length := by
    rw [Interner.size_eq_length]
    exact length_mul_le_flatMap fun x _ => by simp [Shape.encode]
  have hvbytes : s.size * minValueLength ≤ (records.flatMap WrittenValue.encode).length := by
    rw [Store.size, Interner.size_eq_length, ← hr, List.length_map]
    exact length_mul_le_flatMap fun w _ => minValueLength_le w
  have hfbytes : s.functions.size * minBodyLength ≤
      (s.functions.toList.flatMap Body.encode).length := by
    rw [← Array.length_toList]
    exact length_mul_le_flatMap fun b _ => minBodyLength_le b
  rw [← hvcount, ← hfcount] at hvalues
  rw [← hfcount] at hbodies
  refine ⟨⟨values, shapes, s.functions⟩, ?_⟩
  rw [show Reader.ofBytes (spell s records) = .at 0 (spell s records) from rfl, hsplit]
  refine ⟨_, loadTables_eq_ok_iff.mpr ⟨_, Reads.take magic 0 _, _, Reads.word version _ _,
    _, _, Reads.word s.size.toUInt32 _ _, _, _, Reads.word s.functions.size.toUInt32 _ _, ?_,
    _, _, Reads.count_at hs ?_, _, hshapes _ _, ?_, _, hvalues _ _, ?_, hbodies _ _, rfl⟩,
    hvl, hsl, rfl⟩
  · rw [hvcount, hfcount]
    simp only [Reader.at, Reader.ofBytes, List.length_append]
    omega
  · simp only [List.length_append]
    omega
  · exact Interner.startsWith_iff_take.mpr (hsl ▸ Interner.startsWith_iff_take.mp h.shapes.prelude)
  · exact Interner.startsWith_iff_take.mpr (hvl ▸ Interner.startsWith_iff_take.mp h.prelude)

end Tables

/-- However its values are spelled, a store is loaded from its snapshot with the same entries,
and every lookup has the same answer. -/
theorem load_spell_of_wellFormed {s : Store} (h : s.WellFormed) (hs : s.shapes.size < 2 ^ 32)
    (hf : s.functions.size < 2 ^ 32) {records : List WrittenValue}
    (hr : records.map WrittenValue.value = s.values.toList) :
    ∃ t, load (spell s records) = .ok t ∧ t.Same s := by
  obtain ⟨t, r, ht, hvalues, hshapes, hfunctions⟩ := loadTables_spell h hs hf hr
  have hext : s.Extends t := by
    refine ⟨fun i v hv => ?_, fun i x hx => ?_, fun i b hb => ?_⟩
    · rwa [Interner.get?_eq_toList, hvalues, ← Interner.get?_eq_toList]
    · rwa [Interner.get?_eq_toList, hshapes, ← Interner.get?_eq_toList]
    · rwa [hfunctions]
  have hload : load (spell s records) = .ok t := by
    refine load_eq_ok_iff.mpr ⟨⟨r, ht⟩, fun v hv => ?_⟩
    rw [hvalues] at hv
    obtain ⟨i, hi⟩ := List.mem_iff_getElem?.mp hv
    rw [← Interner.get?_eq_toList] at hi
    have hget : s.value? (Addr.ofIndex i) = some v := by
      show s.values.get? (Addr.ofIndex i).index = some v
      rwa [Addr.index_ofIndex (h.index_lt (Interner.lt_size hi))]
    exact Store.validate_eq_ok_iff.mpr ((h.valid' hget).mono hext)
  have htwf : t.WellFormed := wellFormed_of_load hload
  refine ⟨t, hload, hvalues, hshapes, hfunctions, fun v => Option.ext fun a => ?_,
    fun x => Option.ext fun id => ?_⟩
  · have hvalue : t.value? a = s.value? a := by
      show t.values.get? a.index = s.values.get? a.index
      rw [Interner.get?_eq_toList, hvalues, ← Interner.get?_eq_toList]
    rw [htwf.find?_eq_some_iff, h.find?_eq_some_iff, hvalue]
  · have hshape : t.shape? id = s.shape? id := by
      show t.shapes.get? id.index = s.shapes.get? id.index
      rw [Interner.get?_eq_toList, hshapes, ← Interner.get?_eq_toList]
    rw [htwf.find?_shape_eq_some_iff, h.find?_shape_eq_some_iff, hshape]

/-- Nothing but the entries is saved. -/
theorem save_of_same {s t : Store} (h : s.Same t) : save s = save t := by
  simp only [save, Store.size, Interner.size_eq_length, h.values, h.shapes, h.functions]

/-- A saved store is loaded with the same entries, and every lookup has the same answer. -/
theorem load_save_of_wellFormed {s : Store} (h : s.WellFormed) (hs : s.shapes.size < 2 ^ 32)
    (hf : s.functions.size < 2 ^ 32) : ∃ t, load (save s) = .ok t ∧ t.Same s := by
  obtain ⟨records, hvalues, hbytes⟩ := WrittenValue.exists_records s.values.toList
  have hsave : save s = spell s records := by rw [save, spell, hbytes]
  rw [hsave]
  exact load_spell_of_wellFormed h hs hf hvalues

/-- **Saving and loading a reachable store changes nothing**: the load succeeds, every
entry is at the same place and found there, and the snapshot has the length that is
told without making it. -/
theorem load_save {s : Store} (h : Reachable s) (hs : s.shapes.size < 2 ^ 32)
    (hf : s.functions.size < 2 ^ 32) :
    (∃ t, load (save s) = .ok t ∧ t.Same s) ∧ (save s).length = size s :=
  ⟨load_save_of_wellFormed h.wellFormed hs hf, length_save s⟩

theorem load_save_records : (∃ t, load (save .withRecords) = .ok t ∧ t.Same .withRecords) ∧
    (save .withRecords).length = size .withRecords :=
  load_save .withRecords (by decide +kernel) (by decide +kernel)

/-! ### Any bytes -/

/-- **No bytes can break a store.** Whatever is loaded is well-formed: its audit passes,
no shape and no abstract value is there twice, what a value names is there, and every
function has passed its verification beside the tables as they are. -/
theorem load_sound {bytes : List UInt8} {s : Store} (h : load bytes = .ok s) :
    s.WellFormed ∧ s.audit = .ok () ∧
    (∀ t u x, s.shape? t = some x → s.shape? u = some x → t = u) ∧
    (∀ a b v, s.value? a = some v → s.value? b = some v → v.isAbstract = true → a = b) ∧
    (∀ a v, s.value? a = some v → s.validate v = .ok () ∧ (∀ t ∈ v.shapes, s.Knows t) ∧
      (∀ child ∈ v.children, s.Holds child ∧ child.index < a.index) ∧
      (∀ f captures, v = .function f captures → ∃ b, s.body? f = some b) ∧
      ∀ x, v = .flex x → canonicalBits x.bits = x.bits) ∧
    ∀ f b, s.body? f = some b → b.verify s.shapes s.size = .ok () := by
  have hs := wellFormed_of_load h
  refine ⟨hs, hs.audit_eq_ok, fun t u x ht hu => ?_, fun a b v ha hb hv => ?_, fun a v hv => ?_,
    fun f b hb => hs.verified _ b hb⟩
  · exact ShapeId.eq_of_index (hs.shapes.indexed.injective ht hu rfl)
  · exact Addr.eq_of_index (hs.indexed.injective ha hb hv)
  · refine ⟨hs.valid a v hv, hs.named a v hv, fun child hc => ?_, ?_, ?_⟩
    · exact ⟨hs.holds_of_child hv hc, hs.children a v hv child hc⟩
    · rintro f captures rfl
      exact (hs.valid' hv).2.2
    · rintro x rfl
      exact hs.canonical a x hv

/-- What is loaded of the store with records of many sorts is sound, and its functions have
passed their verification. -/
theorem load_sound_records :
    ∃ s, load (save .withRecords) = .ok s ∧ s.WellFormed ∧ s.audit = .ok () ∧
      Body.relay.verify s.shapes s.size = .ok () := by
  obtain ⟨s, hs, hsame⟩ := load_save_of_wellFormed Reachable.withRecords.wellFormed
    (by decide +kernel) (by decide +kernel)
  obtain ⟨hw, haudit, -, -, -, hverified⟩ := load_sound hs
  have hbody : s.body? ⟨2⟩ = some .relay := by
    rw [Store.body?, hsame.functions]
    rfl
  exact ⟨s, hs, hw, haudit, hverified _ _ hbody⟩

end Snapshot

end ValueMachine
