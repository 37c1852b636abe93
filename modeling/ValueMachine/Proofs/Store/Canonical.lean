import ValueMachine.Proofs.Bytes.Spelling
import ValueMachine.Proofs.Store.Saving

/-! A snapshot has one spelling, up to the bits of floating-point numbers.

Nothing in a snapshot can be written in two ways but these numbers, whose bits are taken to
one canonical form. So the bytes that a store was loaded from are its snapshot, with some
numbers spelled otherwise (`load_canonical`), and the store is loaded again from its own
snapshot, with the same tables down to their indices. -/
namespace ValueMachine

/-- The store of these entries, each added behind those before it. -/
def Store.ofEntries (values : List Value) (shapes : List Shape) (functions : Array Body) : Store :=
  ⟨values.foldl (Interner.add Value.isAbstract) .empty, .ofList shapes, functions⟩

/-- The store is what comes of adding its entries one after the other, indices included. -/
def Store.Rebuilt (s : Store) : Prop :=
  s = .ofEntries s.values.toList s.shapes.toList s.functions

namespace Snapshot

variable {r : Reader}

/-- What is saved is the canonical spelling. -/
theorem save_eq_spell {s : Store} {records : List WrittenValue}
    (h : records.map WrittenValue.value = s.values.toList) :
    save s = spell s (records.map WrittenValue.canonical) := by
  have hvalues : s.values.toList.flatMap Value.encode =
      (records.map WrittenValue.canonical).flatMap WrittenValue.encode := by
    simp [← h, List.flatMap_map, WrittenValue.encode_canonical]
  rw [save, hvalues, spell]

/-- Other bits of a number are as long. -/
theorem length_spell_canonical (s : Store) (records : List WrittenValue) :
    (spell s (records.map WrittenValue.canonical)).length = (spell s records).length := by
  have hlength (w : WrittenValue) : w.canonical.encode.length = w.encode.length := by
    rw [w.encode_canonical, w.length_encode]
  simp [spell, List.length_flatMap, Function.comp_def, hlength]

/-- A reader of records that adds each to a table. -/
theorem table_spells {ω α σ : Type} (add : σ → α → σ) {value : ω → α} {encode : ω → List UInt8}
    {read : Read α} {load : Nat → σ → Loading σ}
    (hread : Spells read fun x bytes => ∃ w, value w = x ∧ bytes = encode w)
    (hzero : ∀ t, load 0 t = Pure.pure t)
    (hsucc : ∀ n t r out r', load (n + 1) t r = .ok out r' →
      ∃ x next, read r = .ok x next ∧ load n (add t x) next = .ok out r') (n : Nat) (t : σ) :
    Spells (load n t) fun out bytes => ∃ ws : List ω, ws.length = n ∧
      out = (ws.map value).foldl add t ∧ bytes = ws.flatMap encode := by
  induction n generalizing t with
  | zero =>
    rw [hzero]
    exact .pure ⟨[], rfl, rfl, rfl⟩
  | succ n ih =>
    intro r out r' h
    obtain ⟨x, next, hx, h⟩ := hsucc n t r out r' h
    obtain ⟨first, ⟨w, rfl, rfl⟩, hfirst⟩ := hread r x next hx
    obtain ⟨second, ⟨ws, rfl, rfl, rfl⟩, hsecond⟩ := ih _ next out r' h
    exact ⟨_, ⟨w :: ws, rfl, rfl, rfl⟩, by rw [hfirst, hsecond, List.flatMap_cons, List.append_assoc]⟩

theorem loadShapes_spells (n : Nat) : Spells (loadShapes n .empty) fun out bytes =>
    out.size = n ∧ out = .ofList out.toList ∧ bytes = out.toList.flatMap Shape.encode := by
  have hread : Spells Read.shape fun x bytes => ∃ y : Shape, id y = x ∧ bytes = y.encode :=
    Spells.shape.imp fun x _ h => ⟨x, rfl, h⟩
  apply (table_spells Interner.insert hread (fun _ => rfl) ?_ n .empty).imp
  · intro out bytes h
    obtain ⟨xs, rfl, hout, rfl⟩ := h
    rw [List.map_id] at hout
    have hlist : out.toList = xs := hout ▸ Interner.toList_ofList xs
    rw [Interner.size_eq_length, hlist]
    exact ⟨rfl, hout, rfl⟩
  · intro n t r out r' h
    obtain ⟨x, next, hx, -, -, h⟩ := loadShapes_succ_iff.mp h
    exact ⟨x, next, hx, h⟩

theorem loadValues_spells (shapes : ShapeTable) (functions n : Nat) :
    Spells (loadValues shapes functions n .empty) fun out bytes =>
      out.size = n ∧ out = out.toList.foldl (Interner.add Value.isAbstract) .empty ∧
      ∃ records : List WrittenValue, records.map WrittenValue.value = out.toList ∧
        bytes = records.flatMap WrittenValue.encode := by
  apply (table_spells (Interner.add Value.isAbstract) Spells.value (fun _ => rfl) ?_ n .empty).imp
  · intro out bytes h
    obtain ⟨records, rfl, hout, rfl⟩ := h
    have hlist : out.toList = records.map WrittenValue.value :=
      hout ▸ Interner.toList_foldl (Interner.toList_add Value.isAbstract) _ .empty
    rw [Interner.size_eq_length, hlist]
    exact ⟨List.length_map _, hout, records, rfl, rfl⟩
  · intro n t r out r' h
    obtain ⟨v, next, hv, -, -, h⟩ := loadValues_succ_iff.mp h
    exact ⟨v, next, hv, h⟩

theorem loadBodies_spells (shapes : ShapeTable) (values n : Nat) :
    Spells (loadBodies shapes values n #[]) fun out bytes =>
      out.size = n ∧ bytes = out.toList.flatMap Body.encode := by
  have hread : Spells Read.body fun x bytes => ∃ y : Body, id y = x ∧ bytes = y.encode :=
    Spells.body.imp fun x _ h => ⟨x, rfl, h⟩
  apply (table_spells Array.push hread (fun _ => rfl) ?_ n #[]).imp
  · intro out bytes h
    obtain ⟨xs, rfl, hout, rfl⟩ := h
    simp [hout]
  · intro n t r out r' h
    obtain ⟨b, next, hb, -, h⟩ := loadBodies_succ_iff.mp h
    exact ⟨b, next, hb, h⟩

/-- The bytes from which tables are read are a spelling of them. -/
theorem loadTables_spells {bytes : List UInt8} {s : Store}
    (h : loadTables (Reader.ofBytes bytes) = .ok s r) : s.Rebuilt ∧
    s.shapes.size < 2 ^ 32 ∧ s.functions.size < 2 ^ 32 ∧
    ∃ records : List WrittenValue, records.map WrittenValue.value = s.values.toList ∧
      bytes = spell s records := by
  obtain ⟨r1, h1, r2, h2, values, r3, h3, functions, r4, h4, -, shapes, r5, h5, r6, h6, -,
    r7, h7, -, h8, hend⟩ := loadTables_eq_ok_iff.mp h
  obtain ⟨_, ⟨-, rfl⟩, e1⟩ := Spells.take _ _ _ _ h1
  obtain ⟨_, rfl, e2⟩ := Spells.word _ _ _ h2
  obtain ⟨_, rfl, e3⟩ := Spells.word _ _ _ h3
  obtain ⟨_, rfl, e4⟩ := Spells.word _ _ _ h4
  obtain ⟨_, ⟨hshapes, rfl⟩, e5⟩ := Spells.count 1 _ _ _ h5
  obtain ⟨_, ⟨hssize, hsbuilt, rfl⟩, e6⟩ := loadShapes_spells _ _ _ _ h6
  obtain ⟨_, ⟨hvsize, hvbuilt, records, hrecords, rfl⟩, e7⟩ := loadValues_spells _ _ _ _ _ _ h7
  obtain ⟨_, ⟨hfsize, rfl⟩, e8⟩ := loadBodies_spells _ _ _ _ _ _ h8
  have hrest : r.rest = [] := List.length_eq_zero_iff.mp (r.left_eq ▸ hend)
  have hvword : values = s.size.toUInt32 := by simp [Store.size, hvsize]
  have hfword : functions = s.functions.size.toUInt32 := by simp [hfsize]
  refine ⟨?_, hssize ▸ hshapes, hfsize ▸ functions.toNat_lt, records, hrecords, ?_⟩
  · unfold Store.Rebuilt Store.ofEntries
    rw [← hsbuilt, ← hvbuilt]
  · have hbytes : bytes = (Reader.ofBytes bytes).rest := rfl
    rw [hbytes, e1, e2, e3, e4, e5, e6, e7, e8, hrest, spell, hvword, hfword, hssize]
    simp only [List.append_assoc, List.append_nil]

/-- A loaded store is loaded from each spelling of its snapshot: the tables that are built of
its entries are the same, indices included. -/
theorem load_spell {bytes : List UInt8} {s : Store} (h : load bytes = .ok s)
    {records : List WrittenValue} (hr : records.map WrittenValue.value = s.values.toList) :
    load (spell s records) = .ok s := by
  obtain ⟨⟨r, hread⟩, -⟩ := load_eq_ok_iff.mp h
  obtain ⟨hbuilt, hs, hf, -⟩ := loadTables_spells hread
  obtain ⟨t, ht, hsame⟩ := load_spell_of_wellFormed (wellFormed_of_load h) hs hf hr
  obtain ⟨⟨r', hread'⟩, -⟩ := load_eq_ok_iff.mp ht
  obtain ⟨htbuilt, -⟩ := loadTables_spells hread'
  rw [Store.Rebuilt, hsame.values, hsame.shapes, hsame.functions, ← hbuilt] at htbuilt
  rw [ht, htbuilt]

/-! ### A number in another pattern -/

/-- The first store with a number that is none. -/
def withNan : Store :=
  ⟨Store.initial.values.insert (.flex Flex.nan), Store.initial.shapes, #[]⟩

theorem wellFormed_withNan : withNan.WellFormed := by
  have hnew : Value.flex Flex.nan ∉ Store.initial.values.toList := by
    rw [Store.initial_values.1]
    decide
  exact (Store.reachable_of_new .initial rfl rfl hnew (by decide)).wellFormed

/-- Its values, the number with bits that are never saved. -/
def strange : List WrittenValue :=
  [.plain (.tuple #[]) (by decide), .plain (.cotuple ShapeId.truth 0 Addr.unit) (by decide),
    .plain (.cotuple ShapeId.truth 1 Addr.unit) (by decide), .flex 0xfff8000000000001]

/-! ### The canonical spelling -/

/-- **The format is canonical up to the bits of floating-point numbers.** What is saved of a
loaded store is as long as the bytes that it was loaded from and differs from them only in
that the bits of every number are in their canonical form. If they already were, the bytes are
the same. The store itself is loaded from its snapshot, and from any other spelling of it. -/
theorem load_canonical {bytes : List UInt8} {s : Store} (h : load bytes = .ok s) :
    (∃ records : List WrittenValue, records.map WrittenValue.value = s.values.toList ∧
      bytes = spell s records ∧ save s = spell s (records.map WrittenValue.canonical) ∧
      ((∀ bits, .flex bits ∈ records → (Flex.ofBits bits).bits = bits) → save s = bytes)) ∧
    (save s).length = bytes.length ∧ load (save s) = .ok s ∧
    ∀ records : List WrittenValue, records.map WrittenValue.value = s.values.toList →
      load (spell s records) = .ok s := by
  obtain ⟨⟨r, hread⟩, -⟩ := load_eq_ok_iff.mp h
  obtain ⟨-, -, -, records, hrecords, hbytes⟩ := loadTables_spells hread
  have hsave := save_eq_spell hrecords
  have hvalues : (records.map WrittenValue.canonical).map WrittenValue.value = s.values.toList := by
    rw [← hrecords, List.map_map]
    exact List.map_congr_left fun w _ => w.value_canonical
  refine ⟨⟨records, hrecords, hbytes, hsave, ?_⟩, ?_, ?_, fun _ hr => load_spell h hr⟩
  · intro hcanonical
    have hsame : ∀ w ∈ records, w.canonical = id w := by
      intro w hw
      cases w with
      | flex bits => exact congrArg WrittenValue.flex (hcanonical bits hw)
      | plain v hv => rfl
    rw [hsave, List.map_congr_left hsame, List.map_id, hbytes]
  · rw [hsave, hbytes, length_spell_canonical]
  · rw [hsave]
    exact load_spell h hvalues

/-- The strange spelling is loaded, and saved with the canonical bits. -/
theorem load_canonical_strange : ∃ s, load (spell withNan strange) = .ok s ∧
    save s ≠ spell withNan strange ∧ (save s).length = (spell withNan strange).length ∧
    load (save s) = .ok s := by
  have hvalues : strange.map WrittenValue.value = withNan.values.toList := rfl
  obtain ⟨s, hs, hsame⟩ := load_spell_of_wellFormed wellFormed_withNan
    (by decide +kernel) (by decide +kernel) hvalues
  obtain ⟨-, hlength, hload, -⟩ := load_canonical hs
  have hne : save withNan ≠ spell withNan strange := by decide +kernel
  exact ⟨s, hs, save_of_same hsame ▸ hne, hlength, hload⟩

end Snapshot

end ValueMachine
