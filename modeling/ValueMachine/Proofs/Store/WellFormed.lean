import ValueMachine.Proofs.Store.Verification
import ValueMachine.Store.Audit

/-! Well-formed stores.

A store is well-formed when its tables are sound, every value is valid and lies
behind its children, and every function body is verified. Then a place stands for
its content: an abstract value is found exactly where it is (`find?_eq_some_iff`),
so the audit of the store passes (`audit_eq_ok`). The first store is well-formed,
and so is a well-formed store with one more entry that is accepted. -/
namespace ValueMachine

/-- The shapes that a value names. -/
def Value.shapes : Value → List ShapeId
  | cotuple t _ _ | nil t | cons t _ _ | universal t _ | existential t _ | concrete t _ => [t]
  | _ => []

structure ShapeTable.WellFormed (shapes : ShapeTable) : Prop where
  bounded : shapes.size ≤ Store.maxEntries
  prelude : shapes.StartsWith Shape.prelude
  indexed : shapes.Indexed fun _ => true
  /-- A shape names only shapes before it. -/
  sound : ∀ i shape, shapes.get? i = some shape → shape.Sound i

structure Store.WellFormed (s : Store) : Prop where
  bounded : s.size ≤ maxValues
  shapes : s.shapes.WellFormed
  prelude : s.values.StartsWith Value.prelude
  indexed : s.values.Indexed Value.isAbstract
  children : ∀ a v, s.value? a = some v → ∀ child ∈ v.children, child.index < a.index
  valid : ∀ a v, s.value? a = some v → s.validate v = .ok ()
  named : ∀ a v, s.value? a = some v → ∀ t ∈ v.shapes, s.Knows t
  canonical : ∀ a x, s.value? a = some (.flex x) → canonicalBits x.bits = x.bits
  verified : ∀ (i : Nat) b, s.functions[i]? = some b → b.verify s.shapes s.size = .ok ()

/-! ### Places and numbers -/

theorem Addr.index_ofIndex {i : Nat} (h : i < 2 ^ 32) : (Addr.ofIndex i).index = i :=
  UInt32.toNat_ofNat_of_lt' h

@[simp] theorem Addr.ofIndex_index (a : Addr) : Addr.ofIndex a.index = a :=
  congrArg Addr.mk UInt32.ofNat_toNat

theorem Addr.eq_of_index {a b : Addr} (h : a.index = b.index) : a = b := by
  rw [← Addr.ofIndex_index a, h, Addr.ofIndex_index]

theorem ShapeId.index_ofIndex {i : Nat} (h : i < 2 ^ 32) : (ShapeId.ofIndex i).index = i :=
  UInt32.toNat_ofNat_of_lt' h

@[simp] theorem ShapeId.ofIndex_index (t : ShapeId) : ShapeId.ofIndex t.index = t :=
  congrArg ShapeId.mk UInt32.ofNat_toNat

theorem ShapeId.eq_of_index {t u : ShapeId} (h : t.index = u.index) : t = u := by
  rw [← ShapeId.ofIndex_index t, h, ShapeId.ofIndex_index]

theorem FuncId.index_ofIndex {i : Nat} (h : i < 2 ^ 32) : (FuncId.ofIndex i).index = i :=
  UInt32.toNat_ofNat_of_lt' h

/-! ### The first store -/

theorem Store.initial_values :
    Store.initial.values.toList = Value.prelude ∧ Store.initial.values.Indexed Value.isAbstract :=
  Interner.ofList_sound Value.prelude (by decide) (by decide)

theorem Store.initial_shapes : Interner.toList Store.initial.shapes = Shape.prelude ∧
    Store.initial.shapes.Indexed fun _ => true :=
  Interner.ofList_sound Shape.prelude (by decide) (by simp)

/-- The first store is well-formed. -/
theorem Store.wellFormed_initial : Store.initial.WellFormed := by
  obtain ⟨hvl, hvi⟩ := Store.initial_values
  obtain ⟨hsl, hsi⟩ := Store.initial_shapes
  have hvmem {a : Addr} {v : Value} (h : Store.initial.value? a = some v) : v ∈ Value.prelude :=
    hvl ▸ Interner.mem_toList h
  refine ⟨?_, ⟨?_, ?_, hsi, ?_⟩, ?_, hvi, ?_, ?_, ?_, fun _ x _ => x.canonical, ?_⟩
  · show Store.initial.values.size ≤ maxValues
    rw [Interner.size_eq_length, hvl]
    decide
  · rw [Interner.size_eq_length, hsl]
    decide
  · exact Interner.startsWith_iff_take.mpr (by rw [hsl]; rfl)
  · intro i shape h
    rw [Interner.get?_eq_toList, hsl] at h
    have hsound : ∀ p ∈ Shape.prelude.zipIdx, p.1.Sound p.2 := by
      simp [Shape.prelude, Shape.Sound, Shape.children, ShapeId.index, ShapeId.unit]
    exact hsound (shape, i) (List.mem_zipIdx_iff_getElem?.mpr h)
  · exact Interner.startsWith_iff_take.mpr (by rw [hvl]; rfl)
  · intro a v h
    have h : Store.initial.values.get? a.index = some v := h
    rw [Interner.get?_eq_toList, hvl] at h
    have hdown : ∀ p ∈ Value.prelude.zipIdx, ∀ child ∈ p.1.children, child.index < p.2 := by
      decide
    exact hdown (v, a.index) (List.mem_zipIdx_iff_getElem?.mpr h)
  · intro a v h
    have hvalid : Value.prelude.forM Store.initial.validate = .ok () := rfl
    exact forM_eq_ok_iff.mp hvalid v (hvmem h)
  · intro a v h t ht
    have hknown : ∀ v ∈ Value.prelude, ∀ t ∈ v.shapes, t.index < Shape.prelude.length := by decide
    have hlt := hknown v (hvmem h) t ht
    rw [← hsl, ← Interner.size_eq_length] at hlt
    exact hlt
  · intro i b h
    simp [Store.initial] at h

/-! ### Looking up -/

namespace Store.WellFormed

variable {s : Store}

theorem index_lt (h : s.WellFormed) {i : Nat} (hi : i < s.size) : i < 2 ^ 32 := by
  have := h.bounded
  unfold maxValues UInt32.size at this
  omega

theorem valid' (h : s.WellFormed) {a : Addr} {v : Value} (hv : s.value? a = some v) : s.Valid v :=
  validate_eq_ok_iff.mp (h.valid a v hv)

theorem verified' (h : s.WellFormed) {f : FuncId} {b : Body} (hb : s.body? f = some b) :
    b.Verified s.shapes s.size := Body.verify_eq_ok_iff.mp (h.verified _ b hb)

theorem holds_of_child (h : s.WellFormed) {a child : Addr} {v : Value}
    (hv : s.value? a = some v) (hc : child ∈ v.children) : s.Holds child :=
  holds_iff.mpr (Nat.lt_trans (h.children a v hv child hc) (Interner.lt_size hv))

/-- An abstract value is found exactly where it is. -/
theorem find?_eq_some_iff (h : s.WellFormed) {v : Value} {a : Addr} :
    s.find? v = some a ↔ s.value? a = some v ∧ v.isAbstract = true := by
  unfold find?
  by_cases hv : v.isAbstract = true
  · simp only [hv, if_true, and_true, Option.map_eq_some_iff]
    constructor
    · rintro ⟨i, hi, rfl⟩
      have hg := ((h.indexed v i).mp hi).1
      show s.values.get? (Addr.ofIndex i).index = some v
      rw [Addr.index_ofIndex (h.index_lt (Interner.lt_size hg))]
      exact hg
    · intro hg
      exact ⟨a.index, (h.indexed v a.index).mpr ⟨hg, hv⟩, Addr.ofIndex_index a⟩
  · simp [hv]

/-- A value with a given content stands at one place only. -/
theorem place_unique (h : s.WellFormed) {a b : Addr} {v : Value} (ha : s.value? a = some v)
    (hb : s.value? b = some v) (hv : v.isAbstract = true) : a = b :=
  Addr.eq_of_index (h.indexed.injective ha hb hv)

/-- A value that is nowhere in the store is not found. -/
theorem find?_eq_none (h : s.WellFormed) {v : Value} (hnew : v ∉ s.values.toList) :
    s.find? v = none := by
  cases hf : s.find? v with
  | none => rfl
  | some a => exact absurd (Interner.mem_toList (h.find?_eq_some_iff.mp hf).1) hnew

theorem find?_shape_eq_some_iff (h : s.WellFormed) {shape : Shape} {t : ShapeId} :
    s.shapes.find? shape = some t ↔ s.shape? t = some shape := by
  simp only [ShapeTable.find?, Option.map_eq_some_iff]
  constructor
  · rintro ⟨i, hi, rfl⟩
    have hg := ((h.shapes.indexed shape i).mp hi).1
    have hlt : i < 2 ^ 32 := Nat.lt_of_lt_of_le (Interner.lt_size hg) h.shapes.bounded
    show s.shapes.get? (ShapeId.ofIndex i).index = some shape
    rw [ShapeId.index_ofIndex hlt]
    exact hg
  · intro hg
    exact ⟨t.index, (h.shapes.indexed shape t.index).mpr ⟨hg, rfl⟩, ShapeId.ofIndex_index t⟩

/-- A shape that is nowhere in the store is not found. -/
theorem find?_shape_eq_none (h : s.WellFormed) {shape : Shape} (hnew : shape ∉ s.shapes.toList) :
    s.shapes.find? shape = none := by
  cases hf : s.shapes.find? shape with
  | none => rfl
  | some t => exact absurd (Interner.mem_toList (h.find?_shape_eq_some_iff.mp hf)) hnew

/-! ### The audit -/

/-- The audit of the values from a place on, once those before have passed. -/
theorem auditFrom_eq_ok (h : s.WellFormed) (rest : List Value) (before : Interner Value)
    (hl : s.values.toList = before.toList ++ rest) (hb : before.Indexed Value.isAbstract) :
    ∃ after, (rest.zipIdx before.size).foldlM
      (fun seen (v, place) => s.auditValue seen (Addr.ofIndex place) v) before = .ok after := by
  induction rest generalizing before with
  | nil => exact ⟨before, rfl⟩
  | cons v rest ih =>
    have hsize : before.size = before.toList.length := Array.length_toList.symm
    have hg : s.values.get? before.size = some v := by
      rw [Interner.get?_eq_toList, hl, hsize]
      simp
    have hlt := h.index_lt (Interner.lt_size hg)
    have hbefore {i : Nat} {x : Value} (hx : before.get? i = some x) : s.values.get? i = some x := by
      have := Interner.lt_size hx
      rw [Interner.get?_eq_toList] at hx ⊢
      rw [hl, List.getElem?_append_left (by omega)]
      exact hx
    have hseen (hv : v.isAbstract = true) : before.find? v = none := by
      cases hf : before.find? v with
      | none => rfl
      | some i =>
        have hi := ((hb v i).mp hf).1
        have := h.indexed.injective (hbefore hi) hg hv
        have := Interner.lt_size hi
        omega
    have hfound (hv : v.isAbstract = true) : s.find? v = some (Addr.ofIndex before.size) := by
      refine h.find?_eq_some_iff.mpr ⟨?_, hv⟩
      show s.values.get? (Addr.ofIndex before.size).index = some v
      rw [Addr.index_ofIndex hlt]
      exact hg
    have hstep : s.auditValue before (Addr.ofIndex before.size) v =
        .ok (before.add Value.isAbstract v) := by
      unfold auditValue Interner.add
      by_cases hv : v.isAbstract = true
      · simp [hv, hseen hv, hfound hv]
      · simp [hv]
    obtain ⟨after, hafter⟩ := ih (before.add Value.isAbstract v)
      (by rw [hl, Interner.toList_add, List.append_assoc]; rfl) (Interner.indexed_add hb hseen)
    refine ⟨after, ?_⟩
    rw [List.zipIdx_cons, List.foldlM_cons]
    show (s.auditValue before (Addr.ofIndex before.size) v >>= _) = _
    rw [hstep]
    rw [Interner.size_add] at hafter
    exact hafter

theorem audit_eq_ok (h : s.WellFormed) : s.audit = .ok () := by
  obtain ⟨after, hafter⟩ := h.auditFrom_eq_ok s.values.toList .empty rfl Interner.indexed_empty
  unfold audit
  exact discard_eq_ok_iff.mpr ⟨after, hafter⟩

/-! ### One more entry -/

/-- A well-formed store with one more value, which is valid in it. -/
theorem addValue (h : s.WellFormed) {v : Value} {values : Interner Value}
    (hget : ∀ i, values.get? i = if i = s.size then some v else s.values.get? i)
    (hsize : values.size = s.size + 1) (hlt : s.size < maxValues)
    (hi : values.Indexed Value.isAbstract) (hv : s.Valid v) (hn : ∀ t ∈ v.shapes, s.Knows t) :
    s.Extends { s with values } ∧ ({ s with values } : Store).WellFormed := by
  have hst : s.Extends { s with values } := by
    refine ⟨fun i x hx => ?_, .refl _, fun _ _ hb => hb⟩
    have := Interner.lt_size hx
    have hne : i ≠ s.size := Nat.ne_of_lt this
    show values.get? i = some x
    rw [hget, if_neg hne]
    exact hx
  -- What is asked of each value is asked of the old ones and of the new one.
  have hcases {a : Addr} {x : Value} (hx : values.get? a.index = some x) :
      (a.index = s.size ∧ x = v) ∨ s.value? a = some x := by
    rw [hget] at hx
    split at hx
    · next ha => exact .inl ⟨ha, (Option.some.inj hx).symm⟩
    · exact .inr hx
  refine ⟨hst, ?_, h.shapes, h.prelude.mono hst.values, hi, ?_, ?_, ?_,
    fun _ x _ => x.canonical, ?_⟩
  · show values.size ≤ maxValues
    rw [hsize]
    exact hlt
  · intro a x hx c hc
    obtain ⟨ha, rfl⟩ | hx := hcases hx
    · rw [ha]
      exact holds_iff.mp (hv.1 c hc)
    · exact h.children a x hx c hc
  · intro a x hx
    obtain ⟨-, rfl⟩ | hx := hcases hx
    · exact validate_eq_ok_iff.mpr (hv.mono hst)
    · exact validate_eq_ok_iff.mpr ((h.valid' hx).mono hst)
  · intro a x hx t ht
    obtain ⟨-, rfl⟩ | hx := hcases hx
    · exact hn t ht
    · exact h.named a x hx t ht
  · intro i b hb
    exact Body.verify_eq_ok_iff.mpr ((Body.verify_eq_ok_iff.mp (h.verified i b hb)).mono
      hst.shapes hst.values.size_le)

/-- A well-formed store with one more shape, which is new and sound. -/
theorem addShape (h : s.WellFormed) {shape : Shape} (hlt : s.shapes.size < maxEntries)
    (hnew : Interner.find? s.shapes shape = none) (hs : shape.Sound s.shapes.size) :
    s.Extends { s with shapes := s.shapes.insert shape } ∧
      ({ s with shapes := s.shapes.insert shape } : Store).WellFormed := by
  have hst : s.Extends { s with shapes := s.shapes.insert shape } :=
    ⟨.refl _, Interner.extends_insert _ _, fun _ _ hb => hb⟩
  refine ⟨hst, h.bounded, ⟨?_, h.shapes.prelude.mono hst.shapes,
    Interner.indexed_insert h.shapes.indexed hnew rfl, ?_⟩, h.prelude, h.indexed, h.children, ?_,
    ?_, h.canonical, ?_⟩
  · rw [Interner.size_insert]
    exact hlt
  · intro i x hx
    rw [Interner.get?_insert] at hx
    split at hx
    · next hi =>
      rw [hi, ← Option.some.inj hx]
      exact hs
    · exact h.shapes.sound i x hx
  · intro a v hv
    exact validate_eq_ok_iff.mpr ((h.valid' hv).mono hst)
  · intro a v hv t ht
    exact (h.named a v hv t ht).mono hst
  · intro i b hb
    exact Body.verify_eq_ok_iff.mpr ((Body.verify_eq_ok_iff.mp (h.verified i b hb)).mono
      hst.shapes hst.values.size_le)

/-- A well-formed store with one more function body, which is verified. -/
theorem addBody (h : s.WellFormed) {b : Body} (hb : b.Verified s.shapes s.size) :
    s.Extends { s with functions := s.functions.push b } ∧
      ({ s with functions := s.functions.push b } : Store).WellFormed := by
  have hst : s.Extends { s with functions := s.functions.push b } := by
    refine ⟨.refl _, .refl _, fun i x hx => ?_⟩
    have := (Array.getElem?_eq_some_iff.mp hx).1
    show (s.functions.push b)[i]? = some x
    rw [Array.getElem?_push, if_neg (Nat.ne_of_lt this)]
    exact hx
  refine ⟨hst, h.bounded, h.shapes, h.prelude, h.indexed, h.children, ?_, h.named, h.canonical, ?_⟩
  · intro a v hv
    exact validate_eq_ok_iff.mpr ((h.valid' hv).mono hst)
  · intro i x hx
    have hx : (s.functions.push b)[i]? = some x := hx
    rw [Array.getElem?_push] at hx
    split at hx
    · rw [← Option.some.inj hx]
      exact Body.verify_eq_ok_iff.mpr hb
    · exact h.verified i x hx

end Store.WellFormed

end ValueMachine
