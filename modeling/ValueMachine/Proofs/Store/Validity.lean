import ValueMachine.Proofs.Computation
import ValueMachine.Proofs.Store.Tables
import ValueMachine.Store.Typing

/-! Which values and shapes a store accepts, and that it goes on accepting them.

`validate` and `ShapeTable.check` accept exactly what `Valid` and `Shape.Sound`
describe. Each description only asks for entries of the store to be there, so it
holds of every store that has grown from one of which it holds (`Extends`). -/
namespace ValueMachine

/-- Every entry of the first store is at the same place in the second. -/
structure Store.Extends (s t : Store) : Prop where
  values : s.values.Extends t.values
  shapes : s.shapes.Extends t.shapes
  functions : ∀ (i : Nat) b, s.functions[i]? = some b → t.functions[i]? = some b

namespace Store.Extends

variable {s t u : Store}

theorem refl (s : Store) : s.Extends s := ⟨.refl _, .refl _, fun _ _ h => h⟩

theorem trans (h : s.Extends t) (h' : t.Extends u) : s.Extends u :=
  ⟨h.values.trans h'.values, h.shapes.trans h'.shapes,
    fun i b hb => h'.functions i b (h.functions i b hb)⟩

theorem value? (h : s.Extends t) {a : Addr} {v : Value} (hv : s.value? a = some v) :
    t.value? a = some v := h.values _ _ hv

theorem shape? (h : s.Extends t) {id : ShapeId} {shape : Shape} (hs : s.shape? id = some shape) :
    t.shape? id = some shape := h.shapes _ _ hs

theorem body? (h : s.Extends t) {f : FuncId} {b : Body} (hb : s.body? f = some b) :
    t.body? f = some b := h.functions _ _ hb

end Store.Extends

/-! ### Questions that are answered -/

namespace ShapeTable

theorem lookup_eq_ok_iff {shapes : ShapeTable} {t : ShapeId} {shape : Shape} :
    shapes.lookup t = .ok shape ↔ shapes.get? t.index = some shape := by
  unfold lookup
  split <;> simp_all

theorem lookup_known_iff {shapes : ShapeTable} {t : ShapeId} :
    (∃ shape, shapes.lookup t = .ok shape) ↔ t.index < shapes.size := by
  simp only [lookup_eq_ok_iff]
  exact ⟨fun ⟨_, h⟩ => Interner.lt_size h, Interner.get?_of_lt⟩

theorem alternatives_eq_ok_iff {shapes : ShapeTable} {t : ShapeId} {alternatives : Array ShapeId} :
    shapes.alternatives t = .ok alternatives ↔ shapes.get? t.index = some (.cotuple alternatives) := by
  unfold ShapeTable.alternatives
  rw [bind_eq_ok_iff]
  simp only [lookup_eq_ok_iff]
  constructor
  · rintro ⟨shape, hs, h⟩
    split at h
    · rw [hs, Except.ok.inj h]
    · cases h
  · intro h
    exact ⟨_, h, rfl⟩

/-! Most questions are asked where the error is a store's. -/

theorem lift_lookup_known_iff {shapes : ShapeTable} {t : ShapeId} :
    (∃ shape, (liftM (shapes.lookup t) : Except StoreError Shape) = .ok shape) ↔
      t.index < shapes.size :=
  (exists_congr fun _ => mapError_eq_ok_iff).trans lookup_known_iff

theorem lift_lookup_eq_ok_iff {shapes : ShapeTable} {t : ShapeId} {shape : Shape} :
    (liftM (shapes.lookup t) : Except StoreError Shape) = .ok shape ↔
      shapes.get? t.index = some shape :=
  mapError_eq_ok_iff.trans lookup_eq_ok_iff

theorem lift_alternatives_eq_ok_iff {shapes : ShapeTable} {t : ShapeId}
    {alternatives : Array ShapeId} :
    (liftM (shapes.alternatives t) : Except StoreError (Array ShapeId)) = .ok alternatives ↔
      shapes.get? t.index = some (.cotuple alternatives) :=
  mapError_eq_ok_iff.trans alternatives_eq_ok_iff

end ShapeTable

theorem checkLength_eq_ok_iff {n : Nat} : checkLength n = .ok () ↔ n < 2 ^ 32 := by
  unfold checkLength
  split <;> simp_all

theorem lift_checkLength_eq_ok_iff {n : Nat} :
    (liftM (checkLength n) : Except StoreError Unit) = .ok () ↔ n < 2 ^ 32 :=
  mapError_eq_ok_iff.trans checkLength_eq_ok_iff

namespace Store

variable {s t : Store}

theorem resolve_eq_ok_iff {a : Addr} {v : Value} : s.resolve a = .ok v ↔ s.value? a = some v := by
  unfold resolve
  split <;> simp_all

theorem body_eq_ok_iff {f : FuncId} {b : Body} : s.body f = .ok b ↔ s.body? f = some b := by
  unfold Store.body
  split <;> simp_all

theorem lift_resolve_eq_ok_iff {a : Addr} {v : Value} :
    (liftM (s.resolve a) : Except StoreError Value) = .ok v ↔ s.value? a = some v :=
  mapError_eq_ok_iff.trans resolve_eq_ok_iff

theorem lift_body_eq_ok_iff {f : FuncId} {b : Body} :
    (liftM (s.body f) : Except StoreError Body) = .ok b ↔ s.body? f = some b :=
  mapError_eq_ok_iff.trans body_eq_ok_iff

/-- The place holds a value. -/
def Holds (s : Store) (a : Addr) : Prop := ∃ v, s.value? a = some v

/-- The shape is in the table. -/
def Knows (s : Store) (id : ShapeId) : Prop := id.index < s.shapes.size

theorem holds_iff {a : Addr} : s.Holds a ↔ a.index < s.size :=
  ⟨fun ⟨_, h⟩ => Interner.lt_size h, Interner.get?_of_lt⟩

theorem knows_iff {id : ShapeId} : s.Knows id ↔ ∃ shape, s.shape? id = some shape :=
  ⟨Interner.get?_of_lt, fun ⟨_, h⟩ => Interner.lt_size h⟩

theorem Holds.mono {a : Addr} (h : s.Holds a) (hst : s.Extends t) : t.Holds a :=
  h.imp fun _ hv => hst.value? hv

theorem Knows.mono {id : ShapeId} (h : s.Knows id) (hst : s.Extends t) : t.Knows id :=
  Nat.lt_of_lt_of_le h hst.shapes.size_le

/-- Only stored values have shapes, and only known ones. -/
theorem holds_of_fits {a : Addr} {id : ShapeId} (h : s.fits a id = true) :
    s.Holds a ∧ ∃ shape, s.shape? id = some shape := by
  unfold fits fitsWithin at h
  split at h
  · next hv hs => exact ⟨⟨_, hv⟩, _, hs⟩
  · cases h

theorem checkConforms_eq_ok_iff {a : Addr} {id : ShapeId} :
    s.checkConforms a id = .ok () ↔ s.fits a id = true := by
  unfold checkConforms conforms
  simp only [bind_eq_ok_iff, discard_eq_ok_iff]
  constructor
  · rintro ⟨b, ⟨_, -, _, -, hb⟩, h⟩
    cases hf : s.fits a id with
    | true => rfl
    | false =>
      rw [← Except.ok.inj hb, hf] at h
      cases h
  · intro hf
    obtain ⟨⟨v, hv⟩, shape, hs⟩ := holds_of_fits hf
    have hr : s.resolve a = .ok v := resolve_eq_ok_iff.mpr hv
    have hl : s.shapes.lookup id = .ok shape := ShapeTable.lookup_eq_ok_iff.mpr hs
    refine ⟨true, ⟨(), ⟨v, ?_⟩, (), ⟨shape, ?_⟩, ?_⟩, rfl⟩
    · rw [hr]
      rfl
    · rw [hl]
      rfl
    · rw [hf]
      rfl

/-- A value keeps its shapes. -/
theorem fitsWithin_mono (hst : s.Extends t) :
    ∀ (depth : Nat) (a : Addr) (id : ShapeId),
      s.fitsWithin depth a id = true → t.fitsWithin depth a id = true := by
  intro depth
  induction depth with
  | zero =>
    intro a id h
    cases h
  | succ depth ih =>
    intro a id h
    unfold fitsWithin at h ⊢
    split at h
    · next v shape hv hs =>
      rw [hst.value? hv, hst.shape? hs]
      simp only [Bool.or_eq_true] at h ⊢
      refine h.imp_right fun h => ?_
      -- The cases that look further than at the value and the shape themselves.
      split at h <;> try exact h
      · simp only [Bool.and_eq_true, List.all_eq_true] at h ⊢
        exact ⟨h.1, fun p hp => ih _ _ (h.2 p hp)⟩
      · next f _ _ _ _ =>
        cases hb : s.body? f with
        | none => simp [hb] at h
        | some b => simpa [hb, hst.body? hb] using h
      · exact ih _ _ h
    · cases h

theorem fits_mono (hst : s.Extends t) {a : Addr} {id : ShapeId} (h : s.fits a id = true) :
    t.fits a id = true := fitsWithin_mono hst _ a id h

/-- The value is a list of elements of the shape. -/
def IsListOf (s : Store) (elem : ShapeId) (a : Addr) : Prop :=
  s.value? a = some (.nil elem) ∨ ∃ head tail, s.value? a = some (.cons elem head tail)

/-- The value is a function from the domain to truth values. -/
def IsPredicate (s : Store) (domain : ShapeId) (a : Addr) : Prop :=
  ∃ f captures b, s.value? a = some (.function f captures) ∧ s.body? f = some b ∧
    b.params = [domain] ∧ b.result = ShapeId.truth

theorem IsListOf.mono {elem : ShapeId} {a : Addr} (h : s.IsListOf elem a) (hst : s.Extends t) :
    t.IsListOf elem a :=
  h.imp hst.value? fun ⟨head, tail, h⟩ => ⟨head, tail, hst.value? h⟩

theorem IsPredicate.mono {domain : ShapeId} {a : Addr} (h : s.IsPredicate domain a)
    (hst : s.Extends t) : t.IsPredicate domain a := by
  obtain ⟨f, captures, b, hv, hb, hp⟩ := h
  exact ⟨f, captures, b, hst.value? hv, hst.body? hb, hp⟩

theorem elemShape_eq_ok_iff {elem : ShapeId} {a : Addr} :
    s.elemShape a = .ok elem ↔ s.IsListOf elem a := by
  unfold elemShape
  simp only [bind_eq_ok_iff]
  constructor
  · rintro ⟨v, hv, h⟩
    have hv : s.value? a = some v := lift_resolve_eq_ok_iff.mp hv
    split at h
    · exact .inl (by rw [hv, Except.ok.inj h])
    · exact .inr ⟨_, _, by rw [hv, Except.ok.inj h]⟩
    · cases h
  · rintro (hv | ⟨head, tail, hv⟩)
    · exact ⟨_, lift_resolve_eq_ok_iff.mpr hv, rfl⟩
    · exact ⟨_, lift_resolve_eq_ok_iff.mpr hv, rfl⟩

theorem checkPredicate_eq_ok_iff {domain : ShapeId} {a : Addr} :
    s.checkPredicate a domain = .ok () ↔ s.IsPredicate domain a := by
  unfold checkPredicate
  simp only [bind_eq_ok_iff]
  constructor
  · rintro ⟨v, hv, h⟩
    have hv : s.value? a = some v := lift_resolve_eq_ok_iff.mp hv
    split at h
    · next f captures _ =>
      obtain ⟨b, hb, h⟩ := bind_eq_ok_iff.mp h
      have hb : s.body? f = some b := lift_body_eq_ok_iff.mp hb
      split at h
      · next hp =>
        simp only [Bool.and_eq_true, beq_iff_eq] at hp
        exact ⟨f, captures, b, hv, hb, hp⟩
      · cases h
    · cases h
  · rintro ⟨f, captures, b, hv, hb, hp, hr⟩
    refine ⟨_, lift_resolve_eq_ok_iff.mpr hv, ?_⟩
    refine bind_eq_ok_iff.mpr ⟨b, lift_body_eq_ok_iff.mpr hb, ?_⟩
    simp [hp, hr, pure, Except.pure]

/-! ### Values -/

/-- What `validate` asks of a value. -/
def Valid (s : Store) (v : Value) : Prop :=
  (∀ a ∈ v.children, s.Holds a) ∧
  match v with
  | .ring bits x => Ring.IsWidth bits ∧ Ring.truncate bits x = x
  | .cotuple id tag payload => ∃ alternatives want, s.shape? id = some (.cotuple alternatives) ∧
      alternatives[tag.toNat]? = some want ∧ s.fits payload want = true
  | .text _ | .tuple _ => v.size < 2 ^ 32
  | .function f _ => v.size < 2 ^ 32 ∧ ∃ b, s.body? f = some b
  | .nil elem => s.Knows elem
  | .cons elem head tail => s.IsListOf elem tail ∧ s.fits head elem = true
  | .universal domain predicate | .existential domain predicate =>
      s.Knows domain ∧ s.IsPredicate domain predicate
  | .flex _ | .char _ | .identity _ | .concrete _ _ => True

theorem Valid.mono {v : Value} (h : s.Valid v) (hst : s.Extends t) : t.Valid v := by
  refine ⟨fun a ha => (h.1 a ha).mono hst, ?_⟩
  have h := h.2
  cases v with
  | cotuple id tag payload =>
    obtain ⟨alternatives, want, hs, hw, hf⟩ := h
    exact ⟨alternatives, want, hst.shape? hs, hw, fits_mono hst hf⟩
  | function f captures => exact ⟨h.1, h.2.imp fun b hb => hst.body? hb⟩
  | nil elem => exact Knows.mono h hst
  | cons elem head tail => exact ⟨h.1.mono hst, fits_mono hst h.2⟩
  | universal domain predicate => exact ⟨h.1.mono hst, h.2.mono hst⟩
  | existential domain predicate => exact ⟨h.1.mono hst, h.2.mono hst⟩
  | _ => exact h

theorem validate_eq_ok_iff {v : Value} : s.validate v = .ok () ↔ s.Valid v := by
  unfold validate Valid
  rw [bind_eq_ok_iff, exists_unit_iff, forM_eq_ok_iff]
  refine and_congr (forall₂_congr fun a _ => ?_) ?_
  · rw [discard_eq_ok_iff]
    exact exists_congr fun v => lift_resolve_eq_ok_iff
  · cases v with
    | ring bits x => exact guard_eq_ok_iff
    | cotuple id tag payload =>
      simp only [bind_eq_ok_iff]
      constructor
      · rintro ⟨alternatives, ha, h⟩
        have ha := ShapeTable.lift_alternatives_eq_ok_iff.mp ha
        split at h
        · next want hw => exact ⟨alternatives, want, ha, hw, checkConforms_eq_ok_iff.mp h⟩
        · cases h
      · rintro ⟨alternatives, want, hs, hw, hf⟩
        refine ⟨alternatives, ShapeTable.lift_alternatives_eq_ok_iff.mpr hs, ?_⟩
        rw [hw]
        exact checkConforms_eq_ok_iff.mpr hf
    | text _ => exact lift_checkLength_eq_ok_iff
    | tuple _ => exact lift_checkLength_eq_ok_iff
    | function f captures =>
      simp only [bind_eq_ok_iff, exists_unit_iff, discard_eq_ok_iff]
      exact and_congr lift_checkLength_eq_ok_iff
        (exists_congr fun b => lift_body_eq_ok_iff)
    | nil elem =>
      simp only [discard_eq_ok_iff]
      exact ShapeTable.lift_lookup_known_iff
    | cons elem head tail =>
      simp only [bind_eq_ok_iff, elemShape_eq_ok_iff]
      constructor
      · rintro ⟨rest, hr, h⟩
        split at h
        · next he => exact ⟨he ▸ hr, checkConforms_eq_ok_iff.mp h⟩
        · cases h
      · rintro ⟨hl, hf⟩
        exact ⟨elem, hl, by rw [if_pos rfl]; exact checkConforms_eq_ok_iff.mpr hf⟩
    | universal domain predicate =>
      simp only [bind_eq_ok_iff, exists_unit_iff, discard_eq_ok_iff]
      exact and_congr ShapeTable.lift_lookup_known_iff
        checkPredicate_eq_ok_iff
    | existential domain predicate =>
      simp only [bind_eq_ok_iff, exists_unit_iff, discard_eq_ok_iff]
      exact and_congr ShapeTable.lift_lookup_known_iff
        checkPredicate_eq_ok_iff
    | flex _ => exact ⟨fun _ => trivial, fun _ => rfl⟩
    | char _ => exact ⟨fun _ => trivial, fun _ => rfl⟩
    | identity _ => exact ⟨fun _ => trivial, fun _ => rfl⟩
    | concrete _ _ => exact ⟨fun _ => trivial, fun _ => rfl⟩

end Store

/-! ### Shapes -/

/-- What `ShapeTable.check` asks of a shape before so many shapes are known: its
parts are among them, and it is not degenerate. -/
def Shape.Sound (known : Nat) (shape : Shape) : Prop :=
  (∀ t ∈ shape.children, t.index < known) ∧
  match shape with
  | .ring bits => Ring.IsWidth bits
  | .cotuple alternatives => alternatives ≠ #[] ∧ alternatives.size < 2 ^ 32
  | .tuple items => items.length < 2 ^ 32
  | .function params _ => params.length < 2 ^ 32
  | _ => True

theorem ShapeTable.check_eq_ok_iff {shapes : ShapeTable} {shape : Shape} :
    shapes.check shape = .ok () ↔ shape.Sound shapes.size := by
  unfold ShapeTable.check Shape.Sound
  rw [bind_eq_ok_iff, exists_unit_iff, forM_eq_ok_iff]
  refine and_congr (forall₂_congr fun t _ => discard_eq_ok_iff.trans lookup_known_iff) ?_
  cases shape with
  | ring bits => exact guard_eq_ok_iff
  | cotuple alternatives =>
    show (ite _ _ _ = _) ↔ _
    by_cases he : alternatives = #[]
    · simp [he]
    · rw [if_neg (by simpa using he), checkLength_eq_ok_iff]
      exact (and_iff_right he).symm
  | tuple items => exact checkLength_eq_ok_iff
  | function params result => exact checkLength_eq_ok_iff
  | _ => exact ⟨fun _ => trivial, fun _ => rfl⟩

end ValueMachine
