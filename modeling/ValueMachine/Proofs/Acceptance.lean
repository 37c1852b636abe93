import ValueMachine.Proofs.Operation

/-! What validation tells of interning.

While there is room for values, an abstract value is interned exactly when it is valid, and is
refused for the very reason that validation gives. A value that stands for data outside the
store is interned by a way of its own, which looks its shape up. Validation does not: it lets
the value pass whatever shape it is given, and so tells less of it than interning asks
(`Store.validation_foretells`). -/
namespace ValueMachine

namespace Store

variable {s : Store} {v : Value} {id : ShapeId}

/-- While there is room for values every value has a place. -/
theorem exists_place (hroom : s.size < maxValues) (v : Value) : ∃ a t, place v s = .ok a t := by
  cases hf : s.find? v with
  | some a => exact ⟨a, s, place_of_known hf⟩
  | none => exact ⟨_, _, place_of_new hf hroom⟩

theorem ask_of_error {α : Type} {question : Store → Except StoreError α} {e : StoreError}
    (h : question s = .error e) : ask question s = .error e s := by
  unfold ask
  rw [h]

/-- An abstract value is answered as validation answers. -/
theorem intern_answer (ha : v.isAbstract = true) (hroom : s.size < maxValues) :
    discard (intern v s).answer = s.validate v := by
  rw [intern_eq ha]
  cases hv : s.validate v with
  | ok =>
    obtain ⟨a, t, hplace⟩ := exists_place hroom v
    rw [run_bind_of_ok (ask_eq_ok_iff.mpr ⟨hv, rfl⟩), hplace]
    rfl
  | error e =>
    rw [run_bind_of_error (ask_of_error hv)]
    rfl

/-- A value that stands for data outside is answered as its shape is found. -/
theorem concrete_answer (hroom : s.size < maxValues) (id : ShapeId) (external : UInt64) :
    discard (concrete id external s).answer = discard (liftM (s.shapes.lookup id)) := by
  unfold concrete
  cases hid : (discard (liftM (s.shapes.lookup id)) : Except StoreError Unit) with
  | ok =>
    rw [run_bind_of_ok (ask_eq_ok_iff.mpr ⟨hid, rfl⟩), placeConcrete_of_room _ hroom]
    rfl
  | error e =>
    rw [run_bind_of_error (ask_of_error hid)]
    rfl

theorem lookup_unknown (hid : ¬s.Knows id) :
    s.shapes.lookup id = .error (.unknownShape id) := by
  have hnone : s.shapes.get? id.index = none := by
    cases hs : s.shapes.get? id.index with
    | none => rfl
    | some shape => exact absurd (Interner.lt_size hs) hid
  unfold ShapeTable.lookup
  rw [hnone]

/-- **Validation foretells what interning answers.** While there is room for values, an abstract
value is interned if it is valid, and refused for what validation complains of if it is not. A
value that stands for data outside passes validation in any case; it is interned if its shape
is known, and refused for that if it is not. -/
theorem validation_foretells (hroom : s.size < maxValues) (v : Value) :
    (v.isAbstract = true → discard (intern v s).answer = s.validate v) ∧
      ∀ id external, v = .concrete id external →
        s.validate v = .ok () ∧
          (s.Knows id → discard (intern v s).answer = .ok ()) ∧
          (¬s.Knows id →
            discard (intern v s).answer = .error (.mismatch (.unknownShape id))) := by
  refine ⟨fun ha => intern_answer ha hroom, ?_⟩
  rintro id external rfl
  have hanswer := concrete_answer hroom id external
  refine ⟨rfl, fun hid => hanswer.trans ?_, fun hid => hanswer.trans ?_⟩
  · exact discard_eq_ok_iff.mpr (ShapeTable.lift_lookup_known_iff.mpr hid)
  · rw [lookup_unknown hid]
    rfl

/-- In the first store, where the number seven is too large for two bits and the shape of truth
values is known. -/
theorem validation_foretells_initial :
    initial.size < maxValues ∧ initial.Knows ShapeId.truth ∧
      initial.validate (.ring 2 7) = .error (.mismatch (.ringRange 2 7)) ∧
      discard (intern (.ring 2 7) initial).answer = .error (.mismatch (.ringRange 2 7)) ∧
      discard (intern (.concrete ShapeId.truth 9) initial).answer = .ok () := by
  have hroom : initial.size < maxValues := by decide
  have hknown : initial.Knows ShapeId.truth := by
    show ShapeId.truth.index < initial.shapes.size
    decide
  have hinvalid : initial.validate (.ring 2 7) = .error (.mismatch (.ringRange 2 7)) := rfl
  refine ⟨hroom, hknown, hinvalid, ?_, ?_⟩
  · exact ((validation_foretells hroom (.ring 2 7)).1 rfl).trans hinvalid
  · exact ((validation_foretells hroom (.concrete ShapeId.truth 9)).2 _ _ rfl).2.1 hknown

/-- No shape has the number five in the first store: validation lets a value of it pass, and
interning refuses it. -/
theorem concrete_beyond_validation :
    Reachable .initial ∧ initial.size < maxValues ∧
      initial.validate (.concrete ⟨5⟩ 0) = .ok () ∧
      intern (.concrete ⟨5⟩ 0) initial = .error (.mismatch (.unknownShape ⟨5⟩)) initial ∧
      ¬(initial.validate (.concrete ⟨5⟩ 0) = .ok () ↔
        ∃ a t, intern (.concrete ⟨5⟩ 0) initial = .ok a t) := by
  have hvalid : initial.validate (.concrete ⟨5⟩ 0) = .ok () := rfl
  have hrefused : intern (.concrete ⟨5⟩ 0) initial =
      .error (.mismatch (.unknownShape ⟨5⟩)) initial := rfl
  refine ⟨.initial, by decide, hvalid, hrefused, fun h => ?_⟩
  obtain ⟨a, t, ht⟩ := h.mp hvalid
  cases hrefused.symm.trans ht

end Store

end ValueMachine
