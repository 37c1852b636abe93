import ValueMachine.Proofs.Cardinality
import ValueMachine.Proofs.Store.Principal

/-! Which shapes a value has.

In every store that can come about, conformance decides whether a value has a shape with
all that is below it, and never complains of a value and a shape that are there
(`Reachable.conforms_decides`). The shape that a value is asked for is the only one, among
those without a place for anything, that it conforms to (`Reachable.shapeOf_finds`). -/
namespace ValueMachine

open Store

/-- **Conformance decides typing**: of a value and a shape that are there it tells, without a
complaint, whether the value has the shape with all that is below it. So it does if it is
decided with a stack, which is empty after finitely many looks. -/
theorem Reachable.conforms_decides {s : Store} (hs : Reachable s) {a : Addr} {id : ShapeId}
    (ha : s.Holds a) (hid : s.Knows id) : ∃ b, s.conforms a id = .ok b ∧
      (∃ looks, ∀ more, s.examine (looks + more) [(a, id)] = .ok (some b)) ∧
      (b = true ↔ s.Typed a id) :=
  ⟨s.fits a id, conforms_eq ha hid, examine_ends hs.wellFormed ha hid,
    fits_iff_typed hs.wellFormed⟩

theorem Reachable.conforms_decides_proved :
    Store.initial.Holds Addr.proved ∧ Store.initial.Knows ShapeId.truth ∧
      ∃ b, Store.initial.conforms Addr.proved ShapeId.truth = .ok b ∧
        (∃ looks, ∀ more,
          Store.initial.examine (looks + more) [(Addr.proved, ShapeId.truth)] = .ok (some b)) ∧
        (b = true ↔ Store.initial.Typed Addr.proved ShapeId.truth) :=
  have hknown : Store.initial.Knows ShapeId.truth :=
    knows_iff.mpr ⟨_, shape?_truth wellFormed_initial⟩
  ⟨⟨_, rfl⟩, hknown, Reachable.conforms_decides .initial ⟨_, rfl⟩ hknown⟩

/-- What it is to have found the shape of a value: only shapes have been added, the value
conforms to the shape, and to no other one that has no place for anything. -/
structure Store.FindsShape (s : Store) (a : Addr) (id : ShapeId) (t : Store) : Prop where
  values : t.values = s.values
  functions : t.functions = s.functions
  shapes : s.shapes.Extends t.shapes
  conforms : t.conforms a id = .ok true
  only : ∀ want, t.Knows want → ¬t.ReachesAny want → (t.conforms a want = .ok true ↔ want = id)

/-- **The shape of a value is its principal shape**. It is found unless there is no room
for more shapes, and always if there is room for one for each value up to the place. -/
theorem Reachable.shapeOf_finds {s : Store} (hs : Reachable s) {a : Addr} (ha : s.Holds a) :
    Ends (shapeOf a s) (s.FindsShape a) (fun e t => e = .exhausted ∧ maxEntries ≤ t.shapes.size) ∧
      (s.shapes.size + a.index < maxEntries → ∃ id t, shapeOf a s = .ok id t) := by
  refine ⟨(shapeOf_ends hs.wellFormed ha).imp (fun id t ⟨hst, hid⟩ => ?_)
    fun e t he => ⟨he.exhausted, he.full⟩, shapeOf_of_room hs.wellFormed ha⟩
  have hfits : t.conforms a id = .ok true := conforms_eq_true_iff.mpr (hid.fits hst.sound)
  refine ⟨hst.values, hst.functions, hst.grown.shapes, hfits, fun want _ hn => ?_⟩
  constructor
  · exact fun hw => hid.eq_of_fits hst.sound (conforms_eq_true_iff.mp hw) hn
  · rintro rfl
    exact hfits

theorem Reachable.shapeOf_finds_proved : Store.initial.Holds Addr.proved ∧
    Ends (shapeOf Addr.proved .initial) (Store.initial.FindsShape Addr.proved)
      (fun e t => e = .exhausted ∧ maxEntries ≤ t.shapes.size) ∧
    ∃ id t, shapeOf Addr.proved .initial = .ok id t :=
  have hfound := Reachable.shapeOf_finds .initial (a := Addr.proved) ⟨_, rfl⟩
  ⟨⟨_, rfl⟩, hfound.1, hfound.2 (by decide)⟩

end ValueMachine
