import ValueMachine.Proofs.Operation
import ValueMachine.Proofs.Store.Counting
import ValueMachine.Proofs.Store.Repetition

/-! A store is append-only, and what it has answered stays true.

Whatever is done with a store, and whether it succeeds or fails, the values, shapes and
functions that were there keep their places and their contents. So a question about them
has one answer for life: the questions that go into values, shapes and signatures follow
names that were there already, and complaints, too, depend only on what was there. -/
namespace ValueMachine

namespace Store

/-- All that the first store holds is in the second as it was, and the second gives the same
answers about it, complaints included. What was accepted is accepted still. -/
structure Keeps (s t : Store) : Prop where
  value? : ∀ a v, s.value? a = some v → t.value? a = some v
  shape? : ∀ id x, s.shape? id = some x → t.shape? id = some x
  body? : ∀ f b, s.body? f = some b → t.body? f = some b
  conforms : ∀ a id, s.Holds a → s.Knows id → t.conforms a id = s.conforms a id
  validate : ∀ v, s.validate v = .ok () → t.validate v = .ok ()
  verify : ∀ b : Body, b.verify s.shapes s.size = .ok () → b.verify t.shapes t.size = .ok ()
  descriptor : ∀ a, s.Holds a → t.descriptor a = s.descriptor a
  text? : ∀ a, s.Holds a → t.text? a = s.text? a
  items : ∀ a, s.Holds a → t.items a = s.items a
  bodyId : ∀ a, s.Holds a → t.bodyId a = s.bodyId a
  decode : ∀ a, s.Holds a → Outcome.decode t a = Outcome.decode s a
  cardinality : ∀ id, s.Knows id → t.cardinality id = s.cardinality id

variable {s t : Store} {a : Addr} {id : ShapeId}

/-- Places that are there are looked up in the same way. -/
theorem Extends.value?_eq (hst : s.Extends t) (ha : s.Holds a) : t.value? a = s.value? a := by
  obtain ⟨v, hv⟩ := ha
  rw [hv, hst.value? hv]

theorem notOfKind_lasts (hst : s.Extends t) (ha : s.Holds a) (expected : Kind) :
    t.notOfKind a expected = s.notOfKind a expected := by
  have heq := hst.value?_eq ha
  obtain ⟨v, hv⟩ := ha
  unfold notOfKind
  rw [heq, hv]

theorem descriptor_lasts (hst : s.Extends t) (ha : s.Holds a) :
    t.descriptor a = s.descriptor a := by
  have heq := hst.value?_eq ha
  obtain ⟨v, hv⟩ := ha
  unfold descriptor resolve
  rw [heq, hv]

theorem text?_lasts (hst : s.Extends t) (ha : s.Holds a) : t.text? a = s.text? a := by
  unfold text?
  rw [hst.value?_eq ha]

theorem bodyId_lasts (hst : s.Extends t) (ha : s.Holds a) : t.bodyId a = s.bodyId a := by
  unfold bodyId
  rw [hst.value?_eq ha, notOfKind_lasts hst ha]

/-- A list is read in the same way, and so is what was thought to be one. -/
theorem itemsWithin_lasts (hs : s.WellFormed) (hst : s.Extends t) (depth : Nat)
    (before : List Addr) (ha : s.Holds a) :
    t.itemsWithin depth before a = s.itemsWithin depth before a := by
  induction depth generalizing before a with
  | zero => exact congrArg Except.error (notOfKind_lasts hst ha .list)
  | succ depth ih =>
    have heq := hst.value?_eq ha
    have hrefused := notOfKind_lasts hst ha .list
    obtain ⟨v, hv⟩ := ha
    unfold itemsWithin
    rw [heq, hv, hrefused]
    cases v with
    | cons elem head tail =>
      have htail : s.Holds tail :=
        hs.holds_of_child hv (List.mem_cons_of_mem _ List.mem_cons_self)
      exact ih (head :: before) htail
    | _ => rfl

theorem items_lasts (hs : s.WellFormed) (hst : s.Extends t) (ha : s.Holds a) :
    t.items a = s.items a := itemsWithin_lasts hs hst _ [] ha

/-- A question in two parts has a lasting answer if both parts have. -/
theorem Lasts.bind {α β : Type} {question : Store → Except StoreError α}
    {next : α → Store → Except StoreError β} (hq : Lasts question s)
    (hn : ∀ x, question s = .ok x → Lasts (next x) s) :
    Lasts (fun s => question s >>= fun x => next x s) s := by
  intro t ht hst
  dsimp only
  rw [hq t ht hst]
  cases hx : question s with
  | error e => rfl
  | ok x => exact hn x hx t ht hst

theorem alternatives_lasts {alternatives : Array ShapeId}
    (hx : s.shape? id = some (.cotuple alternatives)) :
    Lasts (fun s => liftM (s.shapes.alternatives id)) s := fun _ _ hst =>
  (ShapeTable.lift_alternatives_eq_ok_iff.mpr (hst.shape? hx)).trans
    (ShapeTable.lift_alternatives_eq_ok_iff.mpr hx).symm

/-- A cotuple names a shape that was there, so an outcome is read in the same way. -/
theorem decode_lasts (hs : s.WellFormed) (ha : s.Holds a) : Lasts (Outcome.decode · a) s := by
  refine Lasts.bind (resolve_lasts ha) fun v hv => ?_
  have hv : s.value? a = some v := lift_resolve_eq_ok_iff.mp hv
  cases v with
  | cotuple id tag payload =>
    obtain ⟨-, alternatives, -, hx, -⟩ := hs.valid' hv
    exact Lasts.bind (alternatives_lasts hx) fun _ _ _ _ _ => rfl
  | _ => exact fun _ _ _ => rfl

/-- A store that has come of another one keeps what that held. -/
theorem keeps_of_extends (hs : s.WellFormed) (ht : t.WellFormed) (hst : s.Extends t) :
    s.Keeps t where
  value? _ _ hv := hst.value? hv
  shape? _ _ hx := hst.shape? hx
  body? _ _ hb := hst.body? hb
  conforms _ _ ha hid := conforms_lasts hs ha hid t ht hst
  validate _ hv := validate_eq_ok_iff.mpr ((validate_eq_ok_iff.mp hv).mono hst)
  verify _ hb := Body.verify_eq_ok_iff.mpr
    ((Body.verify_eq_ok_iff.mp hb).mono hst.shapes hst.values.size_le)
  descriptor _ ha := descriptor_lasts hst ha
  text? _ ha := text?_lasts hst ha
  items _ ha := items_lasts hs hst ha
  bodyId _ ha := bodyId_lasts hst ha
  decode _ ha := decode_lasts hs ha t ht hst
  cardinality _ hid := cardinality_lasts hs hst hid

end Store

/-- **The store is append-only and its answers are for life**: whatever is done with a store,
with success or without, it keeps what it held and answers the same about it. -/
theorem Reachable.answers_for_life {s t : Store} (hs : Reachable s) (hst : Leads s t) :
    s.Keeps t :=
  have hgrown := hst.grows hs.wellFormed
  Store.keeps_of_extends hs.wellFormed hgrown.2 hgrown.1

/-- A function is registered, and then a body that is refused. -/
theorem Reachable.answers_for_life_unit :
    Store.Keeps .initial ((Operation.register ⟨[], ShapeId.unit, 0, #[]⟩).apply .withUnit) :=
  Reachable.answers_for_life .initial
    (.step _ (Store.register_unit ▸ .step (.register Body.unit) .refl))

end ValueMachine
