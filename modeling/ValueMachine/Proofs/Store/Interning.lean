import ValueMachine.Proofs.Store.Growth

/-! What interning answers.

In a well-formed store the answer is the place of the value (`intern_ends`), and it is
refused exactly when it is not valid or the store is full. A value whose children are
there, and whose names are, is only refused for the shape of a child or for its size
(`validate_error`). -/
namespace ValueMachine

/-- A complaint about the values that an operation is used on, not about what is named. -/
def Mismatch.Plain : Mismatch → Prop
  | kind _ _ | ringWidth _ _ | arity _ _ | nonconforming _ _ | notEqual _ _ | tooLong _ => True
  | _ => False

/-- A refusal for the values that an operation is used on, or for want of room. -/
def StoreError.Plain : StoreError → Prop
  | dangling _ => False
  | mismatch m => m.Plain
  | _ => True

namespace Store

variable {s : Store}

/-- A question ends as its answer says, and leaves the store. -/
theorem ask_ends {α : Type} {question : Store → Except StoreError α} {P : α → Store → Prop}
    {E : StoreError → Store → Prop} (hP : ∀ x, question s = .ok x → P x s)
    (hE : ∀ e, question s = .error e → E e s) : Ends (ask question s) P E := by
  unfold ask
  cases hq : question s with
  | ok x => exact hP x hq
  | error e => exact hE e hq

/-- There is no place for another value, or none for another shape. -/
def Full (s : Store) : Prop := maxValues ≤ s.size ∨ maxEntries ≤ s.shapes.size

/-- The value is at the place in the second store, which has one value more if the value is
concrete or was nowhere, and is the first store otherwise. -/
inductive Made (s : Store) (v : Value) : Addr → Store → Prop
  | known {a : Addr} (ha : v.isAbstract = true) (hv : s.value? a = some v) : s.Made v a s
  | new {a : Addr} {t : Store} (hnew : v.isAbstract = true → ∀ b, s.value? b ≠ some v)
    (ha : a.index = s.size) (hv : t.values.toList = s.values.toList ++ [v])
    (hs : t.shapes = s.shapes) (hf : t.functions = s.functions) : s.Made v a t

theorem Made.value? {v : Value} {a : Addr} {t : Store} (h : s.Made v a t) :
    t.value? a = some v := by
  cases h with
  | known ha hv => exact hv
  | new hnew ha hv hs hf =>
    unfold Store.value?
    rw [ha, Interner.get?_eq_toList, hv, size, Interner.size_eq_length]
    exact List.getElem?_concat_length

/-- Placing a value makes it, unless there is no room for values. -/
theorem place_made (h : s.WellFormed) (v : Value) :
    Ends (place v s) (s.Made v) fun e t => t = s ∧ e = .exhausted ∧ maxValues ≤ s.size := by
  cases hf : s.find? v with
  | some a =>
    rw [place_of_known hf]
    obtain ⟨hv, ha⟩ := h.find?_eq_some_iff.mp hf
    exact .known ha hv
  | none =>
    by_cases hlt : s.size < maxValues
    · rw [place_of_new hf hlt]
      refine .new (fun ha b hb => ?_) (Addr.index_ofIndex (Nat.lt_of_lt_of_le hlt (by decide)))
        (Interner.toList_insert _ _) rfl rfl
      cases hf.symm.trans (h.find?_eq_some_iff.mpr ⟨hb, ha⟩)
    · rw [place_of_full hf hlt]
      exact ⟨rfl, rfl, Nat.le_of_not_lt hlt⟩

/-- Placing an abstract value gives its place, unless there is no room for values. -/
theorem place_ends (h : s.WellFormed) (v : Value) :
    Ends (place v s) (fun a t => t.value? a = some v)
      (fun e t => t = s ∧ e = .exhausted ∧ maxValues ≤ s.size) :=
  (place_made h v).imp_value fun _ _ hm => hm.value?

/-- Placing a value adds at most that value. -/
theorem place_value? {s t : Store} {v : Value} {a : Addr} (h : place v s = .ok a t) :
    t.functions = s.functions ∧
      ∀ c x, t.value? c = some x → s.value? c = some x ∨ c = a ∧ x = v := by
  cases hf : s.find? v with
  | some b =>
    rw [place_of_known hf] at h
    cases h
    exact ⟨rfl, fun c x hx => .inl hx⟩
  | none =>
    by_cases hlt : s.size < maxValues
    · rw [place_of_new hf hlt] at h
      cases h
      refine ⟨rfl, fun c x hx => ?_⟩
      have hx : (s.values.insert v).get? c.index = some x := hx
      rw [Interner.get?_insert] at hx
      split at hx
      · next hc =>
        refine .inr ⟨?_, (Option.some.inj hx).symm⟩
        rw [← Addr.ofIndex_index c, hc]
        rfl
      · exact .inl hx
    · rw [place_of_full hf hlt] at h
      cases h

/-- A sound shape is given its place, unless there is no room for shapes. -/
theorem shape_ends (h : s.WellFormed) {x : Shape} (hx : x.Sound s.shapes.size) :
    Ends (shape x s) (fun id t => t.shape? id = some x)
      (fun e t => t = s ∧ e = .exhausted ∧ maxEntries ≤ s.shapes.size) := by
  cases hf : s.shapes.find? x with
  | some id =>
    rw [shape_of_known hf]
    exact h.find?_shape_eq_some_iff.mp hf
  | none =>
    have hc := ShapeTable.check_eq_ok_iff.mpr hx
    by_cases hlt : s.shapes.size < maxEntries
    · rw [shape_of_new hf hc hlt]
      show (s.shapes.insert x).get? (ShapeId.ofIndex s.shapes.size).index = some x
      rw [ShapeId.index_ofIndex hlt]
      exact (Interner.get?_insert _ _ _).trans (if_pos rfl)
    · rw [shape_of_full hf hc hlt]
      exact ⟨rfl, rfl, Nat.le_of_not_lt hlt⟩

theorem intern_eq {v : Value} (ha : v.isAbstract = true) :
    intern v s = (ask (·.validate v) >>= fun _ => place v) s := by
  cases v with
  | concrete t external => cases ha
  | _ => rfl

/-- A valid value needs a place only. -/
theorem intern_of_valid {v : Value} (ha : v.isAbstract = true) (hv : s.Valid v) :
    intern v s = place v s := by
  rw [intern_eq ha, run_bind_of_ok (ask_eq_ok_iff.mpr ⟨validate_eq_ok_iff.mpr hv, rfl⟩)]

/-- A value that is nowhere in the store is added at the end. -/
theorem intern_of_new (h : s.WellFormed) {v : Value} (ha : v.isAbstract = true)
    (hv : s.validate v = .ok ()) (hnew : v ∉ s.values.toList) (hlt : s.size < maxValues) :
    intern v s = .ok (Addr.ofIndex s.size) { s with values := s.values.insert v } := by
  rw [intern_of_valid ha (validate_eq_ok_iff.mp hv)]
  exact place_of_new (h.find?_eq_none hnew) hlt

/-- What is there already is found again. -/
theorem intern_known (h : s.WellFormed) {v : Value} {a : Addr} (ha : v.isAbstract = true)
    (hv : s.value? a = some v) : intern v s = .ok a s := by
  rw [intern_of_valid ha (h.valid' hv)]
  exact place_of_known (h.find?_eq_some_iff.mpr ⟨hv, ha⟩)

/-- Interning an abstract value gives its place, unless it is refused or the store is
full. -/
theorem intern_ends (h : s.WellFormed) {v : Value} (ha : v.isAbstract = true) :
    Ends (intern v s) (fun a t => t.value? a = some v)
      (fun e t => t = s ∧ (s.validate v = .error e ∨ e = .exhausted ∧ maxValues ≤ s.size)) := by
  rw [intern_eq ha]
  refine Ends.bind (ask_ends (fun _ _ => ?_) fun e he => ⟨rfl, .inl he⟩)
  exact (place_ends h v).imp (fun _ _ hv => hv) fun _ _ he => he.imp_right .inr

/-- A valid value is only refused for want of room. -/
theorem intern_valid (h : s.WellFormed) {v : Value} (ha : v.isAbstract = true) (hv : s.Valid v) :
    Ends (intern v s) (fun a t => t.value? a = some v)
      (fun e t => t = s ∧ e = .exhausted ∧ maxValues ≤ s.size) := by
  rw [intern_of_valid ha hv]
  exact place_ends h v

/-- Interning an abstract value adds at most that value. -/
theorem intern_value? {t : Store} {v : Value} {a : Addr} (ha : v.isAbstract = true)
    (h : intern v s = .ok a t) {c : Addr} {x : Value} (hx : t.value? c = some x) :
    s.value? c = some x ∨ c = a ∧ x = v := by
  rw [intern_eq ha] at h
  obtain ⟨_, u, hask, hplace⟩ := run_bind_eq_ok_iff.mp h
  obtain ⟨-, rfl⟩ := ask_eq_ok_iff.mp hask
  exact (place_value? hplace).2 c x hx

/-! ### Why a value is refused -/

/-- What a value names is there. -/
def Named (s : Store) (v : Value) : Prop :=
  (∀ a ∈ v.children, s.Holds a) ∧
  match v with
  | .ring bits x => Ring.IsWidth bits ∧ Ring.truncate bits x = x
  | .cotuple t tag _ => ∃ alternatives, s.shape? t = some (.cotuple alternatives) ∧
      tag.toNat < alternatives.size
  | .function f _ => ∃ b, s.body? f = some b
  | .nil elem => s.Knows elem
  | .cons elem _ tail => s.IsListOf elem tail
  | .universal domain predicate | .existential domain predicate =>
      s.Knows domain ∧ s.IsPredicate domain predicate
  | .text _ | .tuple _ | .flex _ | .char _ | .identity _ | .concrete _ _ => True

/-- Conformance does not complain of a value and a shape that are there. -/
theorem conforms_eq {a : Addr} {t : ShapeId} (ha : s.Holds a) (ht : s.Knows t) :
    s.conforms a t = .ok (s.fits a t) := by
  obtain ⟨v, hv⟩ := ha
  obtain ⟨shape, hs⟩ := knows_iff.mp ht
  have hr : s.resolve a = .ok v := resolve_eq_ok_iff.mpr hv
  have hl : s.shapes.lookup t = .ok shape := ShapeTable.lookup_eq_ok_iff.mpr hs
  unfold conforms
  rw [hr, hl]
  rfl

theorem checkConforms_error {a : Addr} {t : ShapeId} {e : StoreError} (ha : s.Holds a)
    (ht : s.Knows t) (h : s.checkConforms a t = .error e) : e = .mismatch (.nonconforming a t) := by
  unfold checkConforms at h
  rw [conforms_eq ha ht] at h
  change (if s.fits a t = true then _ else _) = _ at h
  split at h
  · cases h
  · cases h
    rfl

theorem checkLength_error {n : Nat} {m : Mismatch} (h : checkLength n = .error m) :
    m = .tooLong n := by
  unfold checkLength at h
  split at h
  · cases h
  · cases h
    rfl

/-- The shapes that a known shape names are known. -/
theorem WellFormed.knows_of_child (h : s.WellFormed) {t child : ShapeId} {shape : Shape}
    (hs : s.shape? t = some shape) (hc : child ∈ shape.children) : s.Knows child :=
  Nat.lt_trans ((h.shapes.sound _ _ hs).1 child hc) (Interner.lt_size hs)

/-- A value whose names are there is only refused for the shape of a child, or for its
size. -/
theorem validate_error (h : s.WellFormed) {v : Value} {e : StoreError} (hn : s.Named v)
    (he : s.validate v = .error e) :
    (∃ a t, e = .mismatch (.nonconforming a t)) ∨ e = .mismatch (.tooLong v.size) := by
  have hlookup {t : ShapeId} {e : StoreError} (ht : s.Knows t) :
      (discard (liftM (s.shapes.lookup t)) : Except StoreError Unit) ≠ .error e := by
    obtain ⟨shape, hs⟩ := knows_iff.mp ht
    rw [ShapeTable.lift_lookup_eq_ok_iff.mpr hs]
    exact fun h => by cases h
  have hlength {n : Nat} (he : (liftM (checkLength n) : Except StoreError Unit) = .error e) :
      e = .mismatch (.tooLong n) := by
    obtain ⟨m, hm, rfl⟩ := mapError_eq_error_iff.mp he
    rw [checkLength_error hm]
  obtain ⟨hchildren, hn⟩ := hn
  have hresolve : ∀ a ∈ v.children,
      (discard (liftM (s.resolve a)) : Except StoreError Unit) = .ok () := fun a ha => by
    obtain ⟨x, hx⟩ := hchildren a ha
    exact discard_eq_ok_iff.mpr ⟨x, lift_resolve_eq_ok_iff.mpr hx⟩
  unfold validate at he
  rcases bind_eq_error_iff.mp he with he | ⟨_, -, he⟩
  · have hok : _ = Except.ok () := forM_eq_ok_iff.mpr hresolve
    cases hok.symm.trans he
  · cases v with
    | ring bits x => exact absurd hn (guard_eq_error_iff.mp he).1
    | cotuple t tag payload =>
      obtain ⟨alternatives, hs, htag⟩ := hn
      have ha : (liftM (s.shapes.alternatives t) : Except StoreError _) = .ok alternatives :=
        ShapeTable.lift_alternatives_eq_ok_iff.mpr hs
      have hwant : s.Knows alternatives[tag.toNat] :=
        h.knows_of_child hs (Array.mem_toList_iff.mpr (Array.getElem_mem htag))
      rcases bind_eq_error_iff.mp he with he | ⟨found, hfound, he⟩
      · cases ha.symm.trans he
      · cases ha.symm.trans hfound
        rw [Array.getElem?_eq_getElem htag] at he
        exact .inl ⟨_, _, checkConforms_error (hchildren payload List.mem_cons_self) hwant he⟩
    | text _ => exact .inr (hlength he)
    | tuple _ => exact .inr (hlength he)
    | function f captures =>
      obtain ⟨b, hb⟩ := hn
      have hbody : (discard (liftM (s.body f)) : Except StoreError Unit) = .ok () :=
        discard_eq_ok_iff.mpr ⟨b, lift_body_eq_ok_iff.mpr hb⟩
      rcases bind_eq_error_iff.mp he with he | ⟨_, -, he⟩
      · exact .inr (hlength he)
      · cases hbody.symm.trans he
    | nil elem => exact absurd he (hlookup hn)
    | cons elem head tail =>
      have helem : s.elemShape tail = .ok elem := elemShape_eq_ok_iff.mpr hn
      have hk : s.Knows elem := by
        rcases hn with hv | ⟨_, _, hv⟩ <;> exact h.named _ _ hv elem List.mem_cons_self
      rcases bind_eq_error_iff.mp he with he | ⟨found, hfound, he⟩
      · cases helem.symm.trans he
      · cases helem.symm.trans hfound
        rw [if_pos rfl] at he
        exact .inl ⟨_, _, checkConforms_error (hchildren head List.mem_cons_self) hk he⟩
    | universal domain predicate =>
      rcases bind_eq_error_iff.mp he with he | ⟨_, -, he⟩
      · exact absurd he (hlookup hn.1)
      · cases (checkPredicate_eq_ok_iff.mpr hn.2).symm.trans he
    | existential domain predicate =>
      rcases bind_eq_error_iff.mp he with he | ⟨_, -, he⟩
      · exact absurd he (hlookup hn.1)
      · cases (checkPredicate_eq_ok_iff.mpr hn.2).symm.trans he
    | _ => cases he

/-- A value whose names are there is interned, or refused for reasons that lie in it. -/
theorem intern_named (h : s.WellFormed) {v : Value} (ha : v.isAbstract = true) (hn : s.Named v) :
    Ends (intern v s) (fun a t => t.Holds a) fun e _ => e.Plain := by
  refine (intern_ends h ha).imp (fun a t hv => ⟨v, hv⟩) ?_
  rintro e t ⟨-, he | ⟨rfl, -⟩⟩
  · rcases validate_error h hn he with ⟨x, id, rfl⟩ | rfl <;> trivial
  · trivial

/-- A value that is there can be asked for. -/
theorem ask_holds {a : Addr} {E : StoreError → Store → Prop} (ha : s.Holds a) :
    Ends (ask (fun s => discard (s.resolve a)) s) (fun _ t => t = s ∧ True) E := by
  obtain ⟨v, hv⟩ := ha
  have hr : (liftM (s.resolve a) : Except StoreError Value) = .ok v :=
    lift_resolve_eq_ok_iff.mpr hv
  refine ask_ends (fun _ _ => ⟨rfl, trivial⟩) fun e he => ?_
  have hok : _ = Except.ok () := discard_eq_ok_iff.mpr ⟨v, hr⟩
  cases hok.symm.trans he

end Store

end ValueMachine
