import ValueMachine.Proofs.Store.WellFormed
import ValueMachine.Store.Enumerate

/-! Every operation of a store only adds to it, and adds nothing unsound.

A store `Grows` into another when, if it is well-formed, so is the other, which
then has every entry of the first at the same place. An operation that follows
`Grows` does so whether it succeeds or fails. Only the steps that place a value, a
shape or a body add anything; every operation is made of these and of questions, so
it follows `Grows` because its parts do. Operations that only intern abstract values
follow every relation that interning follows (`Interns`). -/
namespace ValueMachine

namespace Store

/-- The second store has all that the first one has, if that is well-formed, and is
well-formed itself. -/
def Grows (s t : Store) : Prop := s.WellFormed → s.Extends t ∧ t.WellFormed

instance : IsPreorder Store Grows where
  refl s := fun h => ⟨.refl s, h⟩
  trans s t u hst htu := fun h => by
    obtain ⟨hs, ht⟩ := hst h
    obtain ⟨hs', hu⟩ := htu ht
    exact ⟨hs.trans hs', hu⟩

/-! ### Questions -/

@[simp] theorem ask_state {α : Type} (question : Store → Except StoreError α) (s : Store) :
    (ask question s).state = s := by
  unfold ask
  split <;> rfl

theorem ask_eq_ok_iff {α : Type} {question : Store → Except StoreError α} {s t : Store} {x : α} :
    ask question s = .ok x t ↔ question s = .ok x ∧ t = s := by
  unfold ask
  split
  · next y hy => simp [hy, eq_comm]
  · next e he => simp [he]

theorem ask_follows {α : Type} {R : Store → Store → Prop} [IsPreorder Store R]
    (question : Store → Except StoreError α) : Follows R (ask question) := by
  intro s
  rw [ask_state]
  exact refl_of R s

/-- What follows a question may use the answer. -/
theorem ask_bind_follows {α β : Type} {R : Store → Store → Prop} [IsPreorder Store R]
    {question : Store → Except StoreError α} {next : α → StoreM β}
    (h : ∀ s x, question s = .ok x → R s (next x s).state) :
    Follows R (ask question >>= next) := by
  intro s
  show R s (EStateM.bind (ask question) next s).state
  unfold EStateM.bind ask
  cases hq : question s with
  | ok x => exact h s x hq
  | error e => exact refl_of R s

/-! ### The steps that add -/

section Steps
variable {s : Store}

theorem place_of_known {v : Value} {a : Addr} (h : s.find? v = some a) : place v s = .ok a s := by
  unfold place
  rw [h]

theorem place_of_new {v : Value} (h : s.find? v = none) (hlt : s.size < maxValues) :
    place v s = .ok (Addr.ofIndex s.size) { s with values := s.values.insert v } := by
  unfold place
  rw [h]
  exact if_pos hlt

theorem place_of_full {v : Value} (h : s.find? v = none) (hlt : ¬s.size < maxValues) :
    place v s = .error .exhausted s := by
  unfold place
  rw [h]
  exact if_neg hlt

theorem placeConcrete_of_room (v : Value) (hlt : s.size < maxValues) :
    placeConcrete v s = .ok (Addr.ofIndex s.size) { s with values := s.values.append v } :=
  if_pos hlt

theorem placeConcrete_of_full (v : Value) (hlt : ¬s.size < maxValues) :
    placeConcrete v s = .error .exhausted s := if_neg hlt

theorem placeBody_of_room (b : Body) (hlt : s.functions.size < maxEntries) :
    placeBody b s = .ok (FuncId.ofIndex s.functions.size)
      { s with functions := s.functions.push b } := if_pos hlt

theorem placeBody_of_full (b : Body) (hlt : ¬s.functions.size < maxEntries) :
    placeBody b s = .error .exhausted s := if_neg hlt

theorem shape_of_known {x : Shape} {t : ShapeId} (h : s.shapes.find? x = some t) :
    shape x s = .ok t s := by
  unfold shape
  rw [h]

theorem shape_of_unsound {x : Shape} {m : Mismatch} (h : s.shapes.find? x = none)
    (hc : s.shapes.check x = .error m) : shape x s = .error (.mismatch m) s := by
  unfold shape
  rw [h]
  simp only [hc]

theorem shape_of_new {x : Shape} (h : s.shapes.find? x = none) (hc : s.shapes.check x = .ok ())
    (hlt : s.shapes.size < maxEntries) :
    shape x s = .ok (ShapeId.ofIndex s.shapes.size) { s with shapes := s.shapes.insert x } := by
  unfold shape
  rw [h]
  simp only [hc]
  exact if_pos hlt

theorem shape_of_full {x : Shape} (h : s.shapes.find? x = none) (hc : s.shapes.check x = .ok ())
    (hlt : ¬s.shapes.size < maxEntries) : shape x s = .error .exhausted s := by
  unfold shape
  rw [h]
  simp only [hc]
  exact if_neg hlt

/-- An abstract value that is valid names only known shapes. -/
theorem Valid.knows {v : Value} (hv : s.Valid v) (ha : v.isAbstract = true) :
    ∀ t ∈ v.shapes, s.Knows t := by
  have hv := hv.2
  cases v with
  | cotuple id tag payload =>
    obtain ⟨alternatives, want, hs, -⟩ := hv
    exact List.forall_mem_singleton.mpr (Interner.lt_size hs)
  | nil elem => exact List.forall_mem_singleton.mpr hv
  | cons elem head tail =>
    obtain ⟨-, shape, hs⟩ := holds_of_fits hv.2
    exact List.forall_mem_singleton.mpr (Interner.lt_size hs)
  | universal domain predicate => exact List.forall_mem_singleton.mpr hv.1
  | existential domain predicate => exact List.forall_mem_singleton.mpr hv.1
  | concrete => cases ha
  | _ => exact fun _ h => absurd h List.not_mem_nil

theorem place_grows {v : Value} (hv : s.Valid v) (ha : v.isAbstract = true) :
    s.Grows (place v s).state := by
  intro h
  cases hf : s.find? v with
  | some a =>
    rw [place_of_known hf]
    exact ⟨.refl s, h⟩
  | none =>
    by_cases hlt : s.size < maxValues
    · have hnew : s.values.find? v = none := by simpa [find?, ha] using hf
      rw [place_of_new hf hlt]
      exact h.addValue (Interner.get?_insert _ _) (Interner.size_insert _ _) hlt
        (Interner.indexed_insert h.indexed hnew ha) hv (hv.knows ha)
    · rw [place_of_full hf hlt]
      exact ⟨.refl s, h⟩

end Steps

theorem concrete_grows (t : ShapeId) (external : UInt64) : Follows Grows (concrete t external) := by
  refine ask_bind_follows fun s _ hq h => ?_
  have hk : s.Knows t := by
    obtain ⟨shape, hs⟩ := discard_eq_ok_iff.mp hq
    exact ShapeTable.lift_lookup_known_iff.mp ⟨shape, hs⟩
  by_cases hlt : s.size < maxValues
  · rw [placeConcrete_of_room _ hlt]
    exact h.addValue (Interner.get?_append _ _) (Interner.size_append _ _) hlt
      (Interner.indexed_append h.indexed rfl) ⟨fun _ ha => absurd ha List.not_mem_nil, trivial⟩
      (List.forall_mem_singleton.mpr hk)
  · rw [placeConcrete_of_full _ hlt]
    exact ⟨.refl s, h⟩

theorem shape_grows (x : Shape) : Follows Grows (shape x) := by
  intro s h
  cases hf : s.shapes.find? x with
  | some t =>
    rw [shape_of_known hf]
    exact ⟨.refl s, h⟩
  | none =>
    cases hc : s.shapes.check x with
    | error m =>
      rw [shape_of_unsound hf hc]
      exact ⟨.refl s, h⟩
    | ok _ =>
      by_cases hlt : s.shapes.size < maxEntries
      · have hnew : Interner.find? s.shapes x = none := by simpa [ShapeTable.find?] using hf
        rw [shape_of_new hf hc hlt]
        exact h.addShape hlt hnew (ShapeTable.check_eq_ok_iff.mp hc)
      · rw [shape_of_full hf hc hlt]
        exact ⟨.refl s, h⟩

/-- The body is placed first; then the function value that names it is valid. -/
theorem register_grows (b : Body) : Follows Grows (register b) := by
  refine ask_bind_follows fun s _ hq => ?_
  show Grows s (EStateM.bind (placeBody b) (fun f => place (.function f #[])) s).state
  unfold EStateM.bind
  by_cases hlt : s.functions.size < maxEntries
  · rw [placeBody_of_room b hlt]
    have hbody : (s.functions.push b)[(FuncId.ofIndex s.functions.size).index]? = some b := by
      rw [FuncId.index_ofIndex hlt]
      exact Array.getElem?_push_size
    intro h
    obtain ⟨hst, ht⟩ := h.addBody (Body.verify_eq_ok_iff.mp hq)
    have hv : ({ s with functions := s.functions.push b } : Store).Valid
        (.function (FuncId.ofIndex s.functions.size) #[]) :=
      ⟨fun _ ha => absurd ha List.not_mem_nil, Nat.two_pow_pos 32, b, hbody⟩
    obtain ⟨htu, hu⟩ := place_grows hv rfl ht
    exact ⟨hst.trans htu, hu⟩
  · rw [placeBody_of_full b hlt]
    exact fun h => ⟨.refl s, h⟩

/-! ### Values that are asked for -/

theorem intern_grows (v : Value) : Follows Grows (intern v) := by
  unfold intern
  split
  · exact concrete_grows _ _
  · next hv =>
    refine ask_bind_follows fun s _ hq => ?_
    have ha : v.isAbstract = true := by
      cases v with
      | concrete t external => exact absurd rfl (hv t external)
      | _ => rfl
    exact place_grows (validate_eq_ok_iff.mp hq) ha

/-! ### Operations that are made of these -/

/-- The relation is kept to whenever an abstract value is interned. -/
def Interns (R : Store → Store → Prop) : Prop :=
  ∀ v : Value, v.isAbstract = true → Follows R (intern v)

theorem interns_grows : Interns Grows := fun v _ => intern_grows v

section Interning
variable {R : Store → Store → Prop} [IsPreorder Store R] (hi : Interns R)
include hi

theorem cons_follows (head tail : Addr) : Follows R (cons head tail) :=
  .bind (ask_follows _) fun _ => hi _ rfl

theorem list_follows (elem : ShapeId) (items : List Addr) : Follows R (list elem items) :=
  .bind (hi _ rfl) fun _ => .foldlM (fun rest item => cons_follows hi item rest) _ _

theorem identity_follows (a b : Addr) : Follows R (identity a b) := by
  refine .bind (ask_follows _) fun _ => .bind (ask_follows _) fun _ => ?_
  split
  · exact hi _ rfl
  · exact .throw _

theorem closure_follows (func : Addr) (captures : List Addr) :
    Follows R (closure func captures) := by
  refine .bind (ask_follows _) fun v => ?_
  cases v with
  | function f existing => exact hi _ rfl
  | _ => exact .throw _

theorem inhabitantsWithin_follows (depth : Nat) (t : ShapeId) :
    Follows R (inhabitantsWithin depth t) := by
  induction depth generalizing t with
  | zero => exact .pure _
  | succ depth ih =>
    refine .bind (ask_follows _) fun x => ?_
    cases x with
    | ring bits => exact .mapM (fun _ => hi _ rfl) _
    | char width => exact .mapM (fun _ => hi _ rfl) _
    | tuple items => exact .bind (.mapM ih _) fun _ => .mapM (fun _ => hi _ rfl) _
    | cotuple alternatives =>
      refine .bind (.mapM (fun ⟨alternative, tag⟩ => ?_) _) fun _ => .pure _
      exact .bind (ih alternative) fun _ => .mapM (fun _ => hi _ rfl) _
    | identity of => exact .bind (ih of) fun _ => .mapM (fun x => identity_follows hi x x) _
    | _ => exact .pure _

theorem enumerate_follows (t : ShapeId) (limit : Nat) : Follows R (enumerate t limit) := by
  refine .bind (ask_follows _) fun n => ?_
  cases n with
  | none => exact .pure _
  | some n =>
    show Follows R (ite _ _ _)
    split
    · exact .bind (inhabitantsWithin_follows hi _ _) fun _ => .pure _
    · exact .pure _

end Interning

/-! ### The shape of a value -/

theorem shapeOfWithin_grows (depth : Nat) (a : Addr) : Follows Grows (shapeOfWithin depth a) := by
  induction depth generalizing a with
  | zero => exact fun s => refl_of Grows s
  | succ depth ih =>
    refine .bind (ask_follows _) fun v => ?_
    cases v with
    | tuple items => exact .bind (.mapM ih _) fun _ => shape_grows _
    | function f captures => exact .bind (ask_follows _) fun _ => shape_grows _
    | identity x => exact .bind (ih x) fun _ => shape_grows _
    | cotuple t tag payload => exact .pure _
    | concrete t external => exact .pure _
    | _ => exact shape_grows _

theorem shapeOf_grows (a : Addr) : Follows Grows (shapeOf a) := shapeOfWithin_grows _ a

end Store

end ValueMachine
