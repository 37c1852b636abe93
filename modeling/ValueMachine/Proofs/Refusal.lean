import ValueMachine.Proofs.Lists
import ValueMachine.Proofs.Store.Principal

/-! What is refused leaves no trace.

A value is looked at before it is stored, so a refused one changes nothing, and an accepted one
takes one place at most, behind all others (`Store.Made`). A body comes to stand before the
value of its function does; but the value is new, because no value of a function is stored
before the function is there, and so it is refused for want of room only. A list is built cell
by cell, and what has been built when a cell is refused is the list of the items behind it
(`Store.list_refused`). -/
namespace ValueMachine

namespace Store

variable {s t : Store} {v : Value} {elem : ShapeId} {items : List Addr}

/-! ### Values -/

theorem concrete_made (id : ShapeId) (external : UInt64) :
    Ends (concrete id external s) (s.Made (.concrete id external)) fun _ t => t = s := by
  refine Ends.bind (ask_ends (fun _ _ => ?_) fun _ _ => rfl)
  by_cases hlt : s.size < maxValues
  · rw [placeConcrete_of_room _ hlt]
    exact .new (fun ha => by cases ha) (Addr.index_ofIndex (Nat.lt_of_lt_of_le hlt (by decide)))
      (Interner.toList_append _ _) rfl rfl
  · rw [placeConcrete_of_full _ hlt]
    rfl

theorem intern_made (h : s.WellFormed) (v : Value) :
    Ends (intern v s) (s.Made v) fun _ t => t = s := by
  by_cases ha : v.isAbstract = true
  · rw [intern_eq ha]
    refine Ends.bind (ask_ends (fun _ _ => ?_) fun _ _ => rfl)
    exact (place_made h v).imp (fun _ _ hm => hm) fun _ _ he => he.1
  · cases v with
    | concrete id external => exact concrete_made id external
    | _ => exact absurd rfl ha

end Store

/-- A call that gives the place of a value. -/
inductive Construction
  | intern (v : Value)
  | concrete (t : ShapeId) (external : UInt64)
  | ring (bits : UInt8) (x : UInt64)
  | flex (x : Flex)
  | char (c : Char)
  | text (t : String)
  | tuple (items : List Addr)
  | cotuple (t : ShapeId) (tag : UInt32) (payload : Addr)
  | nil (elem : ShapeId)
  | cons (head tail : Addr)
  | identity (a b : Addr)
  | closure (func : Addr) (captures : List Addr)
  | universal (domain : ShapeId) (predicate : Addr)
  | existential (domain : ShapeId) (predicate : Addr)

namespace Construction

def run : Construction → StoreM Addr
  | intern v => Store.intern v
  | concrete t external => Store.concrete t external
  | ring bits x => Store.ring bits x
  | flex x => Store.flex x
  | char c => Store.char c
  | text t => Store.text t
  | tuple items => Store.tuple items
  | cotuple t tag payload => Store.cotuple t tag payload
  | nil elem => Store.nil elem
  | cons head tail => Store.cons head tail
  | identity a b => Store.identity a b
  | closure func captures => Store.closure func captures
  | universal domain predicate => Store.universal domain predicate
  | existential domain predicate => Store.existential domain predicate

/-- The value whose place is asked for, as far as there is one. -/
def content? (s : Store) : Construction → Option Value
  | intern v => some v
  | concrete t external => some (.concrete t external)
  | ring bits x => some (.ring bits x)
  | flex x => some (.flex x)
  | char c => some (.char c)
  | text t => some (.text t)
  | tuple items => some (.tuple items.toArray)
  | cotuple t tag payload => some (.cotuple t tag payload)
  | nil elem => some (.nil elem)
  | cons head tail =>
    match s.value? tail with
    | some (.nil elem) | some (.cons elem _ _) => some (.cons elem head tail)
    | _ => none
  | identity a b => if a = b then some (.identity a) else none
  | closure func captures =>
    match s.value? func with
    | some (.function f existing) => some (.function f (existing ++ captures))
    | _ => none
  | universal domain predicate => some (.universal domain predicate)
  | existential domain predicate => some (.existential domain predicate)

open Store in
/-- A construction makes its value or leaves the store as it is. -/
theorem run_ends {s : Store} (h : s.WellFormed) (c : Construction) :
    Ends (c.run s) (fun a t => ∃ v, c.content? s = some v ∧ s.Made v a t) fun _ t => t = s := by
  have hmade {v : Value} (hv : c.content? s = some v) :
      Ends (Store.intern v s) (fun a t => ∃ v, c.content? s = some v ∧ s.Made v a t)
        fun _ t => t = s := (intern_made h v).imp_value fun _ _ ht => ⟨v, hv, ht⟩
  cases c with
  | concrete t external => exact (concrete_made t external).imp_value fun _ _ ht => ⟨_, rfl, ht⟩
  | cons head tail =>
    refine Ends.bind (ask_ends (fun elem he => hmade ?_) fun _ _ => rfl)
    rcases elemShape_eq_ok_iff.mp he with hv | ⟨x, xs, hv⟩ <;> simp only [content?, hv]
  | identity a b =>
    refine Ends.bind (ask_ends (fun _ _ => ?_) fun _ _ => rfl)
    refine Ends.bind (ask_ends (fun _ _ => ?_) fun _ _ => rfl)
    split
    · next hab => exact hmade (if_pos hab)
    · exact Ends.throw rfl
  | closure func captures =>
    refine Ends.bind (ask_ends (fun v hv => ?_) fun _ _ => rfl)
    have hv : s.value? func = some v := lift_resolve_eq_ok_iff.mp hv
    cases v with
    | function f existing => exact hmade (by simp only [content?, hv])
    | _ => exact Ends.throw rfl
  | _ => exact hmade rfl

end Construction

namespace Store

variable {s t : Store} {v : Value} {elem : ShapeId} {items : List Addr}

/-! ### Shapes and functions -/

theorem shape_refused (x : Shape) (s : Store) :
    Ends (shape x s) (fun _ _ => True) fun _ t => t = s := by
  cases hf : s.shapes.find? x with
  | some id =>
    rw [shape_of_known hf]
    trivial
  | none =>
    cases hc : s.shapes.check x with
    | error m =>
      rw [shape_of_unsound hf hc]
      rfl
    | ok u =>
      by_cases hlt : s.shapes.size < maxEntries
      · rw [shape_of_new hf hc hlt]
        trivial
      · rw [shape_of_full hf hc hlt]
        rfl

theorem shapeOf_refused (h : s.WellFormed) (a : Addr) :
    Ends (shapeOf a s) (fun _ _ => True) fun e t => e = .exhausted ∨ t = s := by
  by_cases ha : s.Holds a
  · exact (shapeOf_ends h ha).imp (fun _ _ _ => trivial) fun _ _ he => .inl he.exhausted
  · refine Ends.bind (ask_ends (fun v hv => ?_) fun _ _ => .inr rfl)
    exact absurd ⟨v, lift_resolve_eq_ok_iff.mp hv⟩ ha

/-- No value of a function is there before the function is. -/
theorem WellFormed.function_new (h : s.WellFormed) (hlt : s.functions.size < maxEntries)
    (captures : Array Addr) (a : Addr) :
    s.value? a ≠ some (.function (FuncId.ofIndex s.functions.size) captures) := by
  intro hv
  obtain ⟨-, -, b, hb⟩ := h.valid' hv
  have hb : s.functions[(FuncId.ofIndex s.functions.size).index]? = some b := hb
  rw [FuncId.index_ofIndex hlt, Array.getElem?_eq_none (Nat.le_refl _)] at hb
  cases hb

/-- The body and the value of the function that captures nothing are behind all others. -/
structure Registered (s : Store) (b : Body) (a : Addr) (t : Store) : Prop where
  index : a.index = s.size
  values : t.values.toList =
    s.values.toList ++ [.function (FuncId.ofIndex s.functions.size) #[]]
  shapes : t.shapes = s.shapes
  functions : t.functions = s.functions.push b

theorem register_ends (h : s.WellFormed) (b : Body) :
    Ends (register b s) (s.Registered b) fun e t => e = .exhausted ∨ t = s := by
  refine Ends.bind (ask_ends (fun _ _ => ?_) fun _ _ => .inr rfl)
  by_cases hlt : s.functions.size < maxEntries
  · rw [run_bind_of_ok (placeBody_of_room b hlt)]
    have hnone : s.find? (.function (FuncId.ofIndex s.functions.size) #[]) = none :=
      Option.eq_none_iff_forall_ne_some.mpr fun a ha =>
        h.function_new hlt #[] a (h.find?_eq_some_iff.mp ha).1
    by_cases hroom : s.size < maxValues
    · rw [place_of_new (by exact hnone) (by exact hroom)]
      exact ⟨Addr.index_ofIndex (Nat.lt_of_lt_of_le hroom (by decide)),
        Interner.toList_insert _ _, rfl, rfl⟩
    · rw [place_of_full (by exact hnone) (by exact hroom)]
      exact .inl rfl
  · rw [run_bind_of_error (placeBody_of_full b hlt)]
    exact .inr rfl

/-! ### Lists -/

theorem cons_refused (head tail : Addr) (s : Store) :
    Ends (cons head tail s) (fun _ _ => True) fun _ t => t = s :=
  Ends.bind (ask_ends (fun _ _ => (intern_adds rfl s).imp_value fun _ _ _ => trivial) fun _ _ => rfl)

theorem nil_of_unknown (he : ¬s.Knows elem) :
    nil elem s = .error (.mismatch (.unknownShape elem)) s := by
  have hlookup : s.shapes.lookup elem = .error (.unknownShape elem) := by
    unfold ShapeTable.lookup
    cases hx : s.shapes.get? elem.index with
    | none => rfl
    | some x => exact absurd (knows_iff.mpr ⟨x, hx⟩) he
  have hvalid : s.validate (.nil elem) = .error (.mismatch (.unknownShape elem)) := by
    show discard (liftM (s.shapes.lookup elem) : Except StoreError Shape) = _
    rw [hlookup]
    rfl
  have hask : ask (·.validate (.nil elem)) s = .error (.mismatch (.unknownShape elem)) s := by
    unfold ask
    dsimp only
    rw [hvalid]
  exact run_bind_of_error hask

theorem list_of_unknown (he : ¬s.Knows elem) (items : List Addr) :
    Store.list elem items s = .error (.mismatch (.unknownShape elem)) s := by
  induction items with
  | nil => rw [list_nil, nil_of_unknown he]
  | cons item items ih => rw [list_cons, run_bind_of_error ih]

/-- A list is refused with one of its cells, when the list of the items behind it is there. -/
theorem list_refused (h : s.WellFormed) (he : s.Knows elem) {e : StoreError}
    (hl : Store.list elem items s = .error e t) :
    (t = s ∧ e = .exhausted) ∨ ∃ k, ∃ hk : k < items.length, ∃ rest,
      Store.list elem (items.drop (k + 1)) s = .ok rest t ∧ cons items[k] rest t = .error e t := by
  induction items with
  | nil =>
    rw [list_nil] at hl
    obtain ⟨ht, hfull, -⟩ := (intern_valid h rfl (valid_nil he)).of_error hl
    exact .inl ⟨ht, hfull⟩
  | cons item items ih =>
    rw [list_cons] at hl
    cases hr : Store.list elem items s with
    | error e' u =>
      rw [run_bind_of_error hr] at hl
      cases hl
      refine (ih hr).imp_right ?_
      rintro ⟨k, hk, hrest⟩
      exact ⟨k + 1, Nat.succ_lt_succ hk, hrest⟩
    | ok rest u =>
      rw [run_bind_of_ok hr] at hl
      obtain rfl := (cons_refused item rest u).of_error hl
      exact .inr ⟨0, Nat.succ_pos _, rest, hr, hl⟩

end Store

open Store

/-- **Refused constructions leave no trace**, but for want of room. A construction that fails
leaves the store as it is, and so do shapes, the shape of a value and a function. One that
succeeds adds its value if this is concrete or was nowhere, and nothing else. A function that
is accepted adds its body and its value, in the next places. A list that fails has added the
cells behind the one that is refused, and nothing if the shape of its elements is not known. -/
theorem Reachable.refusals_leave_no_trace {s : Store} (hs : Reachable s) :
    (∀ c : Construction, Ends (c.run s) (fun a t => ∃ v, c.content? s = some v ∧ s.Made v a t)
      fun _ t => t = s) ∧
    (∀ x, Ends (shape x s) (fun _ _ => True) fun _ t => t = s) ∧
    (∀ a, Ends (shapeOf a s) (fun _ _ => True) fun e t => e = .exhausted ∨ t = s) ∧
    (∀ b, Ends (register b s) (s.Registered b) fun e t => e = .exhausted ∨ t = s) ∧
    ∀ elem items,
      (¬s.Knows elem → list elem items s = .error (.mismatch (.unknownShape elem)) s) ∧
      ∀ e t, s.Knows elem → list elem items s = .error e t →
        (t = s ∧ e = .exhausted) ∨ ∃ k, ∃ hk : k < items.length, ∃ rest,
          list elem (items.drop (k + 1)) s = .ok rest t ∧ cons items[k] rest t = .error e t :=
  have h := hs.wellFormed
  ⟨Construction.run_ends h, fun x => shape_refused x s, shapeOf_refused h, register_ends h,
    fun _ items => ⟨fun he => list_of_unknown he items, fun _ _ he => list_refused h he⟩⟩

/-- A number that is too large, a body without code, and a list of elements of no known shape. -/
theorem Reachable.refusals_leave_no_trace_initial :
    (∃ e t, (Construction.ring 8 256).run .initial = .error e t ∧ t = .initial) ∧
    (∃ e t, register ⟨[], ShapeId.unit, 0, #[]⟩ .initial = .error e t ∧ t = .initial) ∧
    list ⟨9⟩ [Addr.unit] .initial = .error (.mismatch (.unknownShape ⟨9⟩)) .initial := by
  obtain ⟨hmade, -, -, hregister, hlist⟩ := Reachable.refusals_leave_no_trace .initial
  have hring : (Construction.ring 8 256).run .initial =
      .error (.mismatch (.ringRange 8 256)) .initial := rfl
  have hbody : register ⟨[], ShapeId.unit, 0, #[]⟩ .initial =
      .error (.mismatch .emptyBody) .initial := rfl
  have hsame := ((hregister _).of_error hbody).resolve_left (by decide)
  have hunknown : ¬Store.initial.Knows ⟨9⟩ := by
    unfold Knows
    decide
  exact ⟨⟨_, _, hring, (hmade _).of_error hring⟩, ⟨_, _, hbody, hsame⟩, (hlist ⟨9⟩ _).1 hunknown⟩

end ValueMachine
