import ValueMachine.Proofs.Store.Enumeration

/-! Lists in a store.

A list is a chain of cells, each behind its tail and its head (`ListOf`). Every value that
a list cell or an empty list begins is a list all the way down, of items that have the
shape of its elements (`listOf_of_isListOf`). -/
namespace ValueMachine

namespace Store

variable {s t : Store} {elem : ShapeId} {items : List Addr} {list : Addr}

/-- The place holds the list of the items. -/
def ListOf (s : Store) (elem : ShapeId) : List Addr → Addr → Prop
  | [], list => s.value? list = some (.nil elem)
  | head :: rest, list =>
    ∃ tail, s.value? list = some (.cons elem head tail) ∧ s.ListOf elem rest tail

namespace ListOf

theorem mono (h : s.ListOf elem items list) (hst : s.Extends t) : t.ListOf elem items list := by
  induction items generalizing list with
  | nil => exact hst.value? h
  | cons head rest ih => exact h.imp fun _ h => ⟨hst.value? h.1, ih h.2⟩

theorem holds (h : s.ListOf elem items list) : s.Holds list := by
  cases items with
  | nil => exact ⟨_, h⟩
  | cons head rest =>
    obtain ⟨tail, hv, -⟩ := h
    exact ⟨_, hv⟩

/-- A list is at one place only. -/
theorem unique (hs : s.WellFormed) {a b : Addr} (ha : s.ListOf elem items a)
    (hb : s.ListOf elem items b) : a = b := by
  induction items generalizing a b with
  | nil => exact hs.place_unique ha hb rfl
  | cons head rest ih =>
    obtain ⟨tail, ha, htail⟩ := ha
    obtain ⟨tail', hb, htail'⟩ := hb
    cases ih htail htail'
    exact hs.place_unique ha hb rfl

theorem elemShape (h : s.ListOf elem items list) : s.elemShape list = .ok elem := by
  refine elemShape_eq_ok_iff.mpr ?_
  cases items with
  | nil => exact .inl h
  | cons head rest =>
    obtain ⟨tail, hv, -⟩ := h
    exact .inr ⟨head, tail, hv⟩

end ListOf

theorem nil_settles (h : s.WellFormed) (he : s.Knows elem) :
    Settles (nil elem) s fun a t => t.ListOf elem [] a :=
  .intern h rfl (nil_repeats h he)

theorem cons_settles (h : s.WellFormed) {head tail : Addr} (hh : s.Holds head)
    (ht : s.ListOf elem items tail) :
    Settles (cons head tail) s fun a t => t.ListOf elem (head :: items) a := by
  refine .of_repeats (cons_repeats h hh ht.holds) fun a u ha hu t _ hut => ?_
  have hsu := (cons_repeats h hh ht.holds).grown
  rw [ha] at hsu
  obtain ⟨elem', _, hask, ha⟩ := run_bind_eq_ok_iff.mp ha
  obtain ⟨he, rfl⟩ := ask_eq_ok_iff.mp hask
  cases ht.elemShape.symm.trans he
  exact ⟨tail, hut.value? ((intern_ends h rfl).of_ok ha), ht.mono (hsu.trans hut)⟩

/-- What begins as a list is one, of items below it that have the shape of its elements. -/
theorem listOf_of_isListOf (h : s.WellFormed) (hl : s.IsListOf elem list) :
    ∃ items, s.ListOf elem items list ∧
      ∀ a ∈ items, a.index < list.index ∧ s.fits a elem = true := by
  induction list using h.child_wellFounded.induction with
  | _ list ih =>
    rcases hl with hv | ⟨head, tail, hv⟩
    · exact ⟨[], hv, fun a ha => absurd ha List.not_mem_nil⟩
    · obtain ⟨-, hrest, hhead⟩ := h.valid' hv
      have htail : s.Child tail list := ⟨_, hv, List.mem_cons_of_mem _ List.mem_cons_self⟩
      have hbelow : head.index < list.index := h.children list _ hv head List.mem_cons_self
      obtain ⟨items, hitems, hall⟩ := ih tail htail hrest
      refine ⟨head :: items, ⟨tail, hv, hitems⟩, List.forall_mem_cons.mpr ⟨⟨hbelow, hhead⟩, ?_⟩⟩
      exact fun a ha => ⟨Nat.lt_trans (hall a ha).1 (h.child_lt htail), (hall a ha).2⟩

theorem ListOf.isListOf (h : s.ListOf elem items list) : s.IsListOf elem list :=
  elemShape_eq_ok_iff.mp h.elemShape

end Store

end ValueMachine
