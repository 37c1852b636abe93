import ValueMachine.Proofs.Eval.Gains
import ValueMachine.Proofs.Operation
import ValueMachine.Proofs.Store.Conformance

/-! Lists are built and read back.

A list is built from its last item on, each cell in front of what has been built
(`Store.list_cons`). If the items have the shape of the elements this gives the place of the
list of them, unless there is no room for more values (`Store.list_gives`). In turn, whatever
begins as a list is read to its end, because the cells of a list lie at lower and lower
places; and building a list of what was read finds every cell where it is
(`Store.list_known`). -/
namespace ValueMachine

namespace Store

variable {s t : Store} {elem id : ShapeId} {items : List Addr} {item list : Addr}

/-! ### Building -/

theorem list_nil (elem : ShapeId) : Store.list elem [] = nil elem := bind_pure _

/-- The list of the items has a cell for the first in front of the list of the others. -/
theorem list_cons (elem : ShapeId) (item : Addr) (items : List Addr) :
    Store.list elem (item :: items) =
      Store.list elem items >>= fun rest => cons item rest := by
  unfold Store.list
  simp only [List.reverse_cons, List.foldlM_append, List.foldlM_cons, List.foldlM_nil,
    bind_pure, bind_assoc]

theorem valid_nil (he : s.Knows elem) : s.Valid (.nil elem) :=
  ⟨fun _ hc => absurd hc List.not_mem_nil, he⟩

/-- A cell in front of a list is of the elements of that. -/
theorem cons_eq (hl : s.ListOf elem items list) (item : Addr) :
    cons item list s = intern (.cons elem item list) s :=
  run_bind_of_ok (ask_eq_ok_iff.mpr ⟨hl.elemShape, rfl⟩)

theorem cons_gives (h : s.WellFormed) (hi : s.fits item elem = true)
    (hl : s.ListOf elem items list) :
    Gives (cons item list) s fun a t => t.ListOf elem (item :: items) a := by
  refine ⟨cons_settles h (holds_of_fits hi).1 hl, fun e t he => ?_⟩
  have hvalid : s.Valid (.cons elem item list) :=
    ⟨List.forall_mem_cons.mpr ⟨(holds_of_fits hi).1, List.forall_mem_singleton.mpr hl.holds⟩,
      hl.isListOf, hi⟩
  rw [cons_eq hl] at he
  obtain ⟨rfl, he, hfull⟩ := (intern_valid h rfl hvalid).of_error he
  exact ⟨he, hfull⟩

/-- Items that have the shape of the elements make a list. -/
theorem list_gives (h : s.WellFormed) (he : s.Knows elem)
    (hi : ∀ a ∈ items, s.fits a elem = true) :
    Gives (Store.list elem items) s fun l t => t.ListOf elem items l := by
  induction items with
  | nil =>
    rw [list_nil]
    exact .intern h (valid_nil he) rfl
  | cons item items ih =>
    obtain ⟨hitem, hitems⟩ := List.forall_mem_cons.mp hi
    rw [list_cons]
    refine (ih hitems).bind fun rest s' hst hs' hrest => ?_
    exact (cons_gives hs' (fits_mono hst hitem) hrest).imp fun _ _ _ _ hl _ => hl

/-- A list needs room for its cells and the empty list, and for one cell less if it fails. -/
theorem list_gains (elem : ShapeId) (items : List Addr) (s : Store) :
    Ends (Store.list elem items s) (fun _ t => s.Gains (items.length + 1) t)
      fun _ t => s.Gains items.length t := by
  induction items with
  | nil =>
    rw [list_nil]
    exact intern_addsOne rfl s
  | cons item items ih =>
    rw [list_cons]
    refine Ends.bind (ih.imp (fun rest t ht => ?_) fun e t ht => ht.mono (Nat.le_succ _))
    exact (cons_addsOne item rest t).imp (fun _ u hu => ht.trans hu) fun _ u hu => ht.trans hu

theorem Gains.size_le {n : Nat} (h : s.Gains n t) : t.size ≤ s.size + n := by
  obtain ⟨-, -, vs, hvs, hlen, -⟩ := h
  have hsize : t.size = s.size + vs.length := by
    unfold size
    rw [Interner.size_eq_length, Interner.size_eq_length, hvs, List.length_append]
  exact hsize ▸ Nat.add_le_add_left hlen _

theorem list_of_room (h : s.WellFormed) (he : s.Knows elem)
    (hi : ∀ a ∈ items, s.fits a elem = true) (hroom : s.size + items.length < maxValues) :
    ∃ l t, Store.list elem items s = .ok l t := by
  cases hr : Store.list elem items s with
  | ok l t => exact ⟨l, t, rfl⟩
  | error e t =>
    have hfull := ((list_gives h he hi).fails e t hr).2
    have hsize := ((list_gains elem items s).of_error hr).size_le
    exact absurd hroom (Nat.not_lt_of_le (Nat.le_trans hfull hsize))

/-! ### Reading -/

namespace ListOf

/-- The cells of a list lie at lower and lower places. -/
theorem length_le (h : s.WellFormed) (hl : s.ListOf elem items list) :
    items.length ≤ list.index := by
  induction items generalizing list with
  | nil => exact Nat.zero_le _
  | cons item items ih =>
    obtain ⟨tail, hv, htail⟩ := hl
    have hlt : tail.index < list.index :=
      h.children list _ hv tail (List.mem_cons_of_mem _ List.mem_cons_self)
    exact Nat.lt_of_le_of_lt (ih htail) hlt

theorem itemsWithin_eq (hl : s.ListOf elem items list) (more : Nat) (before : List Addr) :
    s.itemsWithin (items.length + 1 + more) before list = .ok (before.reverse ++ items) := by
  induction items generalizing list before with
  | nil =>
    have hv : s.value? list = some (.nil elem) := hl
    rw [List.length_nil, Nat.zero_add, Nat.add_comm, itemsWithin, hv, List.append_nil]
  | cons item items ih =>
    obtain ⟨tail, hv, htail⟩ := hl
    rw [List.length_cons, Nat.add_right_comm _ 1 more, itemsWithin, hv]
    dsimp only
    rw [ih htail, List.reverse_cons, List.append_assoc, List.singleton_append]

theorem items_eq (h : s.WellFormed) (hl : s.ListOf elem items list) : s.items list = .ok items := by
  obtain ⟨more, hmore⟩ := Nat.exists_eq_add_of_le (hl.length_le h)
  rw [Store.items, hmore, Nat.add_right_comm]
  exact hl.itemsWithin_eq more []

theorem conforms (h : s.WellFormed) (hl : s.ListOf elem items list)
    (hx : s.shape? id = some (.list elem)) : s.conforms list id = .ok true := by
  refine conforms_eq_true_iff.mpr ?_
  rcases hl.isListOf with hv | ⟨head, tail, hv⟩
  · exact fits_of_suits h hv hx (.nil (.inl rfl))
  · exact fits_of_suits h hv hx (.cons (.inl rfl))

end ListOf

/-- A list is built where it is. -/
theorem list_known (h : s.WellFormed) (hl : s.ListOf elem items list) :
    Store.list elem items s = .ok list s := by
  induction items generalizing list with
  | nil =>
    rw [list_nil]
    exact intern_known h rfl hl
  | cons item items ih =>
    obtain ⟨tail, hv, htail⟩ := hl
    rw [list_cons, run_bind_of_ok (ih htail), cons_eq htail]
    exact intern_known h rfl hv

/-- What is not a list is not read. -/
theorem items_of_kind {a : Addr} {v : Value} (hv : s.value? a = some v) (hk : v.kind ≠ .list) :
    s.items a = .error (.mismatch (.kind .list v.kind)) := by
  unfold items itemsWithin notOfKind
  rw [hv]
  cases v with
  | nil elem => exact absurd rfl hk
  | cons elem head tail => exact absurd rfl hk
  | _ => rfl

end Store

open Store

/-- **Lists are built and read back faithfully**. Items that have the shape of the elements make
a list, unless there is no room for its cells and the empty list. In every later store the
items are read of it, and it has the shape of such lists. Whatever begins as a list can be read
to its end, however many more cells may be looked at; the items have the shape of the elements,
and their list is found where it is. Nothing else is read. -/
theorem Reachable.lists_read_back {s : Store} (hs : Reachable s) (elem : ShapeId) :
    (∀ items, s.Knows elem → (∀ a ∈ items, s.conforms a elem = .ok true) →
      Ends (list elem items s)
        (fun l t => ∀ u, Leads t u → u.items l = .ok items ∧
          ∀ id, u.shape? id = some (.list elem) → u.conforms l id = .ok true)
        (fun e t => e = .exhausted ∧ maxValues ≤ t.size) ∧
      (s.size + items.length < maxValues → ∃ l t, list elem items s = .ok l t)) ∧
    (∀ l, s.IsListOf elem l → ∃ items, s.items l = .ok items ∧
      (∀ more, s.itemsWithin (items.length + 1 + more) [] l = .ok items) ∧
      (∀ a ∈ items, s.conforms a elem = .ok true) ∧ list elem items s = .ok l s) ∧
    ∀ a v, s.value? a = some v → v.kind ≠ .list →
      s.items a = .error (.mismatch (.kind .list v.kind)) := by
  have h := hs.wellFormed
  refine ⟨fun items he hi => ?_, fun l hl => ?_, fun a v => items_of_kind⟩
  · have hfits : ∀ a ∈ items, s.fits a elem = true := fun a ha => conforms_eq_true_iff.mp (hi a ha)
    refine ⟨?_, list_of_room h he hfits⟩
    obtain ⟨hsettles, hfails⟩ := list_gives h he hfits
    cases hr : list elem items s with
    | error e t => exact hfails e t hr
    | ok l t =>
      intro u hu
      obtain ⟨-, hsound, hlater⟩ := hsettles l t hr
      obtain ⟨hgrown, hu⟩ := hu.grows hsound
      have hlist := (hlater u hu hgrown).2
      exact ⟨hlist.items_eq hu, fun id => hlist.conforms hu⟩
  · obtain ⟨items, hlist, hall⟩ := listOf_of_isListOf h hl
    exact ⟨items, hlist.items_eq h, fun more => hlist.itemsWithin_eq more [],
      fun a ha => conforms_eq_true_iff.mpr (hall a ha).2, list_known h hlist⟩

/-- The list of the two truth values. -/
theorem Reachable.lists_read_back_truths :
    (∃ l t, list ShapeId.truth [Addr.proved, Addr.disproved] .initial = .ok l t ∧
      t.items l = .ok [Addr.proved, Addr.disproved] ∧
      ∀ items, t.items l = .ok items → list ShapeId.truth items t = .ok l t) ∧
    Store.initial.items Addr.unit = .error (.mismatch (.kind .list .tuple)) := by
  have hknown : Store.initial.Knows ShapeId.truth := knows_iff.mpr ⟨_, rfl⟩
  have hconform : ∀ a ∈ [Addr.proved, Addr.disproved],
      Store.initial.conforms a ShapeId.truth = .ok true :=
    List.forall_mem_cons.mpr ⟨rfl, List.forall_mem_singleton.mpr rfl⟩
  obtain ⟨hbuild, -, hother⟩ := Reachable.lists_read_back .initial ShapeId.truth
  obtain ⟨hends, hroom⟩ := hbuild [Addr.proved, Addr.disproved] hknown hconform
  obtain ⟨l, t, hlist⟩ := hroom (by decide)
  have hitems := (hends.of_ok hlist t .refl).1
  refine ⟨⟨l, t, hlist, hitems, fun items hi => ?_⟩, hother Addr.unit (.tuple #[]) rfl (by decide)⟩
  have hreachable : Reachable t := by
    have hstep := Reachable.initial.step (.list ShapeId.truth [Addr.proved, Addr.disproved])
    rwa [Operation.apply, hlist] at hstep
  have hbegins : t.IsListOf ShapeId.truth l := by
    have hfits : ∀ a ∈ [Addr.proved, Addr.disproved], Store.initial.fits a ShapeId.truth = true :=
      fun a ha => conforms_eq_true_iff.mp (hconform a ha)
    obtain ⟨-, hsound, hlater⟩ := (list_gives wellFormed_initial hknown hfits).settles l t hlist
    exact (hlater t hsound (.refl t)).2.isListOf
  obtain ⟨found, hread, -, -, hagain⟩ :=
    (Reachable.lists_read_back hreachable ShapeId.truth).2.1 l hbegins
  cases hi.symm.trans hread
  exact hagain

end ValueMachine
