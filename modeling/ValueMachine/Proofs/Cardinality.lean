import Mathlib.Algebra.Order.BigOperators.Group.List
import Mathlib.Algebra.Order.Ring.Nat
import ValueMachine.Proofs.Operation
import ValueMachine.Proofs.Store.Conformance

/-! How many values of a finite shape a store may hold.

The places of the abstract values of a finite shape can be listed by looking up in the store
whatever the parts of the shape make (`Store.membersWithin`). Each is in the list, and the
list is no longer than the cardinality tells, whatever was added to the store. So no more
abstract values have the shape, and the truth values are the two that every store has.

Values that stand for data outside the store are not counted. They have the shape that they
were given, and a store may hold any number of them, so a shape may have more values than
its cardinality tells (`Store.withConcrete`). -/
namespace ValueMachine

namespace Store

variable {s : Store} {a : Addr} {id : ShapeId}

/-! ### Looking up the members of a shape -/

/-- The places of the members of a finite shape, seen down to a depth: those of the values
that its parts make, as far as the store holds them. -/
def membersWithin (s : Store) : Nat → ShapeId → List Addr
  | 0, _ => []
  | depth + 1, id =>
    match s.shape? id with
    | some (.ring bits) =>
      (List.range (1 <<< bits.toNat)).filterMap fun x => s.find? (.ring bits x.toUInt64)
    | some (.char width) => width.chars.filterMap fun c => s.find? (.char c)
    | some (.tuple items) =>
      (choices (items.map (s.membersWithin depth))).filterMap fun xs =>
        s.find? (.tuple xs.toArray)
    | some (.cotuple alternatives) =>
      alternatives.toList.zipIdx.flatMap fun (alternative, tag) =>
        (s.membersWithin depth alternative).filterMap fun payload =>
          s.find? (.cotuple id tag.toUInt32 payload)
    | some (.identity of) =>
      (s.membersWithin depth of).filterMap fun x => s.find? (.identity x)
    | _ => []

/-- The parts of what is counted up without passing the bound are counted. -/
theorem forall₂_of_foldlM {α : Type} {op : Nat → Nat → Nat} {f : α → Option Nat} {xs : List α}
    {start n : Nat} (hn : xs.foldlM (fun n x => do bounded (op n (← f x))) start = some n) :
    List.Forall₂ (fun x n => f x = some n) xs (xs.map fun x => (f x).getD 0) := by
  refine List.forall₂_map_right_iff.mpr (List.forall₂_same.mpr fun x hx => ?_)
  obtain ⟨k, hk⟩ := counted_of_foldlM hn x hx
  rw [hk, Option.getD_some]

/-- There are no more of them than the cardinality tells. -/
theorem length_membersWithin_le (depth : Nat) {n : Nat} (hn : s.countWithin depth id = some n) :
    (s.membersWithin depth id).length ≤ n := by
  induction depth generalizing id n with
  | zero => cases hn
  | succ depth ih =>
    have hpart {child : ShapeId} {k : Nat} (hk : s.countWithin depth child = some k) :
        (s.membersWithin depth child).length ≤ (s.countWithin depth child).getD 0 := by
      rw [hk, Option.getD_some]
      exact ih hk
    unfold countWithin at hn
    unfold membersWithin
    cases hx : s.shape? id with
    | none => exact Nat.zero_le n
    | some x =>
      rw [hx] at hn
      cases x with
      | ring bits =>
        rw [← (bounded_eq_some_iff.mp hn).2]
        exact (List.length_filterMap_le _ _).trans_eq List.length_range
      | char width =>
        rw [← Option.some.inj hn]
        exact (List.length_filterMap_le _ _).trans_eq width.length_chars
      | tuple items =>
        refine (List.length_filterMap_le _ _).trans ?_
        rw [length_choices, List.map_map, foldlM_bounded (forall₂_of_foldlM hn) hn,
          ← List.prod_eq_foldl]
        refine List.prod_le_prod' fun child hc => ?_
        obtain ⟨k, hk⟩ := counted_of_foldlM hn child hc
        exact hpart hk
      | cotuple alternatives =>
        rw [foldlM_bounded (forall₂_of_foldlM hn) hn, ← List.sum_eq_foldl, List.length_flatMap]
        calc (alternatives.toList.zipIdx.map _).sum
          _ ≤ (alternatives.toList.zipIdx.map fun p => (s.countWithin depth p.1).getD 0).sum := by
            refine List.sum_le_sum fun p hp => (List.length_filterMap_le _ _).trans ?_
            obtain ⟨k, hk⟩ := counted_of_foldlM hn p.1 (List.fst_mem_of_mem_zipIdx hp)
            exact hpart hk
          _ = (alternatives.toList.map fun child => (s.countWithin depth child).getD 0).sum := by
            conv_rhs => rw [← List.zipIdx_map_fst 0 alternatives.toList, List.map_map]
            rfl
      | identity of => exact (List.length_filterMap_le _ _).trans (ih hn)
      | _ => exact Nat.zero_le n

theorem mem_filterMap_find? (h : s.WellFormed) {β : Type} {f : β → Value} {bs : List β} {b : β}
    (hb : b ∈ bs) (ha : s.value? a = some (f b)) (hf : (f b).isAbstract = true) :
    a ∈ bs.filterMap fun b => s.find? (f b) :=
  List.mem_filterMap.mpr ⟨b, hb, h.find?_eq_some_iff.mpr ⟨ha, hf⟩⟩

/-- All members are found. -/
theorem mem_membersWithin (h : s.WellFormed) (depth : Nat) {n : Nat}
    (hn : s.countWithin depth id = some n) (ha : s.Member id a) : a ∈ s.membersWithin depth id := by
  induction depth generalizing id n a with
  | zero => cases hn
  | succ depth ih =>
    obtain ⟨-, x, hx⟩ := holds_of_fits ha.1
    obtain ⟨v, hv, hi⟩ := (member_iff h hx hn).mp ha
    unfold countWithin at hn
    unfold membersWithin
    rw [hx] at hn ⊢
    cases x with
    | ring bits =>
      obtain ⟨y, rfl⟩ := hi
      obtain ⟨-, -, hy⟩ := h.valid' hv
      refine mem_filterMap_find? h (f := fun x => .ring bits x.toUInt64)
        (List.mem_range.mpr (ring_lt hy)) ?_ rfl
      simpa using hv
    | char width =>
      obtain ⟨c, rfl, hc⟩ := hi
      exact mem_filterMap_find? h (f := .char) (CharWidth.mem_chars.mpr hc) hv rfl
    | tuple items =>
      obtain ⟨xs, rfl, hxs⟩ := hi
      refine mem_filterMap_find? h (f := fun xs => .tuple xs.toArray) (b := xs.toList)
        (mem_choices.mpr ?_) hv rfl
      obtain ⟨hlength, hmem⟩ := List.forall₂_iff_zip.mp hxs
      refine List.forall₂_map_right_iff.mpr
        (List.forall₂_iff_zip.mpr ⟨hlength, fun {x child} hp => ?_⟩)
      obtain ⟨k, hk⟩ := counted_of_foldlM hn child (List.of_mem_zip hp).2
      exact ih hk (hmem hp)
    | cotuple alternatives =>
      obtain ⟨tag, payload, want, rfl, hw, hmem⟩ := hi
      rw [← Array.getElem?_toList] at hw
      have hp : (want, tag.toNat) ∈ alternatives.toList.zipIdx :=
        List.mem_zipIdx_iff_getElem?.mpr hw
      obtain ⟨k, hk⟩ := counted_of_foldlM hn want (List.fst_mem_of_mem_zipIdx hp)
      refine List.mem_flatMap.mpr ⟨(want, tag.toNat), hp, ?_⟩
      refine mem_filterMap_find? h (f := fun payload => .cotuple id tag.toNat.toUInt32 payload)
        (ih hk hmem) ?_ rfl
      rw [show tag.toNat.toUInt32 = tag from UInt32.ofNat_toNat]
      exact hv
    | identity of =>
      obtain ⟨x, rfl, hmem⟩ := hi
      exact mem_filterMap_find? h (f := .identity) (ih hn hmem) hv rfl
    | _ => exact hi.elim

/-! ### Truth values -/

section Truth
variable (h : s.WellFormed)
include h

theorem shape?_unit : s.shape? ShapeId.unit = some (.tuple []) := h.shapes.prelude 2 _ rfl

theorem shape?_truth : s.shape? ShapeId.truth = some (.cotuple #[ShapeId.unit, ShapeId.unit]) :=
  h.shapes.prelude 3 _ rfl

theorem countWithin_unit (depth : Nat) : s.countWithin (depth + 1) ShapeId.unit = some 1 := by
  rw [countWithin, shape?_unit h]
  rfl

theorem countWithin_truth (depth : Nat) : s.countWithin (depth + 2) ShapeId.truth = some 2 := by
  rw [countWithin, shape?_truth h]
  simp only [List.foldlM_cons, List.foldlM_nil, countWithin_unit h]
  rfl

theorem value?_unit : s.value? Addr.unit = some (.tuple #[]) := h.prelude 0 _ rfl

theorem value?_proved : s.value? Addr.proved = some (.cotuple ShapeId.truth 0 Addr.unit) :=
  h.prelude 1 _ rfl

theorem value?_disproved : s.value? Addr.disproved = some (.cotuple ShapeId.truth 1 Addr.unit) :=
  h.prelude 2 _ rfl

theorem member_unit_iff : s.Member ShapeId.unit a ↔ a = Addr.unit := by
  rw [member_iff h (shape?_unit h) (countWithin_unit h 0)]
  constructor
  · rintro ⟨v, hv, xs, rfl, hxs⟩
    rw [List.forall₂_nil_right_iff, Array.toList_eq_nil_iff] at hxs
    subst hxs
    exact h.place_unique hv (value?_unit h) rfl
  · rintro rfl
    exact ⟨_, value?_unit h, #[], rfl, .nil⟩

/-- The truth values are the two that every store has. -/
theorem member_truth_iff :
    s.Member ShapeId.truth a ↔ a = Addr.proved ∨ a = Addr.disproved := by
  have hunit : s.Member ShapeId.unit Addr.unit := (member_unit_iff h).mpr rfl
  rw [member_iff h (shape?_truth h) (countWithin_truth h 0)]
  constructor
  · rintro ⟨v, hv, tag, payload, want, rfl, hw, hp⟩
    obtain ⟨hlt, rfl⟩ := Array.getElem?_eq_some_iff.mp hw
    have hlt : tag.toNat < 2 := hlt
    obtain htag | htag : tag.toNat = 0 ∨ tag.toNat = 1 := by omega
    · obtain rfl : tag = 0 := UInt32.toNat_inj.mp htag
      obtain rfl := (member_unit_iff h).mp hp
      exact .inl (h.place_unique hv (value?_proved h) rfl)
    · obtain rfl : tag = 1 := UInt32.toNat_inj.mp htag
      obtain rfl := (member_unit_iff h).mp hp
      exact .inr (h.place_unique hv (value?_disproved h) rfl)
  · rintro (rfl | rfl)
    · exact ⟨_, value?_proved h, 0, Addr.unit, ShapeId.unit, rfl, rfl, hunit⟩
    · exact ⟨_, value?_disproved h, 1, Addr.unit, ShapeId.unit, rfl, rfl, hunit⟩

/-- The truth value of what holds reads as true, the other one as false. -/
theorem readTruth_of_member (ha : s.Member ShapeId.truth a) :
    Work.readTruth a s = .ok (a == Addr.proved) s := by
  unfold Work.readTruth
  rcases (member_truth_iff h).mp ha with rfl | rfl
  · exact run_bind_of_ok (Work.value_eq_ok_iff.mpr ⟨value?_proved h, rfl⟩)
  · exact run_bind_of_ok (Work.value_eq_ok_iff.mpr ⟨value?_disproved h, rfl⟩)

end Truth

/-! ### What a finite shape counts -/

/-- Of the places that are counted, no more have a shape than its cardinality tells: none has
the empty shape, and those of the shape of truth values are the two places of truth values,
which a deferral reads as a checker does. -/
structure Counts (s : Store) (counted : Addr → Prop) : Prop where
  bounded : ∀ id n, s.cardinality id = some n → ∀ xs : List Addr, xs.Nodup →
    (∀ a ∈ xs, counted a ∧ s.conforms a id = .ok true) → xs.length ≤ n
  empty : ∀ a, counted a → s.conforms a ShapeId.empty ≠ .ok true
  truth : ∀ a, counted a →
    (s.conforms a ShapeId.truth = .ok true ↔ a = Addr.proved ∨ a = Addr.disproved)
  tests : ∀ a, counted a → s.conforms a ShapeId.truth = .ok true →
    Work.readTruth a s = .ok (a == Addr.proved) s

/-- Of the values without outside data all are counted. -/
theorem counts_abstract (h : s.WellFormed) : s.Counts s.Abstract where
  bounded id n hn xs hd hxs := by
    have hsub : xs ⊆ s.membersWithin (id.index + 1) id := fun a ha =>
      mem_membersWithin h _ hn ⟨conforms_eq_true_iff.mp (hxs a ha).2, (hxs a ha).1⟩
    exact (List.subperm_of_subset hd hsub).length_le.trans (length_membersWithin_le _ hn)
  empty a ha hc := by
    have hx : s.shape? ShapeId.empty = some .empty := h.shapes.prelude 1 _ rfl
    have hn : s.countWithin 1 ShapeId.empty = some 0 := by rw [countWithin, hx]
    obtain ⟨v, -, hi⟩ := (member_iff h hx hn).mp ⟨conforms_eq_true_iff.mp hc, ha⟩
    exact hi
  truth a ha := by
    rw [conforms_eq_true_iff, ← member_truth_iff h]
    exact (and_iff_left ha).symm
  tests a ha hc := readTruth_of_member h ⟨conforms_eq_true_iff.mp hc, ha⟩

end Store

/-! ### A store with outside data -/

/-- The first store with a number that stands for a truth value outside. -/
def Store.withConcrete : Store :=
  { initial with values := initial.values.append (.concrete ShapeId.truth 0) }

theorem Store.concrete_truth :
    (Operation.concrete ShapeId.truth 0).apply .initial = .withConcrete := by
  have hask : ask (fun s => discard (s.shapes.lookup ShapeId.truth)) .initial = .ok () .initial :=
    rfl
  show (concrete ShapeId.truth 0 .initial).state = _
  rw [concrete, run_bind_of_ok hask, placeConcrete_of_room (s := .initial) _ (by decide)]
  rfl

theorem Reachable.withConcrete : Reachable .withConcrete :=
  Store.concrete_truth ▸ .step (.concrete ShapeId.truth 0) .initial

/-- **A finite shape has no more values than its cardinality tells**, and the empty shape has
none; the truth values are two, of which a deferral and a checker think alike. Values that
stand for data outside the store, and those that have such a value below them, are left out. -/
theorem Reachable.values_within_cardinality {s : Store} (hs : Reachable s) :
    s.Counts s.Abstract :=
  Store.counts_abstract hs.wellFormed

theorem Reachable.values_within_cardinality_withConcrete :
    Store.withConcrete.Counts Store.withConcrete.Abstract :=
  Reachable.values_within_cardinality .withConcrete

/-- If all places were counted, three would have the shape of the two truth values. -/
theorem Reachable.concrete_beyond_cardinality : Reachable .withConcrete ∧
    Store.withConcrete.cardinality ShapeId.truth = some 2 ∧
    (∀ a ∈ [Addr.proved, Addr.disproved, ⟨3⟩],
      Store.withConcrete.conforms a ShapeId.truth = .ok true) ∧
    ¬Store.withConcrete.Counts fun _ => True := by
  have hn : Store.withConcrete.cardinality ShapeId.truth = some 2 := rfl
  have hc : ∀ a ∈ [Addr.proved, Addr.disproved, ⟨3⟩],
      Store.withConcrete.conforms a ShapeId.truth = .ok true :=
    List.forall_mem_cons.mpr
      ⟨rfl, List.forall_mem_cons.mpr ⟨rfl, List.forall_mem_singleton.mpr rfl⟩⟩
  refine ⟨.withConcrete, hn, hc, fun h => ?_⟩
  have hle := h.bounded _ 2 hn [Addr.proved, Addr.disproved, ⟨3⟩] (by decide)
    fun a ha => ⟨trivial, hc a ha⟩
  exact absurd hle (by decide)

end ValueMachine
