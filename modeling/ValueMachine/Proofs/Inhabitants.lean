import ValueMachine.Proofs.Operation
import ValueMachine.Proofs.Store.Additions
import ValueMachine.Proofs.Store.Conformance

/-! All values of a finite shape, and how many there are.

If a shape has a cardinality within the limit, `enumerate` lists its values without outside
data: as many as the cardinality tells, each once, and all that there ever will be. Else it
lists nothing and leaves the store (`Reachable.enumerate_lists`). All that it adds is listed or
below what is listed, but for the values of an item of a tuple that has none, as another item
has none (`Reachable.enumerate_adds`).

The cardinality is the number of values that belong to the shape, if it is told. It is told
unless a number comes up on the way that is too large, which may be where the number of the
whole is not: of tuples with an item without values some are counted and others are not, by
the order of their items (`Reachable.cardinality_exact`). -/
namespace ValueMachine

open Store

/-- The list has so many places, each once, of values of the shape without outside data,
and at no later time is there another one. -/
structure Store.ListsOnce (t : Store) (id : ShapeId) (n : Nat) (xs : List Addr) : Prop where
  length : xs.length = n
  nodup : xs.Nodup
  members : ∀ a ∈ xs, t.conforms a id = .ok true ∧ t.Abstract a
  complete : ∀ u, Leads t u → ∀ a, u.conforms a id = .ok true → u.Abstract a → a ∈ xs

/-- What settles that all members are listed lists them for good. -/
theorem Store.Settles.listsOnce {s t : Store} {op : StoreM (List Addr)} {id : ShapeId} {n : Nat}
    {xs : List Addr} (h : Settles op s fun xs t => xs.Nodup ∧ t.Lists id n xs)
    (hx : op s = .ok xs t) : t.ListsOnce id n xs := by
  obtain ⟨-, hsound, hagain⟩ := h xs t hx
  obtain ⟨-, hnodup, hlength, hall⟩ := hagain t hsound (.refl t)
  refine ⟨hlength, hnodup, fun a ha => ?_, fun u hu a hc ha => ?_⟩
  · obtain ⟨hf, hab⟩ := (hall a).mp ha
    exact ⟨conforms_eq_true_iff.mpr hf, hab⟩
  · obtain ⟨htu, hu⟩ := hu.grows hsound
    obtain ⟨-, -, -, hall⟩ := hagain u hu htu
    exact (hall a).mpr ⟨conforms_eq_true_iff.mp hc, ha⟩

/-- **Every value of a finite shape is listed once**, unless there is no room for more values.
Nothing is listed, and nothing is done, if the shape has no cardinality within the limit. -/
theorem Reachable.enumerate_lists {s : Store} (hs : Reachable s) (id : ShapeId) (limit : Nat) :
    (∀ n, s.cardinality id = some n → n ≤ limit →
      Ends (enumerate id limit s) (fun r t => ∃ xs, r = some xs ∧ t.ListsOnce id n xs)
        (fun e t => e = .exhausted ∧ maxValues ≤ t.size)) ∧
    ((∀ n, s.cardinality id = some n → limit < n) → enumerate id limit s = .ok none s) := by
  have hask : ask (fun s => .ok (s.cardinality id)) s = .ok (s.cardinality id) s := rfl
  unfold enumerate
  rw [run_bind_of_ok hask]
  refine ⟨fun n hn hle => ?_, fun hlimit => ?_⟩
  · have hgives := inhabitantsWithin_gives _ hs.wellFormed hn
    rw [hn]
    dsimp only
    rw [if_pos hle]
    cases hr : inhabitantsWithin (id.index + 1) id s with
    | ok xs t =>
      rw [run_bind_of_ok hr]
      exact ⟨xs, rfl, hgives.settles.listsOnce hr⟩
    | error e t =>
      rw [run_bind_of_error hr]
      exact hgives.fails e t hr
  · cases hn : s.cardinality id with
    | none => rfl
    | some n =>
      dsimp only
      rw [if_neg (Nat.not_le_of_lt (hlimit n hn))]
      rfl

theorem Reachable.enumerate_lists_truth : Store.initial.cardinality ShapeId.truth = some 2 ∧
    Ends (enumerate ShapeId.truth 2 .initial)
      (fun r t => ∃ xs, r = some xs ∧ t.ListsOnce ShapeId.truth 2 xs)
      (fun e t => e = .exhausted ∧ maxValues ≤ t.size) ∧
    enumerate ShapeId.truth 1 .initial = .ok none .initial := by
  have hn : Store.initial.cardinality ShapeId.truth = some 2 := rfl
  refine ⟨hn, (Reachable.enumerate_lists .initial ShapeId.truth 2).1 2 hn (Nat.le_refl 2), ?_⟩
  refine (Reachable.enumerate_lists .initial ShapeId.truth 1).2 fun n h => ?_
  cases hn.symm.trans h
  decide

/-! ### What listing adds -/

/-- **Listing adds what it lists**, and what that is made of, unless the shape is or is made of
a tuple with an item without values: the values of its other items are added in any case. -/
theorem Reachable.enumerate_adds {s t : Store} (hs : Reachable s) {id : ShapeId} {limit : Nat}
    {xs : List Addr} (h : enumerate id limit s = .ok (some xs) t) :
    (∀ a, t.Holds a → ¬s.Holds a → t.Under xs a ∨ Leftover s t id a) ∧
      (s.Populated id → ∀ a, t.Holds a → ¬s.Holds a → t.Under xs a) := by
  have hw := hs.wellFormed
  obtain ⟨n, -, hn, hr⟩ := enumerate_eq_some_iff.mp h
  obtain ⟨-, ht, -⟩ := (inhabitantsWithin_gives _ hw hn).settles _ _ hr
  have hall : ∀ a, t.Holds a → ¬s.Holds a → t.Under xs a ∨ Leftover s t id a := fun a ha hnew =>
    inhabitantsWithin_adds _ hw hn (.refl s) hw _ _ hr a ha hnew t ht (.refl t)
  exact ⟨hall, fun hp a ha hn => (hall a ha hn).resolve_right hp.not_leftover⟩

/-- The first store with the bits, and the tuples of a bit and a value of the empty shape. -/
def Store.withGap : Store :=
  { initial with
    shapes := (initial.shapes.insert (.ring 1)).insert (.tuple [⟨5⟩, ShapeId.empty]) }

/-- The same with the two bits. -/
def Store.withBits : Store :=
  { withGap with values := (initial.values.insert (.ring 1 0)).insert (.ring 1 1) }

theorem Reachable.withGap : Reachable .withGap := by
  have hring : Reachable { Store.initial with shapes := Store.initial.shapes.insert (.ring 1) } :=
    reachable_of_new_shape .initial rfl (by decide) (by decide)
  exact reachable_of_new_shape hring rfl (by decide) (by decide)

theorem Store.inhabitants_bit :
    inhabitantsWithin 6 ⟨5⟩ .withGap = .ok [⟨3⟩, ⟨4⟩] .withBits := by
  have hzero : ring 1 0 .withGap =
      .ok ⟨3⟩ { withGap with values := initial.values.insert (.ring 1 0) } := by
    refine intern_of_new Reachable.withGap.wellFormed rfl rfl ?_ (by decide)
    show _ ∉ initial.values.toList
    rw [initial_values.1]
    decide
  have hsound : Reachable { withGap with values := initial.values.insert (.ring 1 0) } := by
    refine reachable_of_new Reachable.withGap rfl rfl ?_ (by decide)
    show _ ∉ initial.values.toList
    rw [initial_values.1]
    decide
  have hone : ring 1 1 { withGap with values := initial.values.insert (.ring 1 0) } =
      .ok ⟨4⟩ withBits := by
    refine intern_of_new hsound.wellFormed rfl rfl ?_ (by decide)
    rw [Interner.toList_insert, initial_values.1]
    decide
  have hask : ask (fun s => s.shapes.lookup ⟨5⟩) withGap = .ok (.ring 1) withGap := rfl
  unfold inhabitantsWithin
  refine (run_bind_of_ok hask).trans ?_
  show ([0, 1].mapM fun x => ring 1 (Nat.toUInt64 x)) withGap = _
  rw [List.mapM_cons]
  refine (run_bind_of_ok hzero).trans ?_
  rw [List.mapM_cons]
  exact run_bind_of_ok ((run_bind_of_ok hone).trans rfl)

theorem Reachable.enumerate_adds_bits :
    enumerate ⟨5⟩ 2 .withGap = .ok (some [⟨3⟩, ⟨4⟩]) .withBits ∧ Store.withGap.Populated ⟨5⟩ ∧
      ∀ a, Store.withBits.Holds a → ¬Store.withGap.Holds a →
        Store.withBits.Under [⟨3⟩, ⟨4⟩] a := by
  have hrun : enumerate ⟨5⟩ 2 .withGap = .ok (some [⟨3⟩, ⟨4⟩]) .withBits := by
    have hcount : ask (fun s => .ok (s.cardinality ⟨5⟩)) .withGap = .ok (some 2) .withGap := rfl
    exact (run_bind_of_ok hcount).trans (run_bind_of_ok inhabitants_bit)
  have hpopulated : Store.withGap.Populated ⟨5⟩ := by
    intro t items ht hx item hi
    rcases ht.cases_tail with rfl | ⟨c, -, x, hxc, hc⟩
    · cases hx
    · cases hxc
      cases hc
  exact ⟨hrun, hpopulated, (Reachable.enumerate_adds .withGap hrun).2 hpopulated⟩

theorem Store.enumerate_gap : enumerate ⟨6⟩ 0 .withGap = .ok (some []) .withBits := by
  have hcount : ask (fun s => .ok (s.cardinality ⟨6⟩)) withGap = .ok (some 0) withGap := rfl
  have hask : ask (fun s => s.shapes.lookup ⟨6⟩) withGap =
      .ok (.tuple [⟨5⟩, ShapeId.empty]) withGap := rfl
  have hparts : [⟨5⟩, ShapeId.empty].mapM (inhabitantsWithin 6) withGap =
      .ok [[⟨3⟩, ⟨4⟩], []] withBits := by
    rw [List.mapM_cons]
    exact run_bind_of_ok inhabitants_bit
  refine (run_bind_of_ok hcount).trans (run_bind_of_ok (x := []) ?_)
  exact (run_bind_of_ok hask).trans (run_bind_of_ok hparts)

/-- No tuple has the bits, and they are added all the same. -/
theorem Reachable.enumerate_of_gap : Reachable .withGap ∧
    enumerate ⟨6⟩ 0 .withGap = .ok (some []) .withBits ∧
    Store.withBits.Holds ⟨3⟩ ∧ ¬Store.withGap.Holds ⟨3⟩ ∧ ¬Store.withBits.Under [] ⟨3⟩ := by
  have hnew : ¬Store.withGap.Holds ⟨3⟩ := fun h => absurd (holds_iff.mp h) (by decide)
  have hnone : ¬Store.withBits.Under [] ⟨3⟩ := fun ⟨_, hx, _⟩ => absurd hx List.not_mem_nil
  exact ⟨.withGap, enumerate_gap, holds_iff.mpr (by decide), hnew, hnone⟩

/-! ### Cardinalities -/

/-- The first store with a large ring, and tuples of twice the ring and the empty shape: the
empty shape is the last item of the first tuple, and the first one of the second. -/
def Store.withVoid : Store :=
  { initial with
    shapes := ((initial.shapes.insert (.ring 63)).insert (.tuple [⟨5⟩, ⟨5⟩, ShapeId.empty])).insert
      (.tuple [ShapeId.empty, ⟨5⟩, ⟨5⟩]) }

theorem Reachable.withVoid : Reachable .withVoid := by
  have hring : Reachable { Store.initial with shapes := Store.initial.shapes.insert (.ring 63) } :=
    reachable_of_new_shape .initial rfl (by decide) (by decide)
  have hlast := reachable_of_new_shape hring (x := .tuple [⟨5⟩, ⟨5⟩, ShapeId.empty]) rfl
    (by decide) (by decide)
  exact reachable_of_new_shape hlast rfl (by decide) (by decide)

/-- **A cardinality is told if no number that comes up is too large**, and it is the number of
the shape. If no tuple has an item without values, it is told unless the number of the shape
itself is too large. -/
theorem Reachable.cardinality_exact {s : Store} (hs : Reachable s) (id : ShapeId) :
    (∀ n, s.cardinality id = some n ↔ s.HasNumber id n ∧ ∀ m, s.ComesUp id m → m ≤ maxCount) ∧
      (s.Populated id → s.CountsExactly id) :=
  ⟨fun _ => cardinality_eq_some_iff hs.wellFormed, fun hp => hp.countsExactly hs.wellFormed⟩

theorem Reachable.cardinality_exact_truth :
    (∀ n, Store.initial.cardinality ShapeId.truth = some n ↔
      Store.initial.HasNumber ShapeId.truth n ∧
        ∀ m, Store.initial.ComesUp ShapeId.truth m → m ≤ maxCount) ∧
      Store.initial.Populated ShapeId.truth ∧ Store.initial.CountsExactly ShapeId.truth := by
  have hexact := Reachable.cardinality_exact .initial ShapeId.truth
  have hpopulated : Store.initial.Populated ShapeId.truth := by
    have hunit : ∀ child ∈ [ShapeId.unit, ShapeId.unit], child = ShapeId.unit := by decide
    intro t items ht hx item hi
    rcases ht.cases_tail with rfl | ⟨c, htc, x, hxc, hc⟩
    · cases hx
    · cases hxc
      obtain rfl := hunit c hc
      rcases htc.cases_tail with rfl | ⟨d, -, y, hyd, hd⟩
      · cases hx
        cases hi
      · cases hyd
        cases hd
  exact ⟨hexact.1, hpopulated, hexact.2 hpopulated⟩

/-- There are no values of either tuple, but only of one this is told. -/
theorem Reachable.cardinality_of_void : Reachable .withVoid ∧
    Store.withVoid.HasNumber ⟨6⟩ 0 ∧ Store.withVoid.cardinality ⟨6⟩ = none ∧
    Store.withVoid.cardinality ⟨7⟩ = some 0 ∧ ¬Store.withVoid.CountsExactly ⟨6⟩ := by
  have hnone : Store.withVoid.cardinality ⟨6⟩ = none := rfl
  have hzero : Store.withVoid.cardinality ⟨7⟩ = some 0 := rfl
  have hlast : Store.withVoid.shape? ⟨6⟩ = some (.tuple [⟨5⟩, ⟨5⟩, ShapeId.empty]) := rfl
  have hfirst : Store.withVoid.shape? ⟨7⟩ = some (.tuple [ShapeId.empty, ⟨5⟩, ⟨5⟩]) := rfl
  have hnumber : Store.withVoid.HasNumber ⟨6⟩ 0 :=
    (hasNumber_of_countWithin _ hzero).1.perm hfirst hlast (by decide)
  refine ⟨.withVoid, hnumber, hnone, hzero, fun h => ?_⟩
  cases hnone.symm.trans (h.told 0 hnumber (Nat.zero_le _))

end ValueMachine
