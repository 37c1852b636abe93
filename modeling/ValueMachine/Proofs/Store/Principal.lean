import Mathlib.Data.Finset.Card
import Mathlib.Order.Interval.Finset.Nat
import ValueMachine.Proofs.Store.Conformance

/-! The shape of a value.

A value has one shape that says all there is to say of it (`Principal`): the one it was
given, or the one that it makes of the shapes of its parts. `shapeOf` finds it. It adds
only shapes, each of which is the shape of the value or of one below it, and fails only
when there is no room for more shapes (`shapeOf_ends`, `shapeOf_of_room`).

The value conforms to this shape. It may conform to others, but only because the shape of
all values is found in them where a tuple, a list or evidence may have anything
(`Principal.eq_of_fits`). -/
namespace ValueMachine

namespace Value

/-- The shape that the value was given. -/
def ownShape? : Value → Option ShapeId
  | cotuple id _ _ | concrete id _ => some id
  | _ => none

/-- The parts of whose shapes the value makes its own. -/
def shapedParts : Value → List Addr
  | tuple items => items.toList
  | identity of => [of]
  | _ => []

end Value

namespace Store

variable {s t u : Store} {a b : Addr} {v : Value} {id want : ShapeId} {x : Shape}
  {parts : List ShapeId}

/-- The shape that a value makes of the shapes of its parts. -/
def madeShape? (s : Store) (parts : List ShapeId) : Value → Option Shape
  | .ring bits _ => some (.ring bits)
  | .flex _ => some .flex
  | .char c => some (.char (CharWidth.ofChar c))
  | .text _ => some .text
  | .tuple _ => some (.tuple parts)
  | .function f _ => (s.body? f).map fun b => .function b.params b.result
  | .nil elem | .cons elem _ _ => some (.list elem)
  | .identity _ => parts.head?.map .identity
  | .universal domain _ => some (.universal domain)
  | .existential domain _ => some (.existential domain)
  | .cotuple _ _ _ | .concrete _ _ => none

/-- The shape is the one that says all of the value at the place. -/
inductive Principal (s : Store) : Addr → ShapeId → Prop
  | own {a : Addr} {v : Value} {id : ShapeId} (hv : s.value? a = some v)
      (ho : v.ownShape? = some id) : Principal s a id
  | made {a : Addr} {v : Value} {id : ShapeId} {parts : List ShapeId} {x : Shape}
      (hv : s.value? a = some v) (hl : v.shapedParts.length = parts.length)
      (hp : ∀ p ∈ v.shapedParts.zip parts, Principal s p.1 p.2)
      (hm : s.madeShape? parts v = some x) (hx : s.shape? id = some x) : Principal s a id

/-- The shape of all values is the shape, or one of those that are reached through the items
of tuples, the elements of lists and evidence. -/
inductive ReachesAny (s : Store) : ShapeId → Prop
  | any : ReachesAny s ShapeId.any
  | tuple {id item : ShapeId} {items : List ShapeId} (hx : s.shape? id = some (.tuple items))
      (hi : item ∈ items) (h : ReachesAny s item) : ReachesAny s id
  | list {id elem : ShapeId} (hx : s.shape? id = some (.list elem)) (h : ReachesAny s elem) :
      ReachesAny s id
  | identity {id of : ShapeId} (hx : s.shape? id = some (.identity of)) (h : ReachesAny s of) :
      ReachesAny s id

theorem madeShape?_mono (hst : s.Extends t) (hm : s.madeShape? parts v = some x) :
    t.madeShape? parts v = some x := by
  cases v with
  | function f captures =>
    obtain ⟨b, hb, rfl⟩ := Option.map_eq_some_iff.mp hm
    exact Option.map_eq_some_iff.mpr ⟨b, hst.body? hb, rfl⟩
  | _ => exact hm

/-- A value that was given its shape makes none. -/
theorem madeShape?_of_own (ho : v.ownShape? = some id) : s.madeShape? parts v = none := by
  cases v with
  | cotuple => rfl
  | concrete => rfl
  | _ => cases ho

namespace Principal

theorem mono (h : s.Principal a id) (hst : s.Extends t) : t.Principal a id := by
  induction h with
  | own hv ho => exact .own (hst.value? hv) ho
  | made hv hl _ hm hx ih =>
    exact .made (hst.value? hv) hl ih (madeShape?_mono hst hm) (hst.shape? hx)

/-- A value conforms to the shape that says all of it. -/
theorem fits (hs : s.WellFormed) (h : s.Principal a id) : s.fits a id = true := by
  induction h with
  | @own a v id hv ho =>
    cases v with
    | cotuple =>
      cases ho
      obtain ⟨-, alternatives, want, hx, -⟩ := hs.valid' hv
      exact fits_of_suits hs hv hx .cotuple
    | concrete =>
      cases ho
      obtain ⟨x, hx⟩ := Interner.get?_of_lt (hs.named _ _ hv _ List.mem_cons_self)
      exact fits_of_suits hs hv hx .concrete
    | _ => cases ho
  | @made a v id parts x hv hl _ hm hx ih =>
    cases v with
    | ring => cases hm; exact fits_of_suits hs hv hx .ring
    | flex => cases hm; exact fits_of_suits hs hv hx .flex
    | char => cases hm; exact fits_of_suits hs hv hx .char
    | text => cases hm; exact fits_of_suits hs hv hx .text
    | tuple =>
      cases hm
      exact fits_of_suits hs hv hx (.tuple (List.forall₂_iff_zip.mpr ⟨hl, fun hp => ih _ hp⟩))
    | function =>
      obtain ⟨b, hb, rfl⟩ := Option.map_eq_some_iff.mp hm
      exact fits_of_suits hs hv hx (.function hb)
    | nil => cases hm; exact fits_of_suits hs hv hx (.nil (.inl rfl))
    | cons => cases hm; exact fits_of_suits hs hv hx (.cons (.inl rfl))
    | identity =>
      obtain ⟨part, rfl⟩ := List.length_eq_one_iff.mp hl.symm
      cases hm
      exact fits_of_suits hs hv hx (.identity (ih _ List.mem_cons_self))
    | universal => cases hm; exact fits_of_suits hs hv hx .universal
    | existential => cases hm; exact fits_of_suits hs hv hx .existential
    | _ => cases hm

theorem eq_of_zip {α β : Type} {xs : List α} {ys zs : List β} (hy : xs.length = ys.length)
    (hz : xs.length = zs.length)
    (h : ∀ x y z, (x, y) ∈ xs.zip ys → (x, z) ∈ xs.zip zs → y = z) : ys = zs := by
  refine List.ext_getElem (hy.symm.trans hz) fun i hi hi' => ?_
  have hmem {ws : List β} (hw : i < ws.length) (hx : i < xs.length) :
      (xs[i], ws[i]) ∈ xs.zip ws := by
    have hlt : i < (xs.zip ws).length := by
      rw [List.length_zip]
      omega
    exact List.getElem_zip (h := hlt) ▸ List.getElem_mem hlt
  exact h _ _ _ (hmem hi (hy ▸ hi)) (hmem hi' (hy ▸ hi))

/-- A value that makes its shape has the shape that it makes. -/
theorem shape?_eq (h : s.Principal a id) (hv : s.value? a = some v)
    (hl : v.shapedParts.length = parts.length) (hm : s.madeShape? parts v = some x)
    (hp : ∀ p ∈ v.shapedParts.zip parts, ∀ want, s.Principal p.1 want → p.2 = want) :
    s.shape? id = some x := by
  cases h with
  | own hv' ho =>
    cases hv.symm.trans hv'
    cases (madeShape?_of_own ho).symm.trans hm
  | made hv' hl' hp' hm' hx =>
    cases hv.symm.trans hv'
    cases eq_of_zip hl hl' fun c y z hy hz => hp (c, y) hy z (hp' (c, z) hz)
    cases hm.symm.trans hm'
    exact hx

/-- There is one shape that says all of a value. -/
theorem unique (hs : s.WellFormed) (h : s.Principal a id) (h' : s.Principal a want) :
    id = want := by
  induction h generalizing want with
  | own hv ho =>
    cases h' with
    | own hv' ho' =>
      cases hv.symm.trans hv'
      exact Option.some.inj (ho.symm.trans ho')
    | made hv' _ _ hm =>
      cases hv.symm.trans hv'
      cases (madeShape?_of_own ho).symm.trans hm
  | made hv hl _ hm hx ih =>
    exact hs.shape_unique hx (h'.shape?_eq hv hl hm fun p hp _ => ih p hp)

/-- A value conforms to no other shape without a place for anything. -/
theorem eq_of_fits (hs : s.WellFormed) (h : s.Principal a id) (hf : s.fits a want = true)
    (hn : ¬s.ReachesAny want) : want = id := by
  have hne {want : ShapeId} (hn : ¬s.ReachesAny want) : want ≠ ShapeId.any := by
    rintro rfl
    exact hn .any
  induction h generalizing want with
  | @own a v id hv ho =>
    obtain ⟨-, y, hy⟩ := holds_of_fits hf
    cases suits_of_fits hs hv hy (hne hn) hf with
    | concrete => exact Option.some.inj ho
    | cotuple => exact Option.some.inj ho
    | _ => cases ho
  | @made a v id parts x hv hl hp hm hx ih =>
    obtain ⟨-, y, hy⟩ := holds_of_fits hf
    have hsame (h : y = x) : want = id := hs.shape_unique (h ▸ hy) hx
    cases suits_of_fits hs hv hy (hne hn) hf with
    | tuple hi =>
      cases hm
      obtain ⟨hlength, hi⟩ := List.forall₂_iff_zip.mp hi
      refine hsame (congrArg Shape.tuple (eq_of_zip hlength hl fun c y z hy' hz => ?_))
      exact ih (c, z) hz (hi hy') fun hr => hn (.tuple hy (List.of_mem_zip hy').2 hr)
    | identity ho =>
      obtain ⟨part, rfl⟩ := List.length_eq_one_iff.mp hl.symm
      cases hm
      refine hsame (congrArg Shape.identity ?_)
      exact ih _ List.mem_cons_self ho fun hr => hn (.identity hy hr)
    | nil hw =>
      cases hm
      obtain rfl | rfl := hw
      · exact hsame rfl
      · exact absurd (.list hy .any) hn
    | cons hw =>
      cases hm
      obtain rfl | rfl := hw
      · exact hsame rfl
      · exact absurd (.list hy .any) hn
    | function hb =>
      obtain ⟨b, hb', rfl⟩ := Option.map_eq_some_iff.mp hm
      cases hb.symm.trans hb'
      exact hsame rfl
    | concrete => cases hm
    | cotuple => cases hm
    | _ => exact hsame (Option.some.inj hm)

theorem knows (hs : s.WellFormed) (h : s.Principal a id) : s.Knows id := by
  obtain ⟨-, x, hx⟩ := holds_of_fits (h.fits hs)
  exact Interner.lt_size hx

end Principal

/-! ### Finding the shape -/

/-- What a value makes of known shapes is a sound shape. -/
theorem madeShape?_sound (h : s.WellFormed) (hv : s.value? a = some v)
    (hp : List.Forall₂ s.Principal v.shapedParts parts) (hm : s.madeShape? parts v = some x) :
    x.Sound s.shapes.size := by
  have hvalid := h.valid' hv
  have hnamed := h.named a v hv
  have hparts : ∀ part ∈ parts, part.index < s.shapes.size := fun part hpart => by
    obtain ⟨c, -, hc⟩ := exists_of_forall₂ hp.flip hpart
    exact hc.knows h
  cases v with
  | ring => cases hm; exact ⟨fun _ hc => absurd hc List.not_mem_nil, hvalid.2.1⟩
  | flex => cases hm; exact ⟨fun _ hc => absurd hc List.not_mem_nil, trivial⟩
  | char => cases hm; exact ⟨fun _ hc => absurd hc List.not_mem_nil, trivial⟩
  | text => cases hm; exact ⟨fun _ hc => absurd hc List.not_mem_nil, trivial⟩
  | tuple items =>
    cases hm
    have hsize : items.size < 2 ^ 32 := hvalid.2
    exact ⟨hparts, hp.length_eq.symm.trans_lt hsize⟩
  | function =>
    obtain ⟨b, hb, rfl⟩ := Option.map_eq_some_iff.mp hm
    have hbody := h.verified' hb
    refine ⟨fun part hc => ?_, hbody.arity_lt⟩
    rcases List.mem_append.mp hc with hc | hc
    · exact hbody.params part hc
    · exact List.mem_singleton.mp hc ▸ hbody.result
  | nil => cases hm; exact ⟨hnamed, trivial⟩
  | cons => cases hm; exact ⟨hnamed, trivial⟩
  | identity =>
    obtain ⟨part, rfl⟩ := List.length_eq_one_iff.mp hp.length_eq.symm
    cases hm
    exact ⟨hparts, trivial⟩
  | universal => cases hm; exact ⟨hnamed, trivial⟩
  | existential => cases hm; exact ⟨hnamed, trivial⟩
  | _ => cases hm

/-- The second store is the first one with shapes added, each the shape of the value at the
place or of one before it. -/
structure Shaping (a : Addr) (s t : Store) : Prop where
  values : t.values = s.values
  functions : t.functions = s.functions
  grown : s.Extends t
  sound : t.WellFormed
  added : ∀ id, t.Knows id → s.Knows id ∨ ∃ c, c.index ≤ a.index ∧ t.Principal c id

/-- There is no room for another shape, and that of the value at the place or of one before
it is not there. -/
structure NoRoom (a : Addr) (s : Store) (e : StoreError) (t : Store) : Prop where
  shaping : Shaping a s t
  exhausted : e = .exhausted
  full : maxEntries ≤ t.shapes.size
  missing : ∃ c, c.index ≤ a.index ∧ ∀ id, ¬t.Principal c id

namespace Shaping

theorem refl (h : s.WellFormed) (a : Addr) : Shaping a s s :=
  ⟨rfl, rfl, .refl s, h, fun _ hk => .inl hk⟩

theorem trans (h : Shaping a s t) (h' : Shaping a t u) : Shaping a s u := by
  refine ⟨h'.values.trans h.values, h'.functions.trans h.functions, h.grown.trans h'.grown,
    h'.sound, fun id hk => ?_⟩
  rcases h'.added id hk with hk | hc
  · refine (h.added id hk).imp_right fun ⟨c, hc, hp⟩ => ⟨c, hc, hp.mono h'.grown⟩
  · exact .inr hc

theorem mono (h : Shaping b s t) (hba : b.index ≤ a.index) : Shaping a s t :=
  ⟨h.values, h.functions, h.grown, h.sound, fun id hk =>
    (h.added id hk).imp_right fun ⟨c, hc, hp⟩ => ⟨c, hc.trans hba, hp⟩⟩

theorem noRoom {e : StoreError} (h : Shaping a s t) (h' : NoRoom a t e u) : NoRoom a s e u :=
  ⟨h.trans h'.shaping, h'.exhausted, h'.full, h'.missing⟩

end Shaping

theorem NoRoom.mono {e : StoreError} (h : NoRoom b s e t) (hba : b.index ≤ a.index) :
    NoRoom a s e t :=
  ⟨h.shaping.mono hba, h.exhausted, h.full, h.missing.imp fun _ hc => ⟨hc.1.trans hba, hc.2⟩⟩

/-- The shape that a value makes of the shapes of its parts is its shape. -/
theorem shape_made (h : s.WellFormed) (hv : s.value? a = some v)
    (hp : List.Forall₂ s.Principal v.shapedParts parts) (hm : s.madeShape? parts v = some x) :
    Ends (shape x s) (fun id t => Shaping a s t ∧ t.Principal a id) (NoRoom a s) := by
  obtain ⟨hl, hzip⟩ := List.forall₂_iff_zip.mp hp
  have hsound := madeShape?_sound h hv hp hm
  have hgrows := shape_grows x s h
  have hprincipal {id : ShapeId} {t : Store} (hst : s.Extends t) (hx : t.shape? id = some x) :
      t.Principal a id :=
    .made (hst.value? hv) hl (fun p hp => (hzip hp).mono hst) (madeShape?_mono hst hm) hx
  cases hf : s.shapes.find? x with
  | some id =>
    rw [shape_of_known hf]
    exact ⟨.refl h a, hprincipal (.refl s) (h.find?_shape_eq_some_iff.mp hf)⟩
  | none =>
    have hcheck := ShapeTable.check_eq_ok_iff.mpr hsound
    by_cases hlt : s.shapes.size < maxEntries
    · rw [shape_of_new hf hcheck hlt] at hgrows ⊢
      obtain ⟨hst, ht⟩ := hgrows
      have hnew : (s.shapes.insert x).get? (ShapeId.ofIndex s.shapes.size).index = some x := by
        rw [ShapeId.index_ofIndex hlt, Interner.get?_insert, if_pos rfl]
      have hnew := hprincipal hst hnew
      refine ⟨⟨rfl, rfl, hst, ht, fun id hk => ?_⟩, hnew⟩
      have hk : id.index < (s.shapes.insert x).size := hk
      rw [Interner.size_insert] at hk
      rcases Nat.lt_succ_iff_lt_or_eq.mp hk with hk | hk
      · exact .inl hk
      · rw [← ShapeId.ofIndex_index id, hk]
        exact .inr ⟨a, Nat.le_refl _, hnew⟩
    · rw [shape_of_full hf hcheck hlt]
      refine ⟨.refl h a, rfl, Nat.le_of_not_lt hlt, a, Nat.le_refl _, fun id hid => ?_⟩
      have hx := hid.shape?_eq hv hl hm fun p hp want hw => (hzip hp).unique h hw
      cases hf.symm.trans (h.find?_shape_eq_some_iff.mpr hx)

/-- Finding the shapes of several values, one after the other. -/
theorem shapes_ends {f : Addr → StoreM ShapeId} {cs : List Addr} (h : s.WellFormed)
    (hf : ∀ c ∈ cs, ∀ t, Shaping a s t →
      Ends (f c t) (fun id u => Shaping a t u ∧ u.Principal c id) (NoRoom a t)) :
    Ends (cs.mapM f s) (fun ids t => Shaping a s t ∧ List.Forall₂ t.Principal cs ids)
      (NoRoom a s) := by
  induction cs generalizing s with
  | nil => exact ⟨.refl h a, .nil⟩
  | cons c cs ih =>
    obtain ⟨hc, hcs⟩ := List.forall_mem_cons.mp hf
    rw [List.mapM_cons]
    refine Ends.bind ((hc s (.refl h a)).imp_value fun id t ⟨hst, hid⟩ => ?_)
    have hrest := ih hst.sound fun c hc u htu => hcs c hc u (hst.trans htu)
    refine Ends.bind (hrest.imp (fun ids u ⟨htu, hids⟩ => ?_) fun e u he => hst.noRoom he)
    exact ⟨hst.trans htu, .cons (hid.mono htu.grown) hids⟩

/-- Of a value that is there the shape is found, if there is room. -/
theorem shapeOfWithin_ends (depth : Nat) (h : s.WellFormed) (ha : s.Holds a)
    (hd : a.index < depth) :
    Ends (shapeOfWithin depth a s) (fun id t => Shaping a s t ∧ t.Principal a id)
      (NoRoom a s) := by
  induction depth generalizing s a with
  | zero => exact absurd hd (Nat.not_lt_zero _)
  | succ depth ih =>
    obtain ⟨v, hv⟩ := ha
    have hask : ask (fun s => liftM (s.resolve a)) s = .ok v s :=
      ask_eq_ok_iff.mpr ⟨lift_resolve_eq_ok_iff.mpr hv, rfl⟩
    have hchild {c : Addr} (hc : c ∈ v.children) {t : Store} (hst : Shaping a s t) :
        Ends (shapeOfWithin depth c t) (fun id u => Shaping a t u ∧ u.Principal c id)
          (NoRoom a t) := by
      have hlt := h.children a v hv c hc
      have hle := Nat.le_of_lt hlt
      have hheld := (h.holds_of_child hv hc).mono hst.grown
      exact (ih hst.sound hheld (by omega)).imp (fun _ _ hid => ⟨hid.1.mono hle, hid.2⟩)
        fun _ _ he => he.mono hle
    rw [shapeOfWithin, run_bind_of_ok hask]
    cases v with
    | tuple items =>
      refine Ends.bind ((shapes_ends h fun c hc t hst => hchild hc hst).imp_value
        fun ids t ⟨hst, hids⟩ => ?_)
      exact (shape_made hst.sound (hst.grown.value? hv) hids rfl).imp
        (fun _ _ hid => ⟨hst.trans hid.1, hid.2⟩) fun _ _ he => hst.noRoom he
    | identity of =>
      refine Ends.bind ((hchild List.mem_cons_self (.refl h a)).imp_value
        fun id t ⟨hst, hid⟩ => ?_)
      exact (shape_made hst.sound (hst.grown.value? hv) (.cons hid .nil) rfl).imp
        (fun _ _ hid => ⟨hst.trans hid.1, hid.2⟩) fun _ _ he => hst.noRoom he
    | function f captures =>
      obtain ⟨-, -, b, hb⟩ := h.valid' hv
      have hbody : ask (fun s => liftM (s.body f)) s = .ok b s :=
        ask_eq_ok_iff.mpr ⟨lift_body_eq_ok_iff.mpr hb, rfl⟩
      dsimp only
      rw [run_bind_of_ok hbody]
      exact shape_made h hv .nil (Option.map_eq_some_iff.mpr ⟨b, hb, rfl⟩)
    | cotuple => exact ⟨.refl h a, .own hv rfl⟩
    | concrete => exact ⟨.refl h a, .own hv rfl⟩
    | _ => exact shape_made h hv .nil rfl

/-- Different shapes are those of different values. So there are no more new shapes than
values up to the place, and fewer if one of these has no shape yet. -/
theorem Shaping.size_le (h : Shaping a s t) {c : Addr} (hc : c.index ≤ a.index)
    (hm : ∀ id, ¬t.Principal c id) : t.shapes.size ≤ s.shapes.size + a.index := by
  have hindex {i : Nat} (hi : i ∈ Finset.Ico s.shapes.size t.shapes.size) :
      (ShapeId.ofIndex i).index = i :=
    ShapeId.index_ofIndex ((Finset.mem_Ico.mp hi).2.trans_le h.sound.shapes.bounded)
  have hnew : ∀ i ∈ Finset.Ico s.shapes.size t.shapes.size,
      ∃ d : Addr, d.index ≤ a.index ∧ t.Principal d (ShapeId.ofIndex i) := fun i hi => by
    obtain ⟨hle, hlt⟩ := Finset.mem_Ico.mp hi
    refine (h.added (ShapeId.ofIndex i) ?_).resolve_left fun hk => ?_
    · rw [Knows, hindex hi]
      exact hlt
    · rw [Knows, hindex hi] at hk
      omega
  choose! f hf using hnew
  have hcard : (Finset.Ico s.shapes.size t.shapes.size).card ≤
      ((Finset.range (a.index + 1)).erase c.index).card := by
    refine Finset.card_le_card_of_injOn (fun i => (f i).index) (fun i hi => ?_)
      fun i hi j hj hij => ?_
    · obtain ⟨hle, hp⟩ := hf i hi
      refine Finset.mem_erase.mpr ⟨fun he => ?_, Finset.mem_range.mpr (Nat.lt_succ_of_le hle)⟩
      exact hm _ (Addr.eq_of_index he ▸ hp)
    · have hsame := (hf i hi).2.unique h.sound (Addr.eq_of_index hij ▸ (hf j hj).2)
      rw [← hindex hi, ← hindex hj, hsame]
  rw [Nat.card_Ico, Finset.card_erase_of_mem (Finset.mem_range.mpr (by omega)),
    Finset.card_range] at hcard
  omega

theorem shapeOf_ends (h : s.WellFormed) (ha : s.Holds a) :
    Ends (shapeOf a s) (fun id t => Shaping a s t ∧ t.Principal a id) (NoRoom a s) :=
  shapeOfWithin_ends _ h ha (Nat.lt_succ_self _)

/-- Room for one shape for each value up to the place is enough. -/
theorem shapeOf_of_room (h : s.WellFormed) (ha : s.Holds a)
    (hroom : s.shapes.size + a.index < maxEntries) : ∃ id t, shapeOf a s = .ok id t := by
  have hends := shapeOf_ends h ha
  cases hr : shapeOf a s with
  | ok id t => exact ⟨id, t, rfl⟩
  | error e t =>
    have hfull := hends.of_error hr
    obtain ⟨c, hc, hm⟩ := hfull.missing
    have := hfull.shaping.size_le hc hm
    have := hfull.full
    omega

end Store

end ValueMachine
