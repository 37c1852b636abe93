import ValueMachine.Proofs.Store.Lists

/-! What conformance decides.

A value has a shape in the full sense (`Typed`) if it and all that is below it are what the
shape says: the payload of a cotuple has the shape of its alternative, the items of a list
have the shape of its elements, a statement has a predicate on its domain. Conformance does
not look that far. It decides the full sense all the same (`fits_iff_typed`), because what
it takes on trust was checked when the value was stored.

Conformance can be decided without recursion, with a stack of what is left to look at
(`examine`). Looking may complain about what is not there, but does not in a well-formed
store, and the stack runs empty (`examine_ends`). -/
namespace ValueMachine

namespace Store

variable {s : Store} {a : Addr} {v : Value} {id : ShapeId} {x : Shape}

/-! ### The full sense -/

/-- The value at the place has the shape, with all that is below it. -/
inductive Typed (s : Store) : Addr → ShapeId → Prop
  | any {a : Addr} (ha : s.Holds a) : Typed s a ShapeId.any
  /-- Of data outside the store nothing is known but the shape it was given. -/
  | concrete {a : Addr} {id : ShapeId} {external : UInt64}
      (hv : s.value? a = some (.concrete id external)) : Typed s a id
  | ring {a : Addr} {id : ShapeId} {bits : UInt8} {y : UInt64}
      (hv : s.value? a = some (.ring bits y)) (hx : s.shape? id = some (.ring bits)) : Typed s a id
  | flex {a : Addr} {id : ShapeId} {y : Flex} (hv : s.value? a = some (.flex y))
      (hx : s.shape? id = some .flex) : Typed s a id
  | char {a : Addr} {id : ShapeId} {c : Char} (hv : s.value? a = some (.char c))
      (hx : s.shape? id = some (.char (CharWidth.ofChar c))) : Typed s a id
  | text {a : Addr} {id : ShapeId} {y : String} (hv : s.value? a = some (.text y))
      (hx : s.shape? id = some .text) : Typed s a id
  | tuple {a : Addr} {id : ShapeId} {items : Array Addr} {shapes : List ShapeId}
      (hv : s.value? a = some (.tuple items)) (hx : s.shape? id = some (.tuple shapes))
      (hl : items.toList.length = shapes.length)
      (hi : ∀ p ∈ items.toList.zip shapes, Typed s p.1 p.2) : Typed s a id
  | cotuple {a payload : Addr} {id want : ShapeId} {tag : UInt32} {alternatives : Array ShapeId}
      (hv : s.value? a = some (.cotuple id tag payload))
      (hx : s.shape? id = some (.cotuple alternatives)) (hw : alternatives[tag.toNat]? = some want)
      (hp : Typed s payload want) : Typed s a id
  | function {a : Addr} {id : ShapeId} {f : FuncId} {captures : Array Addr} {b : Body}
      (hv : s.value? a = some (.function f captures)) (hb : s.body? f = some b)
      (hx : s.shape? id = some (.function b.params b.result)) : Typed s a id
  /-- The elements are of the declared shape, even where any would do. -/
  | list {a : Addr} {id elem want : ShapeId} {items : List Addr} (hv : s.ListOf elem items a)
      (hx : s.shape? id = some (.list want)) (hw : elem = want ∨ want = ShapeId.any)
      (hi : ∀ item ∈ items, Typed s item elem) : Typed s a id
  | identity {a of : Addr} {id want : ShapeId} (hv : s.value? a = some (.identity of))
      (hx : s.shape? id = some (.identity want)) (ho : Typed s of want) : Typed s a id
  | universal {a predicate : Addr} {id domain : ShapeId}
      (hv : s.value? a = some (.universal domain predicate))
      (hx : s.shape? id = some (.universal domain)) (hp : s.IsPredicate domain predicate) :
      Typed s a id
  | existential {a predicate : Addr} {id domain : ShapeId}
      (hv : s.value? a = some (.existential domain predicate))
      (hx : s.shape? id = some (.existential domain)) (hp : s.IsPredicate domain predicate) :
      Typed s a id

/-! ### One level of conformance -/

/-- The value goes with the shape at the place, and its parts with the parts of the shape. -/
inductive Suits (s : Store) (id : ShapeId) : Value → Shape → Prop
  | concrete {external : UInt64} {x : Shape} : Suits s id (.concrete id external) x
  | ring {bits : UInt8} {y : UInt64} : Suits s id (.ring bits y) (.ring bits)
  | flex {y : Flex} : Suits s id (.flex y) .flex
  | char {c : Char} : Suits s id (.char c) (.char (CharWidth.ofChar c))
  | text {y : String} : Suits s id (.text y) .text
  | tuple {items : Array Addr} {shapes : List ShapeId}
      (hi : List.Forall₂ (fun item want => s.fits item want = true) items.toList shapes) :
      Suits s id (.tuple items) (.tuple shapes)
  | cotuple {tag : UInt32} {payload : Addr} {alternatives : Array ShapeId} :
      Suits s id (.cotuple id tag payload) (.cotuple alternatives)
  | function {f : FuncId} {captures : Array Addr} {b : Body} (hb : s.body? f = some b) :
      Suits s id (.function f captures) (.function b.params b.result)
  | nil {elem want : ShapeId} (hw : elem = want ∨ want = ShapeId.any) :
      Suits s id (.nil elem) (.list want)
  | cons {elem want : ShapeId} {head tail : Addr} (hw : elem = want ∨ want = ShapeId.any) :
      Suits s id (.cons elem head tail) (.list want)
  | identity {of : Addr} {want : ShapeId} (ho : s.fits of want = true) :
      Suits s id (.identity of) (.identity want)
  | universal {domain : ShapeId} {predicate : Addr} :
      Suits s id (.universal domain predicate) (.universal domain)
  | existential {domain : ShapeId} {predicate : Addr} :
      Suits s id (.existential domain predicate) (.existential domain)

theorem WellFormed.shape?_any (h : s.WellFormed) : s.shape? ShapeId.any = some .any :=
  h.shapes.prelude 0 .any rfl

/-- A shape has one place. -/
theorem WellFormed.shape_unique (h : s.WellFormed) {want : ShapeId} (hx : s.shape? id = some x)
    (hw : s.shape? want = some x) : id = want :=
  ShapeId.eq_of_index (h.shapes.indexed.injective hx hw rfl)

/-- Every value has the shape of all values. -/
theorem fits_any (h : s.WellFormed) (ha : s.Holds a) : s.fits a ShapeId.any = true := by
  obtain ⟨v, hv⟩ := ha
  unfold fits fitsWithin
  rw [hv, h.shape?_any]
  rfl

/-- Any other shape is looked into. -/
theorem suits_of_fits (h : s.WellFormed) (hv : s.value? a = some v) (hx : s.shape? id = some x)
    (hne : id ≠ ShapeId.any) (hf : s.fits a id = true) : s.Suits id v x := by
  unfold fits fitsWithin at hf
  rw [hv, hx] at hf
  dsimp only at hf
  rw [beq_false_of_ne hne, Bool.false_or] at hf
  split at hf
  · exact eq_of_beq hf ▸ .concrete
  · exact absurd (h.shape_unique hx h.shape?_any) hne
  · exact eq_of_beq hf ▸ .ring
  · exact .flex
  · exact eq_of_beq hf ▸ .char
  · exact .text
  · obtain ⟨hl, hi⟩ := List.forall₂_iff_zip.mp (fits_items_iff.mp hf)
    refine .tuple (List.forall₂_iff_zip.mpr ⟨hl, fun {c want} hp => ?_⟩)
    obtain ⟨hc, hw⟩ := List.of_mem_zip hp
    exact (h.fits_part hv hc hx hw).symm.trans (hi hp)
  · exact eq_of_beq hf ▸ .cotuple
  · obtain ⟨-, -, b, hb⟩ := h.valid' hv
    rw [hb] at hf
    obtain ⟨rfl, rfl⟩ : b.params = _ ∧ b.result = _ := by simpa using hf
    exact .function hb
  · exact .nil (by simpa using hf)
  · exact .cons (by simpa using hf)
  · exact .identity ((h.fits_part hv List.mem_cons_self hx List.mem_cons_self).symm.trans hf)
  · exact eq_of_beq hf ▸ .universal
  · exact eq_of_beq hf ▸ .existential
  · cases hf

theorem fits_of_suits (h : s.WellFormed) (hv : s.value? a = some v) (hx : s.shape? id = some x)
    (hs : s.Suits id v x) : s.fits a id = true := by
  unfold fits fitsWithin
  rw [hv, hx]
  refine (Bool.or_eq_true _ _).mpr (.inr ?_)
  cases hs with
  | tuple hi =>
    obtain ⟨hl, hi⟩ := List.forall₂_iff_zip.mp hi
    refine fits_items_iff.mpr (List.forall₂_iff_zip.mpr ⟨hl, fun {c want} hp => ?_⟩)
    obtain ⟨hc, hw⟩ := List.of_mem_zip hp
    exact (h.fits_part hv hc hx hw).trans (hi hp)
  | identity ho => exact (h.fits_part hv List.mem_cons_self hx List.mem_cons_self).trans ho
  | function hb => simp [hb]
  | nil hw => simpa using hw
  | cons hw => simpa using hw
  | _ => simp

/-! ### Conformance decides the full sense -/

theorem conforms_eq_true_iff : s.conforms a id = .ok true ↔ s.fits a id = true := by
  rw [← checkConforms_eq_ok_iff]
  unfold checkConforms
  cases hc : s.conforms a id with
  | error e => exact ⟨fun h => (by cases h), fun h => (by cases h)⟩
  | ok b =>
    cases b with
    | true => exact ⟨fun _ => rfl, fun _ => rfl⟩
    | false => exact ⟨fun h => (by cases h), fun h => (by cases h)⟩

theorem fits_of_typed (h : s.WellFormed) (ht : s.Typed a id) : s.fits a id = true := by
  induction ht with
  | any ha => exact fits_any h ha
  | concrete hv =>
    obtain ⟨x, hx⟩ := Interner.get?_of_lt (h.named _ _ hv _ List.mem_cons_self)
    exact fits_of_suits h hv hx .concrete
  | ring hv hx => exact fits_of_suits h hv hx .ring
  | flex hv hx => exact fits_of_suits h hv hx .flex
  | char hv hx => exact fits_of_suits h hv hx .char
  | text hv hx => exact fits_of_suits h hv hx .text
  | tuple hv hx hl _ ih =>
    exact fits_of_suits h hv hx (.tuple (List.forall₂_iff_zip.mpr ⟨hl, fun hp => ih _ hp⟩))
  | cotuple hv hx => exact fits_of_suits h hv hx .cotuple
  | function hv hb hx => exact fits_of_suits h hv hx (.function hb)
  | list hv hx hw =>
    rcases hv.isListOf with hv | ⟨head, tail, hv⟩
    · exact fits_of_suits h hv hx (.nil hw)
    · exact fits_of_suits h hv hx (.cons hw)
  | identity hv hx _ ih => exact fits_of_suits h hv hx (.identity ih)
  | universal hv hx => exact fits_of_suits h hv hx .universal
  | existential hv hx => exact fits_of_suits h hv hx .existential

/-- What was declared of the parts of a value was checked when the value was stored. -/
theorem typed_of_fits (h : s.WellFormed) (hf : s.fits a id = true) : s.Typed a id := by
  induction hn : a.index using Nat.strongRecOn generalizing a id with
  | _ n ih =>
    subst hn
    obtain ⟨⟨v, hv⟩, x, hx⟩ := holds_of_fits hf
    by_cases hne : id = ShapeId.any
    · exact hne ▸ .any ⟨v, hv⟩
    have hbelow {c : Addr} (hc : c ∈ v.children) : c.index < a.index := h.children a v hv c hc
    have hlist {elem want : ShapeId} (hl : s.IsListOf elem a) (hx : s.shape? id = some (.list want))
        (hw : elem = want ∨ want = ShapeId.any) : s.Typed a id := by
      obtain ⟨items, hitems, hall⟩ := listOf_of_isListOf h hl
      exact .list hitems hx hw fun item hi => ih _ (hall item hi).1 (hall item hi).2 rfl
    cases suits_of_fits h hv hx hne hf with
    | concrete => exact .concrete hv
    | ring => exact .ring hv hx
    | flex => exact .flex hv hx
    | char => exact .char hv hx
    | text => exact .text hv hx
    | tuple hi =>
      obtain ⟨hl, hi⟩ := List.forall₂_iff_zip.mp hi
      exact .tuple hv hx hl fun p hp => ih _ (hbelow (List.of_mem_zip hp).1) (hi hp) rfl
    | cotuple =>
      obtain ⟨-, alternatives, want, hx, hw, hp⟩ := h.valid' hv
      exact .cotuple hv hx hw (ih _ (hbelow List.mem_cons_self) hp rfl)
    | function hb => exact .function hv hb hx
    | nil hw => exact hlist (.inl hv) hx hw
    | cons hw => exact hlist (.inr ⟨_, _, hv⟩) hx hw
    | identity ho => exact .identity hv hx (ih _ (hbelow List.mem_cons_self) ho rfl)
    | universal => exact .universal hv hx (h.valid' hv).2.2
    | existential => exact .existential hv hx (h.valid' hv).2.2

/-- Conformance decides whether a value has a shape with all that is below it. -/
theorem fits_iff_typed (h : s.WellFormed) : s.fits a id = true ↔ s.Typed a id :=
  ⟨typed_of_fits h, fits_of_typed h⟩

/-! ### Conformance with a stack -/

/-- The values that are still to be looked at, each with the shape it must have. -/
abbrev Pending := List (Addr × ShapeId)

/-- Nothing more is to be looked at, if all is well so far. -/
def Pending.done (well : Bool) : Option Pending := if well then some [] else none

/-- Looks at one value and one shape. They do not go together, or they do if what is
returned does. -/
def look (s : Store) (a : Addr) (id : ShapeId) : Except StoreError (Option Pending) := do
  let v ← s.resolve a
  if id = ShapeId.any then return some []
  match v, ← s.shapes.lookup id with
  | .concrete own _, _ => return Pending.done (own == id)
  | _, .any => return some []
  | .ring bits _, .ring want => return Pending.done (bits == want)
  | .flex _, .flex => return some []
  | .char c, .char width => return Pending.done (CharWidth.ofChar c == width)
  | .text _, .text => return some []
  | .tuple items, .tuple shapes =>
    return if items.size = shapes.length then some (items.toList.zip shapes) else none
  | .cotuple own _ _, .cotuple _ => return Pending.done (own == id)
  | .function f _, .function params result =>
    let b ← s.body f
    return Pending.done (b.params == params && b.result == result)
  | .nil elem, .list want | .cons elem _ _, .list want =>
    return Pending.done (elem == want || want == ShapeId.any)
  | .identity of, .identity want => return some [(of, want)]
  | .universal domain _, .universal want => return Pending.done (domain == want)
  | .existential domain _, .existential want => return Pending.done (domain == want)
  | _, _ => return none

/-- Looks so many times at what is on top of a stack, where what turns up is put on top of
the rest, the last item first. There is no answer if that was not enough. -/
def examine (s : Store) : Nat → Pending → Except StoreError (Option Bool)
  | _, [] => return some true
  | 0, _ :: _ => return none
  | looks + 1, (a, id) :: rest => do
    match ← s.look a id with
    | some more => s.examine looks (more.reverse ++ rest)
    | none => return some false

/-- What a look is worth: it tells whether the value has the shape, given whether the parts
do that it leaves to be looked at. -/
def Judges (s : Store) (a : Addr) (id : ShapeId) : Option Pending → Prop
  | none => s.fits a id = false
  | some more => (∀ p ∈ more, s.Child p.1 a ∧ s.Knows p.2) ∧
      (s.fits a id = true ↔ ∀ p ∈ more, s.fits p.1 p.2 = true)

theorem judges_done {well : Bool} (h : s.fits a id = true ↔ well = true) :
    s.Judges a id (Pending.done well) := by
  cases well with
  | true => exact ⟨fun p hp => absurd hp List.not_mem_nil, by simpa using h⟩
  | false => exact Bool.eq_false_iff.mpr fun hf => Bool.false_ne_true (h.mp hf)

/-- A look does not complain about what is there. -/
theorem look_ends (h : s.WellFormed) (ha : s.Holds a) (hid : s.Knows id) :
    ∃ r, s.look a id = .ok r ∧ s.Judges a id r := by
  obtain ⟨v, hv⟩ := ha
  obtain ⟨x, hx⟩ := knows_iff.mp hid
  have hresolve : (liftM (s.resolve a) : Except StoreError Value) = .ok v :=
    lift_resolve_eq_ok_iff.mpr hv
  have hlookup : (liftM (s.shapes.lookup id) : Except StoreError Shape) = .ok x :=
    ShapeTable.lift_lookup_eq_ok_iff.mpr hx
  unfold look
  rw [hresolve]
  by_cases hne : id = ShapeId.any
  · refine ⟨some [], by simp [hne, bind, Except.bind, pure, Except.pure], ?_⟩
    exact judges_done (iff_of_true (hne ▸ fits_any h ⟨v, hv⟩) (rfl : true = true))
  have hsuits : s.fits a id = true ↔ s.Suits id v x :=
    ⟨suits_of_fits h hv hx hne, fits_of_suits h hv hx⟩
  have hdone {well : Bool} (hw : s.Suits id v x ↔ well = true) :
      ∃ r, (.ok (Pending.done well) : Except StoreError _) = .ok r ∧ s.Judges a id r :=
    ⟨_, rfl, judges_done (hsuits.trans hw)⟩
  have hsame {β : Type} [DecidableEq β] {y z : β} (hs : s.Suits id v x → y = z)
      (hw : y = z → s.Suits id v x) :
      ∃ r, (.ok (Pending.done (y == z)) : Except StoreError _) = .ok r ∧ s.Judges a id r :=
    hdone (Iff.trans ⟨hs, hw⟩ beq_iff_eq.symm)
  have hchild {c : Addr} (hc : c ∈ v.children) : s.Child c a := ⟨v, hv, hc⟩
  simp only [hne, hlookup, if_false, bind, Except.bind, pure, Except.pure]
  -- One case for each pair that is told apart, in the order of `look`.
  split
  · exact hsame (fun | .concrete => rfl) fun hw => hw ▸ .concrete
  · exact absurd (h.shape_unique hx h.shape?_any) hne
  · exact hsame (fun | .ring => rfl) fun hw => hw ▸ .ring
  · exact hdone (iff_of_true .flex (rfl : true = true))
  · exact hsame (fun | .char => rfl) fun hw => hw ▸ .char
  · exact hdone (iff_of_true .text (rfl : true = true))
  · next items shapes =>
    refine ⟨_, rfl, ?_⟩
    split
    · next hl =>
      refine ⟨fun p hp => ?_, hsuits.trans ⟨fun | .tuple hi => ?_, fun hi => ?_⟩⟩
      · obtain ⟨hc, hw⟩ := List.of_mem_zip hp
        exact ⟨hchild hc, h.knows_of_child hx hw⟩
      · exact fun p hp => (List.forall₂_iff_zip.mp hi).2 hp
      · exact .tuple (List.forall₂_iff_zip.mpr ⟨hl, fun hp => hi _ hp⟩)
    · next hl =>
      refine Bool.eq_false_iff.mpr fun hf => ?_
      cases hsuits.mp hf with
      | tuple hi => exact hl hi.length_eq
  · exact hsame (fun | .cotuple => rfl) fun hw => hw ▸ .cotuple
  · next f captures params result =>
    obtain ⟨-, -, b, hb⟩ := h.valid' hv
    have hbody : (liftM (s.body f) : Except StoreError Body) = .ok b := lift_body_eq_ok_iff.mpr hb
    rw [hbody]
    refine hdone ⟨fun | .function hb' => ?_, fun hw => ?_⟩
    · cases hb.symm.trans hb'
      simp
    · obtain ⟨rfl, rfl⟩ : b.params = params ∧ b.result = result := by simpa using hw
      exact .function hb
  · exact hdone ⟨fun | .nil hw => by simpa using hw, fun hw => .nil (by simpa using hw)⟩
  · exact hdone ⟨fun | .cons hw => by simpa using hw, fun hw => .cons (by simpa using hw)⟩
  · have hof := hchild List.mem_cons_self
    refine ⟨_, rfl, List.forall_mem_singleton.mpr ⟨hof, h.knows_of_child hx List.mem_cons_self⟩, ?_⟩
    rw [hsuits, List.forall_mem_singleton]
    exact ⟨fun | .identity ho => ho, .identity⟩
  · exact hsame (fun | .universal => rfl) fun hw => hw ▸ .universal
  · exact hsame (fun | .existential => rfl) fun hw => hw ▸ .existential
  · refine ⟨none, rfl, Bool.eq_false_iff.mpr fun hf => ?_⟩
    cases hsuits.mp hf <;> grind

/-- Enough looks settle the pairs that are on top of the stack, whatever the rest: they are
taken off if all of them go together, and that is the end if one does not. -/
def Settled (s : Store) (top : Pending) : Prop :=
  ∃ looks, ∀ rest more, s.examine (looks + more) (top ++ rest) =
    bif top.all fun p => s.fits p.1 p.2 then s.examine more rest else .ok (some false)

theorem settled_all {top : Pending} (h : ∀ p ∈ top, s.Settled [p]) : s.Settled top := by
  induction top with
  | nil => exact ⟨0, fun rest more => by simp⟩
  | cons p top ih =>
    obtain ⟨hp, htop⟩ := List.forall_mem_cons.mp h
    obtain ⟨looks, hp⟩ := hp
    obtain ⟨looks', htop⟩ := ih htop
    refine ⟨looks + looks', fun rest more => ?_⟩
    have hfirst := hp (top ++ rest) (looks' + more)
    rw [List.singleton_append, ← Nat.add_assoc, htop rest more] at hfirst
    rw [List.cons_append, hfirst]
    cases hf : s.fits p.1 p.2 <;> simp [hf]

/-- Whatever is there is settled, since what a look leaves lies below. -/
theorem settled_of_holds (h : s.WellFormed) (ha : s.Holds a) (hid : s.Knows id) :
    s.Settled [(a, id)] := by
  induction a using h.child_wellFounded.induction generalizing id with
  | _ a ih =>
    obtain ⟨r, hlook, hr⟩ := look_ends h ha hid
    cases r with
    | none =>
      refine ⟨1, fun rest more => ?_⟩
      have hf : s.fits a id = false := hr
      rw [Nat.add_comm, List.singleton_append, examine, hlook]
      simp [hf, bind, Except.bind, pure, Except.pure]
    | some parts =>
      obtain ⟨hbelow, hfits⟩ := hr
      have hparts : s.Settled parts.reverse := settled_all fun p hp => by
        obtain ⟨hc, hk⟩ := hbelow p (List.mem_reverse.mp hp)
        have hheld : s.Holds p.1 := hc.elim fun _ hv => h.holds_of_child hv.1 hv.2
        exact ih p.1 hc hheld hk
      obtain ⟨looks, hparts⟩ := hparts
      refine ⟨looks + 1, fun rest more => ?_⟩
      rw [Nat.add_right_comm, List.singleton_append, examine, hlook]
      show s.examine (looks + more) (parts.reverse ++ rest) = _
      have hall : s.fits a id = parts.all fun p => s.fits p.1 p.2 :=
        Bool.eq_iff_iff.mpr (hfits.trans List.all_eq_true.symm)
      rw [hparts rest more, List.all_reverse]
      simp [hall]

/-- The stack runs empty, and the answer is that of conformance. -/
theorem examine_ends (h : s.WellFormed) (ha : s.Holds a) (hid : s.Knows id) :
    ∃ looks, ∀ more, s.examine (looks + more) [(a, id)] = .ok (some (s.fits a id)) := by
  obtain ⟨looks, hsettled⟩ := settled_of_holds h ha hid
  refine ⟨looks, fun more => (hsettled [] more).trans ?_⟩
  cases hf : s.fits a id <;> simp [hf, examine, pure, Except.pure]

end Store

end ValueMachine
