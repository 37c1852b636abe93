import Mathlib.Data.List.Nodup
import ValueMachine.Proofs.Data.Ring
import ValueMachine.Proofs.Store.Counting
import ValueMachine.Proofs.Store.Repetition

/-! All values of a finite shape.

`inhabitantsWithin` lists the abstract values of a shape, each that there is and each that
there may ever be: whatever is added to the store later, an abstract value of the shape is
one of those that are listed (`enumerate_settles`). There are as many as the cardinality
tells. Different parts make different values, and different values stand at different places,
so none is listed twice; and as every value that is made is valid, a list is only refused when
there is no room for more values (`inhabitantsWithin_gives`). Listing the values again gives
the same list and adds nothing. -/
namespace ValueMachine

namespace Store

variable {s t : Store} {a : Addr} {v : Value} {id : ShapeId}

/-! ### Values without outside data -/

/-- Nothing that stands for data outside the store is at the place or below it. -/
def Abstract (s : Store) (a : Addr) : Prop :=
  ∀ d v, Relation.ReflTransGen s.Child d a → s.value? d = some v → v.isAbstract = true

theorem abstract_iff (hv : s.value? a = some v) :
    s.Abstract a ↔ v.isAbstract = true ∧ ∀ c ∈ v.children, s.Abstract c := by
  constructor
  · intro h
    exact ⟨h a v .refl hv, fun c hc d w hd hw => h d w (hd.tail ⟨v, hv, hc⟩) hw⟩
  · rintro ⟨ha, hc⟩ d w hd hw
    rcases hd.cases_tail with rfl | ⟨c, hdc, u, hu, hcu⟩
    · cases hv.symm.trans hw
      exact ha
    · cases hv.symm.trans hu
      exact hc c hcu d w hdc hw

/-! ### Members of a finite shape -/

/-- The place holds an abstract value of the shape. -/
def Member (s : Store) (id : ShapeId) (a : Addr) : Prop := s.fits a id = true ∧ s.Abstract a

/-- What a member of a finite shape is, of which this is the place. -/
def Inhabits (s : Store) (id : ShapeId) (v : Value) : Shape → Prop
  | .ring bits => ∃ x, v = .ring bits x
  | .char width => ∃ c, v = .char c ∧ CharWidth.ofChar c = width
  | .tuple items => ∃ xs, v = .tuple xs ∧ List.Forall₂ (fun a t => s.Member t a) xs.toList items
  | .cotuple alternatives => ∃ tag payload want, v = .cotuple id tag payload ∧
      alternatives[tag.toNat]? = some want ∧ s.Member want payload
  | .identity of => ∃ a, v = .identity a ∧ s.Member of a
  | _ => False

/-- Of a stored value a depth above its place sees all. -/
theorem fitsWithin_eq_fits (h : s.WellFormed) {depth : Nat} (hd : a.index < depth)
    (ha : s.Holds a) (hid : s.Knows id) : s.fitsWithin depth a id = s.fits a id :=
  (h.mirrors_self h (.refl s)).fitsWithin_eq depth _ hd (Nat.lt_succ_self _)
    (.of_extends h (.refl s) ha) hid

theorem ne_any_of_shape (h : s.WellFormed) {x : Shape} (hx : s.shape? id = some x)
    (hany : x ≠ .any) : id ≠ ShapeId.any := by
  rintro rfl
  have hs : s.shape? ShapeId.any = some .any := h.shapes.prelude 0 .any rfl
  exact hany (Option.some.inj (hx.symm.trans hs))

theorem fits_items_iff {items : Array Addr} {shapes : List ShapeId} {depth : Nat} :
    (items.size == shapes.length &&
      (items.toList.zip shapes).reverse.all
        fun (item, want) => s.fitsWithin depth item want) = true ↔
      List.Forall₂ (fun item want => s.fitsWithin depth item want = true) items.toList shapes := by
  rw [Bool.and_eq_true, beq_iff_eq, List.all_reverse, List.all_eq_true, List.forall₂_iff_zip,
    Array.length_toList]
  exact and_congr_right fun _ => ⟨fun hall _ _ hp => hall _ hp, fun hall p hp => hall hp⟩

/-- A part of a value fits a part of the shape as it does by itself. -/
theorem WellFormed.fits_part (h : s.WellFormed) (hv : s.value? a = some v) {c : Addr}
    (hc : c ∈ v.children) {x : Shape} (hx : s.shape? id = some x) {want : ShapeId}
    (hw : want ∈ x.children) : s.fitsWithin a.index c want = s.fits c want :=
  fitsWithin_eq_fits h (h.children a v hv c hc) (h.holds_of_child hv hc) (h.knows_of_child hx hw)

/-- Finite shapes are those of rings and characters, and what is made of finite shapes. -/
theorem inhabits_of_member (h : s.WellFormed) {x : Shape} (hx : s.shape? id = some x)
    (hne : (id == ShapeId.any) = false) {depth n : Nat}
    (hn : s.countWithin (depth + 1) id = some n) (hv : s.value? a = some v)
    (hf : s.fits a id = true) (ha : s.Abstract a) : s.Inhabits id v x := by
  rw [countWithin, hx] at hn
  obtain ⟨hva, hbelow⟩ := (abstract_iff hv).mp ha
  unfold fits fitsWithin at hf
  rw [hv, hx] at hf
  dsimp only at hf
  rw [hne, Bool.false_or] at hf
  cases x with
  | ring bits =>
    cases v with
    | ring bits' y => exact ⟨y, by rw [eq_of_beq hf]⟩
    | concrete => cases hva
    | _ => cases hf
  | char width =>
    cases v with
    | char c => exact ⟨c, rfl, eq_of_beq hf⟩
    | concrete => cases hva
    | _ => cases hf
  | tuple shapes =>
    cases v with
    | tuple items =>
      obtain ⟨hlength, hfits⟩ := List.forall₂_iff_zip.mp (fits_items_iff.mp hf)
      refine ⟨items, rfl, List.forall₂_iff_zip.mpr ⟨hlength, fun {c want} hp => ?_⟩⟩
      obtain ⟨hc, hw⟩ := List.of_mem_zip hp
      exact ⟨(h.fits_part hv hc hx hw).symm.trans (hfits hp), hbelow c hc⟩
    | concrete => cases hva
    | _ => cases hf
  | cotuple alternatives =>
    cases v with
    | cotuple own tag payload =>
      have hown : own = id := eq_of_beq hf
      subst hown
      obtain ⟨-, alternatives', want, hs, hw, hfits⟩ := h.valid' hv
      cases hx.symm.trans hs
      exact ⟨tag, payload, want, rfl, hw, hfits, hbelow payload List.mem_cons_self⟩
    | concrete => cases hva
    | _ => cases hf
  | identity want =>
    cases v with
    | identity c =>
      have hpart := h.fits_part hv (c := c) List.mem_cons_self hx List.mem_cons_self
      exact ⟨c, rfl, hpart.symm.trans hf, hbelow c List.mem_cons_self⟩
    | concrete => cases hva
    | _ => cases hf
  | empty =>
    cases v with
    | concrete => cases hva
    | _ => cases hf
  | _ => cases hn

theorem member_of_inhabits (h : s.WellFormed) {x : Shape} (hx : s.shape? id = some x)
    (hne : (id == ShapeId.any) = false) (hv : s.value? a = some v) (hi : s.Inhabits id v x) :
    s.Member id a := by
  unfold Member fits fitsWithin
  rw [hv, hx]
  dsimp only
  rw [hne, Bool.false_or]
  cases x with
  | ring bits =>
    obtain ⟨y, rfl⟩ := hi
    refine ⟨beq_self_eq_true bits, ?_⟩
    exact (abstract_iff hv).mpr ⟨rfl, fun c hc => absurd hc List.not_mem_nil⟩
  | char width =>
    obtain ⟨c, rfl, hc⟩ := hi
    refine ⟨beq_iff_eq.mpr hc, ?_⟩
    exact (abstract_iff hv).mpr ⟨rfl, fun c hc => absurd hc List.not_mem_nil⟩
  | tuple shapes =>
    obtain ⟨items, rfl, hi⟩ := hi
    obtain ⟨hl, hmem⟩ := List.forall₂_iff_zip.mp hi
    refine ⟨fits_items_iff.mpr ?_, ?_⟩
    · refine List.forall₂_iff_zip.mpr ⟨hl, fun {c want} hp => ?_⟩
      obtain ⟨hc, hw⟩ := List.of_mem_zip hp
      exact (h.fits_part hv hc hx hw).trans (hmem hp).1
    · refine (abstract_iff hv).mpr ⟨rfl, fun c hc => ?_⟩
      obtain ⟨i, hlt, rfl⟩ := List.getElem_of_mem hc
      exact (hi.get hlt (hl ▸ hlt)).2
  | cotuple alternatives =>
    obtain ⟨tag, payload, want, rfl, -, -, hb⟩ := hi
    refine ⟨beq_self_eq_true id, ?_⟩
    exact (abstract_iff hv).mpr ⟨rfl, List.forall_mem_singleton.mpr hb⟩
  | identity want =>
    obtain ⟨c, rfl, hf, hb⟩ := hi
    have hpart := h.fits_part hv (c := c) List.mem_cons_self hx List.mem_cons_self
    exact ⟨hpart.trans hf, (abstract_iff hv).mpr ⟨rfl, List.forall_mem_singleton.mpr hb⟩⟩
  | _ => exact hi.elim

/-- The members of a finite shape, as its parts make them. -/
theorem member_iff (h : s.WellFormed) {x : Shape} (hx : s.shape? id = some x) {depth n : Nat}
    (hn : s.countWithin (depth + 1) id = some n) :
    s.Member id a ↔ ∃ v, s.value? a = some v ∧ s.Inhabits id v x := by
  have hany : x ≠ .any := by
    rintro rfl
    rw [countWithin, hx] at hn
    cases hn
  have hne : (id == ShapeId.any) = false := beq_false_of_ne (ne_any_of_shape h hx hany)
  constructor
  · rintro ⟨hf, ha⟩
    obtain ⟨⟨v, hv⟩, -⟩ := holds_of_fits hf
    exact ⟨v, hv, inhabits_of_member h hx hne hn hv hf ha⟩
  · rintro ⟨v, hv, hi⟩
    exact member_of_inhabits h hx hne hv hi

/-- The members in a later store are those that the parts make there. -/
theorem member_iff_of_extends (h : s.WellFormed) {x : Shape} (hx : s.shape? id = some x)
    {depth n : Nat} (hn : s.countWithin (depth + 1) id = some n) (hst : s.Extends t)
    (ht : t.WellFormed) : t.Member id a ↔ ∃ v, t.value? a = some v ∧ t.Inhabits id v x :=
  member_iff ht (hst.shape? hx) ((countWithin_lasts h hst _ (Interner.lt_size hx)).trans hn)

/-! ### Lists without repetition -/

section Lists
variable {α β : Type}

theorem exists_of_forall₂ {R : α → β → Prop} {xs : List α} {ys : List β}
    (h : List.Forall₂ R xs ys) {x : α} (hx : x ∈ xs) : ∃ y ∈ ys, R x y := by
  induction h with
  | nil => exact absurd hx List.not_mem_nil
  | cons hr _ ih =>
    rcases List.mem_cons.mp hx with rfl | hx
    · exact ⟨_, List.mem_cons_self, hr⟩
    · obtain ⟨y, hy, hr⟩ := ih hx
      exact ⟨y, List.mem_cons_of_mem _ hy, hr⟩

/-- Lists that have nothing in common, and of which none has anything twice. -/
theorem nodup_flatten_of_forall₂ {R : α → β → Prop} {xs : List α} {yss : List (List β)}
    (h : List.Forall₂ (fun x ys => ys.Nodup ∧ ∀ y ∈ ys, R x y) xs yss) (hd : xs.Nodup)
    (hR : ∀ x ∈ xs, ∀ x' ∈ xs, ∀ y, R x y → R x' y → x = x') : yss.flatten.Nodup := by
  induction h with
  | nil => exact List.nodup_nil
  | @cons x ys xs yss hys hrest ih =>
    obtain ⟨hx, hd⟩ := List.nodup_cons.mp hd
    have hrec := ih hd fun x hx x' hx' =>
      hR x (List.mem_cons_of_mem _ hx) x' (List.mem_cons_of_mem _ hx')
    refine List.nodup_append.mpr ⟨hys.1, hrec, fun y hy y' hy' => ?_⟩
    rintro rfl
    obtain ⟨ys', hmem, hy'⟩ := List.mem_flatten.mp hy'
    obtain ⟨x', hx', -, hall⟩ := exists_of_forall₂ hrest.flip hmem
    have := hR x List.mem_cons_self x' (List.mem_cons_of_mem _ hx') y (hys.2 y hy) (hall y hy')
    exact hx (this ▸ hx')

theorem nodup_of_forall₂ {R : α → β → Prop} {xs : List α} {ys : List β}
    (h : List.Forall₂ R xs ys) (hd : xs.Nodup)
    (hR : ∀ x ∈ xs, ∀ x' ∈ xs, ∀ y, R x y → R x' y → x = x') : ys.Nodup := by
  have hsingle : List.Forall₂ (fun x part => part.Nodup ∧ ∀ y ∈ part, R x y) xs
      (ys.map fun y => [y]) :=
    List.forall₂_map_right_iff.mpr (h.imp fun x y hy =>
      ⟨List.nodup_singleton y, List.forall_mem_singleton.mpr hy⟩)
  have hflat := nodup_flatten_of_forall₂ hsingle hd hR
  rwa [← List.flatMap_def, List.flatMap_singleton'] at hflat

end Lists

/-! ### Lists of members -/

/-- The list has the places of all members of the shape, and no others. -/
def Exhausts (s : Store) (id : ShapeId) (xs : List Addr) : Prop := ∀ x, x ∈ xs ↔ s.Member id x

theorem Exhausts.holds {xs : List Addr} (h : s.Exhausts id xs) : ∀ x ∈ xs, s.Holds x :=
  fun x hx => (holds_of_fits ((h x).mp hx).1).1

/-- The list has all members of the shape, which are so many. -/
def Lists (s : Store) (id : ShapeId) (n : Nat) (xs : List Addr) : Prop :=
  xs.length = n ∧ s.Exhausts id xs

/-- Different values that are interned one by one are at different places, which are listed. -/
theorem interned_gives {β : Type} {f : β → Value} {op : β → StoreM Addr} {bs : List β}
    (h : s.WellFormed) (hd : bs.Nodup) (hf : ∀ b ∈ bs, ∀ b' ∈ bs, f b = f b' → b = b')
    (ha : ∀ b, (f b).isAbstract = true)
    (hop : ∀ b ∈ bs, ∀ s' : Store, s.Extends s' → s'.WellFormed →
      Gives (op b) s' fun a t => t.value? a = some (f b)) :
    Gives (bs.mapM op) s fun ys t =>
      ys.Nodup ∧ ys.length = bs.length ∧ ∀ a, a ∈ ys ↔ ∃ b ∈ bs, t.value? a = some (f b) := by
  refine (Gives.mapM h hop).imp fun ys t _ ht hys => ⟨?_, hys.length_eq.symm, fun a => ⟨?_, ?_⟩⟩
  · refine nodup_of_forall₂ hys hd fun b hb b' hb' a hv hv' => hf b hb b' hb' ?_
    exact Option.some.inj (hv.symm.trans hv')
  · exact fun hm => exists_of_forall₂ hys.flip hm
  · rintro ⟨b, hb, hv⟩
    obtain ⟨y, hy, hv'⟩ := exists_of_forall₂ hys hb
    exact ht.place_unique hv hv' (ha b) ▸ hy

theorem identity_gives (h : s.WellFormed) {a : Addr} (ha : s.Holds a) :
    Gives (identity a a) s fun x t => t.value? x = some (.identity a) := by
  obtain ⟨v, hv⟩ := ha
  have hask : discard (liftM (s.resolve a) : Except StoreError Value) = .ok () :=
    discard_eq_ok_iff.mpr ⟨v, lift_resolve_eq_ok_iff.mpr hv⟩
  refine .ask_bind h (resolve_lasts ⟨v, hv⟩).discard hask ?_
  refine .ask_bind h (resolve_lasts ⟨v, hv⟩).discard hask ?_
  rw [if_pos rfl]
  exact .intern h ⟨List.forall_mem_singleton.mpr ⟨v, hv⟩, trivial⟩ rfl

/-- A ring has as many values as its width tells. -/
theorem ring_lt {bits : UInt8} {x : UInt64} (hx : Ring.truncate bits x = x) :
    x.toNat < 1 <<< bits.toNat := by
  rw [Nat.one_shiftLeft]
  exact Ring.truncate_eq_self_iff.mp hx

/-- A number that a ring is counted with is one of its values. -/
theorem truncate_of_lt {bits : UInt8} {k : Nat} (hk : k < 1 <<< bits.toNat)
    (hbound : 1 <<< bits.toNat ≤ maxCount) :
    Ring.truncate bits k.toUInt64 = k.toUInt64 ∧ k.toUInt64.toNat = k := by
  have hlt : 1 <<< bits.toNat < UInt64.size := Nat.lt_of_le_of_lt hbound (by decide)
  have hnat : k.toUInt64.toNat = k := UInt64.toNat_ofNat_of_lt' (Nat.lt_trans hk hlt)
  rw [Nat.one_shiftLeft] at hk
  exact ⟨Ring.truncate_eq_self_iff.mpr (hnat.symm ▸ hk), hnat⟩

/-- The parts of a shape, seen down to a depth, are listed in every later store. -/
def GivesParts (s : Store) (depth : Nat) (x : Shape) : Prop :=
  ∀ child ∈ x.children, ∀ t : Store, s.Extends t → t.WellFormed → ∀ n,
    s.countWithin depth child = some n →
      Gives (inhabitantsWithin depth child) t fun xs u => xs.Nodup ∧ u.Lists child n xs

section
variable (h : s.WellFormed) {depth n : Nat} (hn : s.countWithin (depth + 1) id = some n)
include h hn

theorem rings_give {bits : UInt8} (hx : s.shape? id = some (.ring bits)) :
    Gives ((List.range (1 <<< bits.toNat)).mapM fun x => ring bits x.toUInt64) s
      fun xs t => xs.Nodup ∧ t.Lists id n xs := by
  have hcount := hn
  rw [countWithin, hx] at hcount
  obtain ⟨hbound, rfl⟩ := bounded_eq_some_iff.mp hcount
  have hvalue {k : Nat} (hk : k ∈ List.range (1 <<< bits.toNat)) :=
    truncate_of_lt (List.mem_range.mp hk) hbound
  refine (interned_gives h (f := fun k => .ring bits k.toUInt64) List.nodup_range
    (fun k hk k' hk' heq => ?_) (fun _ => rfl) fun k hk s' _ hs' => ?_).imp
      fun ys t hst ht hys => ⟨hys.1, hys.2.1.trans List.length_range, fun a => ?_⟩
  · have heq : k.toUInt64 = k'.toUInt64 := (Value.ring.inj heq).2
    rw [← (hvalue hk).2, heq, (hvalue hk').2]
  · exact .intern hs' ⟨fun _ hc => absurd hc List.not_mem_nil,
      (h.shapes.sound _ _ hx).2, (hvalue hk).1⟩ rfl
  · rw [member_iff_of_extends h hx hn hst ht, hys.2.2]
    constructor
    · rintro ⟨k, -, ha⟩
      exact ⟨_, ha, _, rfl⟩
    · rintro ⟨_, ha, y, rfl⟩
      obtain ⟨-, -, hy⟩ := ht.valid' ha
      exact ⟨y.toNat, List.mem_range.mpr (ring_lt hy), by simpa using ha⟩

theorem chars_give {width : CharWidth} (hx : s.shape? id = some (.char width)) :
    Gives (width.chars.mapM char) s fun xs t => xs.Nodup ∧ t.Lists id n xs := by
  refine (interned_gives h (f := .char) width.nodup_chars (fun _ _ _ _ heq => Value.char.inj heq)
    (fun _ => rfl) fun c _ s' _ hs' => .intern hs' ⟨fun _ hc => absurd hc List.not_mem_nil,
      trivial⟩ rfl).imp fun ys t hst ht hys => ⟨hys.1, ?_, fun a => ?_⟩
  · rw [countWithin, hx] at hn
    exact (hys.2.1.trans width.length_chars).trans (Option.some.inj hn)
  · rw [member_iff_of_extends h hx hn hst ht, hys.2.2]
    constructor
    · rintro ⟨c, hc, ha⟩
      exact ⟨_, ha, c, rfl, CharWidth.mem_chars.mp hc⟩
    · rintro ⟨_, ha, c, rfl, hc⟩
      exact ⟨c, CharWidth.mem_chars.mpr hc, ha⟩

theorem tuples_give {items : List ShapeId} (hx : s.shape? id = some (.tuple items))
    (hparts : s.GivesParts depth (.tuple items)) :
    Gives (do
      let parts ← items.mapM (inhabitantsWithin depth)
      (choices parts).mapM tuple) s fun xs t => xs.Nodup ∧ t.Lists id n xs := by
  have hcount := hn
  rw [countWithin, hx] at hcount
  have hsize : items.length < 2 ^ 32 := (h.shapes.sound _ _ hx).2
  refine Gives.bind (.mapM h (P := fun child xs t =>
    s.countWithin depth child = some xs.length ∧ xs.Nodup ∧ t.Exhausts child xs)
    fun child hc s' hst hs' => ?_) fun parts s' hst hs' hlists => ?_
  · obtain ⟨k, hk⟩ := counted_of_foldlM hcount child hc
    refine (hparts child hc s' hst hs' k hk).imp ?_
    rintro xs t - - ⟨hnodup, rfl, hxs⟩
    exact ⟨hk, hnodup, hxs⟩
  · have hnodup : ∀ part ∈ parts, part.Nodup := fun part hpart => by
      obtain ⟨child, -, -, hp, -⟩ := exists_of_forall₂ hlists.flip hpart
      exact hp
    refine (interned_gives hs' (f := fun xs => .tuple xs.toArray) (nodup_choices hnodup)
      (fun xs _ xs' _ heq => List.toArray_inj (Value.tuple.inj heq)) (fun _ => rfl)
        fun xs hxs s'' hst' hs'' => ?_).imp
          fun ys t hst' ht hys hlists => ⟨hys.1, ?_, fun a => ?_⟩
    · -- What the parts have listed is still there when the tuples are made.
      have hchosen := mem_choices.mp hxs
      refine .intern hs'' ⟨fun a ha => ?_, ?_⟩ rfl
      · obtain ⟨part, hpart, ha⟩ := exists_of_forall₂ hchosen ha
        obtain ⟨child, -, -, -, hp⟩ := exists_of_forall₂ hlists.flip hpart
        exact (hp.holds a ha).mono hst'
      · show xs.length < 2 ^ 32
        rwa [hchosen.length_eq, ← hlists.length_eq]
    · have hlengths : List.Forall₂ (fun child k => s.countWithin depth child = some k) items
          (parts.map List.length) :=
        List.forall₂_map_right_iff.mpr (hlists.imp fun _ _ hp => hp.1)
      rw [foldlM_bounded hlengths hcount, hys.2.1, length_choices, List.prod_eq_foldl]
    · rw [member_iff_of_extends h hx hn (hst.trans hst') ht, hys.2.2]
      constructor
      · rintro ⟨xs, hxs, ha⟩
        refine ⟨_, ha, xs.toArray, rfl, ?_⟩
        refine (forall₂_of_common (mem_choices.mp hxs) hlists).imp ?_
        rintro b child ⟨part, hb, -, -, hpart⟩
        exact (hpart b).mp hb
      · rintro ⟨_, ha, xs, rfl, hxs⟩
        refine ⟨xs.toList, mem_choices.mpr ?_, ha⟩
        refine (forall₂_of_common hxs hlists.flip).imp ?_
        rintro b part ⟨child, hb, -, -, hpart⟩
        exact (hpart b).mpr hb

theorem cotuples_give {alternatives : Array ShapeId}
    (hx : s.shape? id = some (.cotuple alternatives))
    (hparts : s.GivesParts depth (.cotuple alternatives)) :
    Gives (do
      let parts ← alternatives.toList.zipIdx.mapM fun (alternative, tag) => do
        let payloads ← inhabitantsWithin depth alternative
        payloads.mapM fun payload => cotuple id tag.toUInt32 payload
      return parts.flatten) s fun xs t => xs.Nodup ∧ t.Lists id n xs := by
  have hcount := hn
  rw [countWithin, hx] at hcount
  have hsize : alternatives.size < 2 ^ 32 := (h.shapes.sound _ _ hx).2.2
  -- A shape has no more alternatives than there are tags, so none is wrapped around.
  have htag {p : ShapeId × Nat} (hp : p ∈ alternatives.toList.zipIdx) :
      p.2.toUInt32.toNat = p.2 ∧ alternatives[p.2]? = some p.1 := by
    have hget := List.mem_zipIdx_iff_getElem?.mp hp
    rw [Array.getElem?_toList] at hget
    obtain ⟨hlt, -⟩ := Array.getElem?_eq_some_iff.mp hget
    exact ⟨UInt32.toNat_ofNat_of_lt' (Nat.lt_trans hlt hsize), hget⟩
  refine Gives.bind (.mapM h (P := fun p xs t => s.countWithin depth p.1 = some xs.length ∧
    xs.Nodup ∧ ∀ a, a ∈ xs ↔ ∃ payload, t.Member p.1 payload ∧
      t.value? a = some (.cotuple id p.2.toUInt32 payload)) fun p hp s' hst hs' => ?_)
    fun parts s' hst hs' _ => .pure hs' fun t ht hst' hlists => ⟨?_, ?_, fun a => ?_⟩
  · have hc : p.1 ∈ alternatives.toList := List.fst_mem_of_mem_zipIdx hp
    obtain ⟨k, hk⟩ := counted_of_foldlM hcount p.1 hc
    refine (hparts p.1 hc s' hst hs' k hk).bind fun payloads s'' hst' hs'' hpayloads => ?_
    refine (interned_gives hs'' (f := .cotuple id p.2.toUInt32) hpayloads.1
      (fun _ _ _ _ heq => (Value.cotuple.inj heq).2.2) (fun _ => rfl)
        fun payload hm s₃ hst₃ hs₃ => ?_).imp
          fun ys t _ _ hys hpayloads => ⟨?_, hys.1, fun a => ?_⟩
    · refine .intern hs₃ ⟨List.forall_mem_singleton.mpr
        ((hpayloads.2.2.holds payload hm).mono hst₃), alternatives, p.1, ?_, ?_, ?_⟩ rfl
      · exact ((hst.trans hst').trans hst₃).shape? hx
      · rw [(htag hp).1, (htag hp).2]
      · exact fits_mono hst₃ ((hpayloads.2.2 payload).mp hm).1
    · rw [hk, hys.2.1, hpayloads.2.1]
    · rw [hys.2.2]
      exact exists_congr fun payload => and_congr_left fun _ => hpayloads.2.2 payload
  · have hdistinct : alternatives.toList.zipIdx.Nodup := by
      refine .of_map Prod.snd ?_
      rw [List.zipIdx_map_snd]
      exact List.nodup_range'
    refine nodup_flatten_of_forall₂ (hlists.imp fun p xs hxs =>
      ⟨hxs.2.1, fun a ha => ((hxs.2.2 a).mp ha).imp fun _ hp => hp.2⟩) hdistinct ?_
    rintro p hp p' hp' a ⟨payload, ha⟩ ⟨payload', ha'⟩
    have heq := (Value.cotuple.inj (Option.some.inj (ha.symm.trans ha'))).2.1
    have hsnd : p.2 = p'.2 := by rw [← (htag hp).1, heq, (htag hp').1]
    have hfst : p.1 = p'.1 := Option.some.inj (by rw [← (htag hp).2, hsnd, (htag hp').2])
    exact Prod.ext hfst hsnd
  · have hlengths : List.Forall₂ (fun child k => s.countWithin depth child = some k)
        alternatives.toList (parts.map List.length) := by
      rw [← List.zipIdx_map_fst 0 alternatives.toList, List.forall₂_map_left_iff,
        List.forall₂_map_right_iff]
      exact hlists.imp fun _ _ hp => hp.1
    rw [foldlM_bounded hlengths hcount, List.length_flatten, List.sum_eq_foldl]
  · rw [member_iff_of_extends h hx hn (hst.trans hst') ht, List.mem_flatten]
    constructor
    · rintro ⟨part, hpart, ha⟩
      obtain ⟨p, hp, -, -, hmem⟩ := exists_of_forall₂ hlists.flip hpart
      obtain ⟨payload, hpayload, ha⟩ := (hmem a).mp ha
      refine ⟨_, ha, p.2.toUInt32, payload, p.1, rfl, ?_, hpayload⟩
      rw [(htag hp).1, (htag hp).2]
    · rintro ⟨_, ha, tag, payload, want, rfl, hw, hpayload⟩
      rw [← Array.getElem?_toList] at hw
      have hp : (want, tag.toNat) ∈ alternatives.toList.zipIdx :=
        List.mem_zipIdx_iff_getElem?.mpr hw
      obtain ⟨part, hpart, -, -, hmem⟩ := exists_of_forall₂ hlists hp
      refine ⟨part, hpart, (hmem a).mpr ⟨payload, hpayload, ?_⟩⟩
      rw [show tag.toNat.toUInt32 = tag from UInt32.ofNat_toNat]
      exact ha

theorem identities_give {of : ShapeId} (hx : s.shape? id = some (.identity of))
    (hparts : s.GivesParts depth (.identity of)) :
    Gives (do
      let parts ← inhabitantsWithin depth of
      parts.mapM fun x => identity x x) s fun xs t => xs.Nodup ∧ t.Lists id n xs := by
  have hcount := hn
  rw [countWithin, hx] at hcount
  refine (hparts of List.mem_cons_self s (.refl s) h n hcount).bind
    fun parts s' hst hs' hlists => ?_
  refine (interned_gives hs' (f := .identity) hlists.1 (fun _ _ _ _ heq => Value.identity.inj heq)
    (fun _ => rfl) fun part hp s'' hst' hs'' => identity_gives hs''
      ((hlists.2.2.holds part hp).mono hst')).imp
        fun ys t hst' ht hys hlists => ⟨hys.1, hys.2.1.trans hlists.2.1, fun a => ?_⟩
  rw [member_iff_of_extends h hx hn (hst.trans hst') ht, hys.2.2]
  constructor
  · rintro ⟨part, hp, ha⟩
    exact ⟨_, ha, part, rfl, (hlists.2.2 part).mp hp⟩
  · rintro ⟨_, ha, part, rfl, hp⟩
    exact ⟨part, (hlists.2.2 part).mpr hp, ha⟩

end

/-- The values of a finite shape are listed, each once, unless there is no room for them. -/
theorem inhabitantsWithin_gives (depth : Nat) (h : s.WellFormed) {n : Nat}
    (hn : s.countWithin depth id = some n) :
    Gives (inhabitantsWithin depth id) s fun xs t => xs.Nodup ∧ t.Lists id n xs := by
  induction depth generalizing s id n with
  | zero => cases hn
  | succ depth ih =>
    have hid := knows_of_countWithin hn
    obtain ⟨x, hx⟩ := knows_iff.mp hid
    have hparts : s.GivesParts depth x := fun child hc t hst ht k hk =>
      ih ht ((countWithin_lasts h hst _ (h.knows_of_child hx hc)).trans hk)
    refine .ask_bind h (lookup_lasts hid) (ShapeTable.lift_lookup_eq_ok_iff.mpr hx) ?_
    cases x with
    | ring bits => exact rings_give h hn hx
    | char width => exact chars_give h hn hx
    | tuple items => exact tuples_give h hn hx hparts
    | cotuple alternatives => exact cotuples_give h hn hx hparts
    | identity of => exact identities_give h hn hx hparts
    | empty =>
      refine .pure h fun t ht hst => ⟨List.nodup_nil, ?_, fun a => ?_⟩
      · rw [countWithin, hx] at hn
        exact Option.some.inj hn
      · rw [member_iff_of_extends h hx hn hst ht]
        simp [Inhabits]
    | _ =>
      rw [countWithin, hx] at hn
      cases hn

/-- What `enumerate` answers: all members of the shape, as many as the cardinality tells,
or nothing if there is no cardinality within the limit. -/
def Enumerates (s : Store) (id : ShapeId) (limit : Nat) : Option (List Addr) → Prop
  | some xs => xs.length ≤ limit ∧ s.cardinality id = some xs.length ∧ s.Exhausts id xs
  | none => ∀ n, s.cardinality id = some n → limit < n

theorem enumerate_eq_some_iff {limit : Nat} {xs : List Addr} :
    enumerate id limit s = .ok (some xs) t ↔ ∃ n ≤ limit, s.cardinality id = some n ∧
      inhabitantsWithin (id.index + 1) id s = .ok xs t := by
  have hask : ask (fun s => .ok (s.cardinality id)) s = .ok (s.cardinality id) s := rfl
  unfold enumerate
  rw [run_bind_of_ok hask]
  cases s.cardinality id with
  | none => simp [run_pure_eq_ok_iff]
  | some n =>
    dsimp only
    by_cases hle : n ≤ limit
    · rw [if_pos hle, run_bind_eq_ok_iff]
      simp [run_pure_eq_ok_iff, hle]
    · rw [if_neg hle, run_pure_eq_ok_iff]
      simp [hle]

/-- Listing the values of a shape gives all of them, once and for all. -/
theorem enumerate_settles (h : s.WellFormed) (hid : s.Knows id) (limit : Nat) :
    Settles (enumerate id limit) s fun r t => t.Enumerates id limit r := by
  have hcard {t : Store} (hst : s.Extends t) := cardinality_lasts h hst hid
  have hasked : Lasts (fun s => .ok (s.cardinality id)) s := fun t _ hst =>
    congrArg Except.ok (hcard hst)
  refine .ask_bind h hasked fun r hr => ?_
  have hr : s.cardinality id = r := Except.ok.inj hr
  cases r with
  | none =>
    refine .pure h fun t _ hst n hn => ?_
    rw [hcard hst, hr] at hn
    cases hn
  | some n =>
    dsimp only
    split
    · next hle =>
      refine (inhabitantsWithin_gives _ h hr).settles.bind fun xs s' hst hs' _ => ?_
      refine .pure hs' fun t _ hst' ⟨_, hlength, hall⟩ => ⟨hlength ▸ hle, ?_, hall⟩
      rw [hcard (hst.trans hst'), hr, hlength]
    · next hle =>
      refine .pure h fun t _ hst k hk => ?_
      rw [hcard hst, hr] at hk
      cases hk
      omega

end Store

end ValueMachine
