import ValueMachine.Proofs.Store.Interning
import ValueMachine.Proofs.Store.Unfolding

/-! Stores that hold twins of the same values.

Two stores that have grown from one store may keep the same value at different places,
because one of them holds more. The second store `Mirrors` the first if every value of
the first has a twin in it. Then every question about the first store has the same answer
about the twins in the second, up to places; and when the same value is interned in both,
each ends with a twin of it, whether it was there before or not. -/
namespace ValueMachine

/-! ### Complaints -/

/-- The complaint with its places replaced. -/
def Mismatch.rename (r : Addr → Addr) : Mismatch → Mismatch
  | nonconforming a t => nonconforming (r a) t
  | predicate a domain => predicate (r a) domain
  | notEqual a b => notEqual (r a) (r b)
  | m => m

/-- The places that a complaint is about. -/
def Mismatch.places : Mismatch → List Addr
  | nonconforming a _ | predicate a _ => [a]
  | notEqual a b => [a, b]
  | _ => []

theorem Mismatch.rename_of_places {m : Mismatch} (h : m.places = []) (r : Addr → Addr) :
    m.rename r = m := by
  cases m <;> first | rfl | cases h

/-- The same complaint about related places. -/
inductive Mismatch.Alike (R : Addr → Addr → Prop) : Mismatch → Mismatch → Prop
  | nonconforming {a b : Addr} (h : R a b) (t : ShapeId) :
    Alike R (.nonconforming a t) (.nonconforming b t)
  | predicate {a b : Addr} (h : R a b) (domain : ShapeId) :
    Alike R (.predicate a domain) (.predicate b domain)
  | notEqual {a b c d : Addr} (h : R a b) (h' : R c d) : Alike R (.notEqual a c) (.notEqual b d)
  | same {m : Mismatch} (h : m.places = []) : Alike R m m

/-- The same refusal of a request about related places that are there. -/
inductive StoreError.Alike (R : Addr → Addr → Prop) : StoreError → StoreError → Prop
  | mismatch {m n : Mismatch} (h : m.Alike R n) : Alike R (.mismatch m) (.mismatch n)

theorem Mismatch.Alike.eq_rename {R : Addr → Addr → Prop} {m n : Mismatch} (h : m.Alike R n)
    {r : Addr → Addr} (hr : ∀ a b, R a b → b = r a) : n = m.rename r := by
  cases h with
  | nonconforming h t => rw [hr _ _ h, rename]
  | predicate h domain => rw [hr _ _ h, rename]
  | notEqual h h' => rw [hr _ _ h, hr _ _ h', rename]
  | same h => exact (rename_of_places h r).symm

theorem Mismatch.Alike.places {R : Addr → Addr → Prop} {m n : Mismatch} (h : m.Alike R n) :
    List.Forall₂ R m.places n.places := by
  cases h with
  | nonconforming h t => exact .cons h .nil
  | predicate h domain => exact .cons h .nil
  | notEqual h h' => exact .cons h (.cons h' .nil)
  | same h =>
    rw [h]
    exact .nil

theorem Value.Alike.size_eq {R : Addr → Addr → Prop} {v w : Value} (h : v.Alike R w) :
    v.size = w.size := by
  cases h with
  | tuple h => exact h.length_eq
  | function f h => exact h.length_eq
  | _ => rfl

theorem Value.Alike.eq_rename {R : Addr → Addr → Prop} {v w : Value} (h : v.Alike R w)
    {r : Addr → Addr} (hr : ∀ a b, R a b → b = r a) : w = v.rename r := by
  refine (Alike.of_stem (h.stem_eq.symm.trans (stem_rename r v).symm) ?_).eq
  rw [children_rename]
  exact List.forall₂_map_right_iff.mpr (h.children.flip.imp fun b a hab => hr a b hab)

/-- A test of all pairs with the elements of a list has one answer for two lists if it has
for their elements. -/
theorem all_zip_congr {α β γ : Type} {R : α → β → Prop} {xs : List α} {ys : List β} {zs : List γ}
    {f : α → γ → Bool} {g : β → γ → Bool} (h : List.Forall₂ R xs ys)
    (hfg : ∀ x ∈ xs, ∀ y ∈ ys, R x y → ∀ z ∈ zs, f x z = g y z) :
    ((xs.zip zs).all fun p => f p.1 p.2) = (ys.zip zs).all fun p => g p.1 p.2 := by
  induction h generalizing zs with
  | nil => rfl
  | cons hxy _ ih =>
    cases zs with
    | nil => rfl
    | cons z zs =>
      rw [List.zip_cons_cons, List.zip_cons_cons, List.all_cons, List.all_cons,
        hfg _ List.mem_cons_self _ List.mem_cons_self hxy z List.mem_cons_self]
      congr 1
      exact ih fun x hx y hy hxy z hz => hfg x (List.mem_cons_of_mem _ hx) y
        (List.mem_cons_of_mem _ hy) hxy z (List.mem_cons_of_mem _ hz)

namespace Store

/-- Both stores have grown from the base, and every value of the first has a twin in the
second. The first has no other functions than the base, and its values name only shapes
of the base. -/
structure Mirrors (base s t : Store) : Prop where
  origin : base.WellFormed
  left : s.WellFormed
  right : t.WellFormed
  grown : base.Extends s
  grown' : base.Extends t
  functions : s.functions = base.functions
  named : ∀ a v, s.value? a = some v → ∀ id ∈ v.shapes, base.Knows id
  twin : ∀ a, s.Holds a → ∃ b, Twins s t a b

namespace Twins

variable {s t s' t' : Store} {a b c d : Addr}

theorem mono (h : Twins s t a b) (hs : s.Extends s') (ht : t.Extends t') : Twins s' t' a b :=
  h.imp fun _ hx => ⟨tree?_mono hs hx.1, tree?_mono ht hx.2⟩

theorem right_unique (ht : t.WellFormed) (h : Twins s t a b) (h' : Twins s t a c) : b = c := by
  obtain ⟨x, ha, hb⟩ := h
  obtain ⟨y, ha', hc⟩ := h'
  cases ha.symm.trans ha'
  exact Twins.eq ht ⟨x, hb, hc⟩

theorem left_unique (hs : s.WellFormed) (h : Twins s t a c) (h' : Twins s t b c) : a = b :=
  h.symm.right_unique hs h'.symm

end Twins

namespace Mirrors

variable {base s t : Store} {a b c d : Addr} {v w : Value} {id : ShapeId}

theorem twins_of_base (h : base.Mirrors s t) (ha : base.Holds a) : Twins s t a a := by
  obtain ⟨x, hx⟩ := h.origin.holds_iff_tree?.mp ha
  exact ⟨x, tree?_mono h.grown hx, tree?_mono h.grown' hx⟩

/-- The values of twins agree up to twin children. -/
theorem values (h : base.Mirrors s t) (hab : Twins s t a b) : ∃ v w, s.value? a = some v ∧
    t.value? b = some w ∧ v.Alike (Twins s t) w := by
  obtain ⟨v, hv⟩ := hab.symm.holds h.left
  obtain ⟨w, hw⟩ := hab.holds h.right
  exact ⟨v, w, hv, hw, (hab.alike h.left h.right hv hw).1⟩

theorem eq_iff (h : base.Mirrors s t) (hab : Twins s t a b) (hcd : Twins s t c d) :
    a = c ↔ b = d := by
  constructor
  · rintro rfl
    exact hab.right_unique h.right hcd
  · rintro rfl
    exact hab.left_unique h.left hcd

/-- Both stores have the shapes of the base. -/
theorem shapes (h : base.Mirrors s t) (hid : base.Knows id) : ∃ x, s.shape? id = some x ∧
    t.shape? id = some x ∧ ∀ child ∈ x.children, base.Knows child := by
  obtain ⟨x, hx⟩ := knows_iff.mp hid
  exact ⟨x, h.grown.shape? hx, h.grown'.shape? hx, fun _ hc => h.origin.knows_of_child hx hc⟩

theorem body? (h : base.Mirrors s t) {f : FuncId} {b : Body} (hb : s.body? f = some b) :
    base.body? f = some b ∧ t.body? f = some b := by
  have hb : base.body? f = some b := by
    show base.functions[f.index]? = some b
    rw [← h.functions]
    exact hb
  exact ⟨hb, h.grown'.body? hb⟩

/-! ### Questions -/

theorem fitsWithin_eq (h : base.Mirrors s t) (depth depth' : Nat) (ha : a.index < depth)
    (hb : b.index < depth') (hab : Twins s t a b) (hid : base.Knows id) :
    s.fitsWithin depth a id = t.fitsWithin depth' b id := by
  induction depth generalizing depth' a b id with
  | zero => exact absurd ha (Nat.not_lt_zero _)
  | succ depth ih =>
    cases depth' with
    | zero => exact absurd hb (Nat.not_lt_zero _)
    | succ depth' =>
      obtain ⟨v, w, hv, hw, hvw⟩ := h.values hab
      obtain ⟨x, hx, hx', hknown⟩ := h.shapes hid
      have hbelow {c d : Addr} (hc : c ∈ v.children) (hd : d ∈ w.children) (hcd : Twins s t c d)
          {child : ShapeId} (hchild : child ∈ x.children) :
          s.fitsWithin depth c child = t.fitsWithin depth' d child := by
        have hc := h.left.children a v hv c hc
        have hd := h.right.children b w hw d hd
        exact ih depth' (by omega) (by omega) hcd (hknown child hchild)
      unfold fitsWithin
      rw [hv, hw, hx, hx']
      cases hvw with
      | @tuple xs ys hitems =>
        cases x with
        | tuple shapes =>
          have hall : ((xs.toList.zip shapes).all fun p => s.fitsWithin depth p.1 p.2) =
              (ys.toList.zip shapes).all fun p => t.fitsWithin depth' p.1 p.2 :=
            all_zip_congr hitems fun c hc d hd hcd want hwant => hbelow hc hd hcd hwant
          dsimp only
          rw [← Array.length_toList, ← Array.length_toList, hitems.length_eq, List.all_reverse,
            List.all_reverse, hall]
        | _ => rfl
      | identity hof =>
        cases x with
        | identity want =>
          exact congrArg (id == ShapeId.any || ·)
            (hbelow List.mem_cons_self List.mem_cons_self hof List.mem_cons_self)
        | _ => rfl
      | function f hcaptures =>
        cases x with
        | function params result =>
          obtain ⟨-, -, b, hb⟩ := h.left.valid' hv
          dsimp only
          rw [hb, (h.body? hb).2]
        | _ => rfl
      | _ => cases x <;> rfl

theorem fits_eq (h : base.Mirrors s t) (hab : Twins s t a b) (hid : base.Knows id) :
    s.fits a id = t.fits b id :=
  h.fitsWithin_eq _ _ (Nat.lt_succ_self _) (Nat.lt_succ_self _) hab hid

/-- What is said of two refusals. -/
abbrev Refusals (s t : Store) : StoreError → StoreError → Prop := StoreError.Alike (Twins s t)

theorem resolve_answers (h : base.Mirrors s t) (hab : Twins s t a b) :
    Answers (fun v w => s.value? a = some v ∧ t.value? b = some w ∧ v.Alike (Twins s t) w)
      (Refusals s t) (liftM (s.resolve a)) (liftM (t.resolve b)) := by
  obtain ⟨v, w, hv, hw, hvw⟩ := h.values hab
  have hv' : (liftM (s.resolve a) : Except StoreError Value) = .ok v :=
    lift_resolve_eq_ok_iff.mpr hv
  have hw' : (liftM (t.resolve b) : Except StoreError Value) = .ok w :=
    lift_resolve_eq_ok_iff.mpr hw
  rw [hv', hw']
  exact .ok ⟨hv, hw, hvw⟩

theorem lookup_answers (h : base.Mirrors s t) (hid : base.Knows id) :
    Answers (fun x y => x = y ∧ ∀ child ∈ x.children, base.Knows child) (Refusals s t)
      (liftM (s.shapes.lookup id)) (liftM (t.shapes.lookup id)) := by
  obtain ⟨x, hx, hx', hknown⟩ := h.shapes hid
  have hs : s.shapes.lookup id = .ok x := ShapeTable.lookup_eq_ok_iff.mpr hx
  have ht : t.shapes.lookup id = .ok x := ShapeTable.lookup_eq_ok_iff.mpr hx'
  rw [hs, ht]
  exact .ok ⟨rfl, hknown⟩

theorem alternatives_answers (h : base.Mirrors s t) (hid : base.Knows id) :
    Answers (fun x y => x = y ∧ ∀ child ∈ x.toList, base.Knows child) (Refusals s t)
      (liftM (s.shapes.alternatives id)) (liftM (t.shapes.alternatives id)) := by
  obtain ⟨x, hx, hx', hknown⟩ := h.shapes hid
  have hs : s.shapes.lookup id = .ok x := ShapeTable.lookup_eq_ok_iff.mpr hx
  have ht : t.shapes.lookup id = .ok x := ShapeTable.lookup_eq_ok_iff.mpr hx'
  unfold ShapeTable.alternatives
  rw [hs, ht]
  cases x with
  | cotuple alternatives => exact .ok ⟨rfl, hknown⟩
  | _ => exact .error (.mismatch (.same rfl))

theorem body_answers (h : base.Mirrors s t) {f : FuncId} {b : Body} (hb : s.body? f = some b) :
    Answers (fun x y => x = y ∧ base.body? f = some x) (Refusals s t)
      (liftM (s.body f)) (liftM (t.body f)) := by
  obtain ⟨hbase, hright⟩ := h.body? hb
  have hs : s.body f = .ok b := body_eq_ok_iff.mpr hb
  have ht : t.body f = .ok b := body_eq_ok_iff.mpr hright
  rw [hs, ht]
  exact .ok ⟨rfl, hbase⟩

theorem checkConforms_answers (h : base.Mirrors s t) (hab : Twins s t a b) (hid : base.Knows id) :
    Answers (fun _ _ => True) (Refusals s t) (s.checkConforms a id) (t.checkConforms b id) := by
  refine Answers.bind (V := Eq) (.bind (h.resolve_answers hab).discard fun _ _ _ =>
    .bind (h.lookup_answers hid).discard fun _ _ _ => .ok (h.fits_eq hab hid)) ?_
  rintro fits _ rfl
  cases fits with
  | true => exact .ok trivial
  | false => exact .error (.mismatch (.nonconforming hab id))

theorem elemShape_answers (h : base.Mirrors s t) (hab : Twins s t a b) :
    Answers (fun x y => x = y ∧ base.Knows x) (Refusals s t) (s.elemShape a) (t.elemShape b) := by
  refine (h.resolve_answers hab).bind ?_
  rintro v w ⟨hv, -, hvw⟩
  have hnamed := h.named a v hv
  cases hvw with
  | nil elem => exact .ok ⟨rfl, hnamed elem List.mem_cons_self⟩
  | cons elem _ _ => exact .ok ⟨rfl, hnamed elem List.mem_cons_self⟩
  | _ => exact .error (.mismatch (.same rfl))

theorem checkPredicate_answers (h : base.Mirrors s t) (hab : Twins s t a b) (domain : ShapeId) :
    Answers (fun _ _ => True) (Refusals s t) (s.checkPredicate a domain)
      (t.checkPredicate b domain) := by
  refine (h.resolve_answers hab).bind ?_
  rintro v w ⟨hv, -, hvw⟩
  cases hvw with
  | function f hcaptures =>
    obtain ⟨-, -, b, hb⟩ := h.left.valid' hv
    refine (h.body_answers hb).bind ?_
    rintro b _ ⟨rfl, -⟩
    split
    · exact .ok trivial
    · exact .error (.mismatch (.predicate hab domain))
  | _ => exact .error (.mismatch (.predicate hab domain))

theorem forM_resolve_answers (h : base.Mirrors s t) {xs ys : List Addr}
    (hxy : List.Forall₂ (Twins s t) xs ys) :
    Answers (fun _ _ => True) (Refusals s t)
      (xs.forM fun a => (discard (liftM (s.resolve a)) : Except StoreError Unit))
      (ys.forM fun a => (discard (liftM (t.resolve a)) : Except StoreError Unit)) := by
  induction hxy with
  | nil => exact .ok trivial
  | cons hab _ ih => exact .bind (h.resolve_answers hab).discard fun _ _ _ => ih

/-- Values that agree up to twins are accepted or refused alike, if they name what is in
the base. -/
theorem validate_answers (h : base.Mirrors s t) (hvw : v.Alike (Twins s t) w)
    (hshapes : ∀ id ∈ v.shapes, base.Knows id)
    (hbody : ∀ f captures, v = .function f captures → ∃ b, s.body? f = some b) :
    Answers (fun _ _ => True) (Refusals s t) (s.validate v) (t.validate w) := by
  have hlength (n : Nat) : Answers (fun _ _ => True) (Refusals s t)
      (liftM (checkLength n) : Except StoreError Unit) (liftM (checkLength n)) := by
    cases hn : checkLength n with
    | ok u => exact .ok trivial
    | error m =>
      rw [checkLength_error hn]
      exact .error (.mismatch (.same rfl))
  have hsize := hvw.size_eq
  unfold validate
  refine .bind (h.forM_resolve_answers hvw.children) fun _ _ _ => ?_
  cases hvw with
  | ring bits x =>
    dsimp only
    split
    · exact .ok trivial
    · exact .error (.mismatch (.same rfl))
  | cotuple id tag hpayload =>
    refine (h.alternatives_answers (hshapes id List.mem_cons_self)).bind ?_
    rintro alternatives _ ⟨rfl, hknown⟩
    cases hw : alternatives[tag.toNat]? with
    | none => exact .error (.mismatch (.same rfl))
    | some want =>
      have hmem : want ∈ alternatives.toList := Array.mem_toList_iff.mpr (Array.mem_of_getElem? hw)
      exact h.checkConforms_answers hpayload (hknown want hmem)
  | text x => exact hlength _
  | tuple hitems =>
    dsimp only
    rw [hsize]
    exact hlength _
  | function f hcaptures =>
    obtain ⟨b, hb⟩ := hbody f _ rfl
    dsimp only
    rw [hsize]
    exact (hlength _).bind fun _ _ _ => (h.body_answers hb).discard
  | nil elem => exact (h.lookup_answers (hshapes elem List.mem_cons_self)).discard
  | cons elem hhead htail =>
    refine (h.elemShape_answers htail).bind ?_
    rintro rest _ ⟨rfl, -⟩
    split
    · exact h.checkConforms_answers hhead (hshapes elem List.mem_cons_self)
    · exact .error (.mismatch (.same rfl))
  | universal domain hpredicate =>
    exact .bind (h.lookup_answers (hshapes domain List.mem_cons_self)).discard fun _ _ _ =>
      h.checkPredicate_answers hpredicate domain
  | existential domain hpredicate =>
    exact .bind (h.lookup_answers (hshapes domain List.mem_cons_self)).discard fun _ _ _ =>
      h.checkPredicate_answers hpredicate domain
  | _ => exact .ok trivial

end Mirrors

/-! ### Renaming -/

/-- The values of the first store are in the second, with other places. What is in the base
keeps its place. -/
structure Renaming (base s t : Store) (r : Addr → Addr) : Prop where
  fixed : ∀ a, base.Holds a → r a = a
  injective : ∀ a b, s.Holds a → s.Holds b → r a = r b → a = b
  value : ∀ a v, s.value? a = some v → t.value? (r a) = some (v.rename r)

theorem Renaming.mono {base s t t' : Store} {r : Addr → Addr} (h : Renaming base s t r)
    (ht : t.Extends t') : Renaming base s t' r :=
  ⟨h.fixed, h.injective, fun a v hv => ht.value? (h.value a v hv)⟩

/-- Where a store mirrors another, a renaming takes every place to its twin. -/
theorem Mirrors.renaming {base s t : Store} (h : base.Mirrors s t) :
    ∃ r, Renaming base s t r ∧ ∀ a b, Twins s t a b → b = r a := by
  classical
  have hchoose : ∀ a, ∃ b, s.Holds a → Twins s t a b := fun a => by
    by_cases ha : s.Holds a
    · exact (h.twin a ha).imp fun _ hb _ => hb
    · exact ⟨a, fun ha' => absurd ha' ha⟩
  choose r hr using hchoose
  have htwin (a b : Addr) (hab : Twins s t a b) : b = r a :=
    hab.right_unique h.right (hr a (hab.symm.holds h.left))
  refine ⟨r, ⟨fun a ha => (htwin a a (h.twins_of_base ha)).symm, fun a b ha hb hab => ?_,
    fun a v hv => ?_⟩, htwin⟩
  · exact (hr a ha).left_unique h.left (hab ▸ hr b hb)
  · obtain ⟨v', w, hv', hw, hvw⟩ := h.values (hr a ⟨v, hv⟩)
    cases hv.symm.trans hv'
    rw [hw, hvw.eq_rename htwin]

/-! ### Growing side by side -/

/-- Both stores have grown, and the second still mirrors the first. -/
structure Onward (base s t s' t' : Store) : Prop where
  mirrors : base.Mirrors s' t'
  left : s.Extends s'
  right : t.Extends t'

theorem Onward.refl {base s t : Store} (h : base.Mirrors s t) : Onward base s t s t :=
  ⟨h, .refl s, .refl t⟩

/-- An operation that is refused is refused in both stores for the same reason. -/
def Refused (base : Store) (e : StoreError) (s : Store) (e' : StoreError) (t : Store) : Prop :=
  base.Mirrors s t ∧ Mirrors.Refusals s t e e'

/-- How two operations end that are done side by side: with values that compare in the
stores that are left, or refused alike. A full store settles nothing. -/
abbrev Abreast {α β : Type} (base s t : Store) (V : Store → Store → α → β → Prop) :
    EStateM.Result StoreError Store α → EStateM.Result StoreError Store β → Prop :=
  Agree (· = .exhausted) (fun x s' y t' => Onward base s t s' t' ∧ V s' t' x y) (Refused base)

namespace Mirrors

variable {base s t : Store} {a b c d : Addr} {v w : Value} {id : ShapeId}

theorem ask_agree (h : base.Mirrors s t) {α β : Type} {q : Store → Except StoreError α}
    {q' : Store → Except StoreError β} {P : α → β → Prop}
    (hq : Answers P (Refusals s t) (q s) (q' t)) :
    Agree (· = .exhausted) (fun x s' y t' => s' = s ∧ t' = t ∧ P x y) (Refused base) (ask q s)
      (ask q' t) := by
  unfold ask
  generalize q s = x at hq
  generalize q' t = y at hq
  cases hq with
  | ok hP => exact .ok ⟨rfl, rfl, hP⟩
  | error hE => exact .error ⟨h, hE⟩

/-- Where a value is placed in both stores, it has a twin. -/
theorem place_abreast (h : base.Mirrors s t) (ha : v.isAbstract = true)
    (hvw : v.Alike (Twins s t) w) (hshapes : ∀ id ∈ v.shapes, base.Knows id) (hv : s.Valid v)
    (hw : t.Valid w) : Abreast base s t Twins (place v s) (place w t) := by
  have hwa : w.isAbstract = true := hvw.isAbstract_eq ▸ ha
  have hends := place_ends h.left v
  have hends' := place_ends h.right w
  have hgrows := place_grows hv ha h.left
  have hgrows' := place_grows hw hwa h.right
  cases hs : place v s with
  | error e s' => exact .left (hends.of_error hs).2.1
  | ok a s' =>
    cases ht : place w t with
    | error e t' => exact .right (hends'.of_error ht).2.1
    | ok b t' =>
      rw [hs] at hgrows
      rw [ht] at hgrows'
      obtain ⟨hst, hs'⟩ := hgrows
      obtain ⟨hst', ht'⟩ := hgrows'
      have hkept {c d : Addr} (hcd : Twins s t c d) : Twins s' t' c d := hcd.mono hst hst'
      have hab : Twins s' t' a b := .of_alike hs' ht' (hends.of_ok hs) (hends'.of_ok ht) ha
        (hvw.imp fun _ _ => hkept)
      obtain ⟨hfunctions, hvalue⟩ := place_value? hs
      refine .ok ⟨⟨⟨h.origin, hs', ht', h.grown.trans hst, h.grown'.trans hst',
        hfunctions.trans h.functions, fun c x hx => ?_, fun c hc => ?_⟩, hst, hst'⟩, hab⟩
      · rcases hvalue c x hx with hx | ⟨-, rfl⟩
        · exact h.named c x hx
        · exact hshapes
      · obtain ⟨x, hx⟩ := hc
        rcases hvalue c x hx with hx | ⟨rfl, -⟩
        · exact (h.twin c ⟨x, hx⟩).imp fun _ => hkept
        · exact ⟨b, hab⟩

/-- The same value interned in both stores has a twin, or is refused by both. -/
theorem intern_abreast (h : base.Mirrors s t) (ha : v.isAbstract = true)
    (hvw : v.Alike (Twins s t) w) (hshapes : ∀ id ∈ v.shapes, base.Knows id)
    (hbody : ∀ f captures, v = .function f captures → ∃ b, s.body? f = some b) :
    Abreast base s t Twins (intern v s) (intern w t) := by
  rw [intern_eq ha, intern_eq (hvw.isAbstract_eq ▸ ha)]
  refine (h.ask_agree (h.validate_answers hvw hshapes hbody).keep).bind_same ?_
  rintro _ _ ⟨hv, hw, -⟩
  exact h.place_abreast ha hvw hshapes (validate_eq_ok_iff.mp hv) (validate_eq_ok_iff.mp hw)

theorem cons_abreast (h : base.Mirrors s t) (hab : Twins s t a b) (hcd : Twins s t c d) :
    Abreast base s t Twins (cons a c s) (cons b d t) := by
  refine (h.ask_agree (h.elemShape_answers hcd)).bind_same ?_
  rintro elem _ ⟨rfl, helem⟩
  exact h.intern_abreast rfl (.cons elem hab hcd) (List.forall_mem_singleton.mpr helem)
    fun _ _ hf => by cases hf

theorem identity_abreast (h : base.Mirrors s t) (hab : Twins s t a b) (hcd : Twins s t c d) :
    Abreast base s t Twins (identity a c s) (identity b d t) := by
  refine (h.ask_agree (h.resolve_answers hab).discard).bind_same fun _ _ _ => ?_
  refine (h.ask_agree (h.resolve_answers hcd).discard).bind_same fun _ _ _ => ?_
  by_cases hac : a = c
  · rw [if_pos hac, if_pos ((h.eq_iff hab hcd).mp hac)]
    exact h.intern_abreast rfl (.identity hab) (fun _ hid => absurd hid List.not_mem_nil)
      fun _ _ hf => by cases hf
  · rw [if_neg hac, if_neg fun hbd => hac ((h.eq_iff hab hcd).mpr hbd)]
    exact .throw ⟨h, .mismatch (.notEqual hab hcd)⟩

theorem closure_abreast (h : base.Mirrors s t) (hab : Twins s t a b)
    {captures captures' : List Addr} (hcaptures : List.Forall₂ (Twins s t) captures captures') :
    Abreast base s t Twins (closure a captures s) (closure b captures' t) := by
  refine (h.ask_agree (h.resolve_answers hab)).bind_same ?_
  rintro v w ⟨hv, -, hvw⟩
  cases hvw with
  | function f hexisting =>
    obtain ⟨-, -, b, hb⟩ := h.left.valid' hv
    refine h.intern_abreast rfl (.function f ?_) (fun _ hid => absurd hid List.not_mem_nil) ?_
    · rw [Array.toList_appendList, Array.toList_appendList]
      exact List.rel_append hexisting hcaptures
    · rintro _ _ ⟨⟩
      exact ⟨b, hb⟩
  | _ => exact .throw ⟨h, .mismatch (.same rfl)⟩

end Mirrors

end Store

end ValueMachine
