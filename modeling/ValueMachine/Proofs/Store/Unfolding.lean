import Mathlib.Data.List.Forall2
import ValueMachine.Proofs.Store.WellFormed

/-! Values unfolded all the way down.

The tree of a place has the fields of its value at the root and the trees of the
children below. Children lie below their parents, so in a well-formed store every
value has a tree (`holds_iff_tree?`), which is made of those of its children
(`tree?_eq`). Places of two stores are `Twins` if they have one tree. Since an abstract
content stands at one place only, so does a tree: twins in one store are equal
(`Twins.eq`). -/
namespace ValueMachine

/-! ### The children of a value -/

namespace Value

/-- The value with every child replaced. -/
def rename (r : Addr → Addr) : Value → Value
  | tuple items => tuple (items.map r)
  | cotuple t tag payload => cotuple t tag (r payload)
  | function f captures => function f (captures.map r)
  | cons elem head tail => cons elem (r head) (r tail)
  | identity of => identity (r of)
  | universal domain predicate => universal domain (r predicate)
  | existential domain predicate => existential domain (r predicate)
  | v => v

/-- The sort and the fields of a value, whatever its children are. -/
def stem (v : Value) : Value := v.rename fun _ => Addr.unit

theorem children_rename (r : Addr → Addr) (v : Value) :
    (v.rename r).children = v.children.map r := by
  cases v <;> simp [rename, children]

theorem stem_rename (r : Addr → Addr) (v : Value) : (v.rename r).stem = v.stem := by
  cases v <;> simp [stem, rename]

/-- Two values have the same fields, and their children are related one by one. -/
inductive Alike (R : Addr → Addr → Prop) : Value → Value → Prop
  | ring (bits : UInt8) (x : UInt64) : Alike R (.ring bits x) (.ring bits x)
  | flex (x : Flex) : Alike R (.flex x) (.flex x)
  | char (c : Char) : Alike R (.char c) (.char c)
  | text (s : String) : Alike R (.text s) (.text s)
  | tuple {xs ys : Array Addr} (h : List.Forall₂ R xs.toList ys.toList) :
    Alike R (.tuple xs) (.tuple ys)
  | cotuple (t : ShapeId) (tag : UInt32) {x y : Addr} (h : R x y) :
    Alike R (.cotuple t tag x) (.cotuple t tag y)
  | function (f : FuncId) {xs ys : Array Addr} (h : List.Forall₂ R xs.toList ys.toList) :
    Alike R (.function f xs) (.function f ys)
  | nil (elem : ShapeId) : Alike R (.nil elem) (.nil elem)
  | cons (elem : ShapeId) {x y xs ys : Addr} (h : R x y) (hs : R xs ys) :
    Alike R (.cons elem x xs) (.cons elem y ys)
  | identity {x y : Addr} (h : R x y) : Alike R (.identity x) (.identity y)
  | universal (domain : ShapeId) {x y : Addr} (h : R x y) :
    Alike R (.universal domain x) (.universal domain y)
  | existential (domain : ShapeId) {x y : Addr} (h : R x y) :
    Alike R (.existential domain x) (.existential domain y)
  | concrete (t : ShapeId) (external : UInt64) :
    Alike R (.concrete t external) (.concrete t external)

variable {R : Addr → Addr → Prop} {v w : Value}

theorem Alike.stem_eq (h : v.Alike R w) : v.stem = w.stem := by
  cases h with
  | tuple h => simp [stem, rename, ← Array.toList_inj, List.map_const', h.length_eq]
  | function f h => simp [stem, rename, ← Array.toList_inj, List.map_const', h.length_eq]
  | _ => rfl

theorem Alike.children (h : v.Alike R w) : List.Forall₂ R v.children w.children := by
  cases h with
  | tuple h => exact h
  | function f h => exact h
  | cons elem h hs => exact .cons h (.cons hs .nil)
  | cotuple t tag h => exact .cons h .nil
  | identity h => exact .cons h .nil
  | universal domain h => exact .cons h .nil
  | existential domain h => exact .cons h .nil
  | _ => exact .nil

/-- Values with the same stem and related children. -/
theorem Alike.of_stem (hs : v.stem = w.stem) (hc : List.Forall₂ R v.children w.children) :
    v.Alike R w := by
  have hone {x y : Addr} (h : List.Forall₂ R [x] [y]) : R x y := (List.forall₂_cons.mp h).1
  cases v <;> cases w <;> try (injection hs; done)
  case ring.ring => cases hs; exact .ring _ _
  case flex.flex => cases hs; exact .flex _
  case char.char => cases hs; exact .char _
  case text.text => cases hs; exact .text _
  case tuple.tuple => exact .tuple hc
  case cotuple.cotuple => cases hs; exact .cotuple _ _ (hone hc)
  case function.function =>
    injection hs with hf
    subst hf
    exact .function _ hc
  case nil.nil => cases hs; exact .nil _
  case cons.cons =>
    cases hs
    obtain ⟨h, hc⟩ := List.forall₂_cons.mp hc
    exact .cons _ h (hone hc)
  case identity.identity => exact .identity (hone hc)
  case universal.universal => cases hs; exact .universal _ (hone hc)
  case existential.existential => cases hs; exact .existential _ (hone hc)
  case concrete.concrete => cases hs; exact .concrete _ _

theorem Alike.isAbstract_eq (h : v.Alike R w) : v.isAbstract = w.isAbstract := by
  cases h <;> rfl

theorem Alike.eq (h : v.Alike Eq w) : v = w := by
  have harray {xs ys : Array Addr} (h : List.Forall₂ Eq xs.toList ys.toList) : xs = ys :=
    Array.toList_inj.mp (List.forall₂_eq_eq_eq ▸ h)
  cases h with
  | tuple h => rw [harray h]
  | function f h => rw [harray h]
  | cotuple t tag h => rw [h]
  | cons elem h hs => rw [h, hs]
  | identity h => rw [h]
  | universal domain h => rw [h]
  | existential domain h => rw [h]
  | _ => rfl

theorem Alike.imp {R' : Addr → Addr → Prop} (h : v.Alike R w) (hR : ∀ x y, R x y → R' x y) :
    v.Alike R' w := .of_stem h.stem_eq (h.children.imp hR)

end Value

/-! ### Trees -/

/-- A value with the trees of its children in place of the children. A concrete value
has no content, so its tree is the place where it stands. -/
inductive Tree
  | abstract (stem : Value) (children : List Tree)
  | concrete (place : Addr) (v : Value)

namespace Store

/-- The tree of a place, if it is no deeper than so many values. -/
def unfoldWithin (s : Store) : Nat → Addr → Option Tree
  | 0, _ => none
  | depth + 1, a => do
    let v ← s.value? a
    if v.isAbstract then return .abstract v.stem (← v.children.mapM (s.unfoldWithin depth))
    else return .concrete a v

/-- The value at a place, unfolded all the way down. -/
def tree? (s : Store) (a : Addr) : Option Tree := s.unfoldWithin (a.index + 1) a

/-- The first place is a child of the value at the second. -/
def Child (s : Store) (child a : Addr) : Prop := ∃ v, s.value? a = some v ∧ child ∈ v.children

end Store

theorem mapM_eq_some_iff {α β : Type} {f : α → Option β} {xs : List α} {ys : List β} :
    xs.mapM f = some ys ↔ List.Forall₂ (fun x y => f x = some y) xs ys := by
  induction xs generalizing ys with
  | nil => simp [eq_comm]
  | cons x xs ih =>
    rw [List.mapM_cons]
    simp only [Option.bind_eq_bind, Option.bind_eq_some_iff, Option.pure_def, Option.some.injEq]
    constructor
    · rintro ⟨y, hy, zs, hzs, rfl⟩
      exact .cons hy (ih.mp hzs)
    · intro h
      cases h with
      | cons hy hys => exact ⟨_, hy, _, ih.mpr hys, rfl⟩

theorem mapM_congr {α β : Type} {f g : α → Option β} {xs : List α} (h : ∀ x ∈ xs, f x = g x) :
    xs.mapM f = xs.mapM g := by
  induction xs with
  | nil => rfl
  | cons x xs ih =>
    obtain ⟨hx, hxs⟩ := List.forall_mem_cons.mp h
    rw [List.mapM_cons, List.mapM_cons, hx, ih hxs]

/-! Lists that are related one by one. -/

theorem exists_forall₂ {α β : Type} {P : α → β → Prop} {xs : List α}
    (h : ∀ x ∈ xs, ∃ y, P x y) : ∃ ys, List.Forall₂ P xs ys := by
  induction xs with
  | nil => exact ⟨[], .nil⟩
  | cons x xs ih =>
    obtain ⟨⟨y, hy⟩, hxs⟩ := List.forall_mem_cons.mp h
    obtain ⟨ys, hys⟩ := ih hxs
    exact ⟨y :: ys, .cons hy hys⟩

theorem forall₂_of_common {α β γ : Type} {P : α → γ → Prop} {Q : β → γ → Prop} {xs : List α}
    {ys : List β} {zs : List γ} (hx : List.Forall₂ P xs zs) (hy : List.Forall₂ Q ys zs) :
    List.Forall₂ (fun x y => ∃ z, P x z ∧ Q y z) xs ys := by
  induction hx generalizing ys with
  | nil =>
    cases hy
    exact .nil
  | cons hp _ ih =>
    cases hy with
    | cons hq hy => exact .cons ⟨_, hp, hq⟩ (ih hy)

theorem common_of_forall₂ {α β γ : Type} {P : α → γ → Prop} {Q : β → γ → Prop} {xs : List α}
    {ys : List β} (h : List.Forall₂ (fun x y => ∃ z, P x z ∧ Q y z) xs ys) :
    ∃ zs, List.Forall₂ P xs zs ∧ List.Forall₂ Q ys zs := by
  induction h with
  | nil => exact ⟨[], .nil, .nil⟩
  | cons hxy _ ih =>
    obtain ⟨z, hp, hq⟩ := hxy
    obtain ⟨zs, hps, hqs⟩ := ih
    exact ⟨z :: zs, .cons hp hps, .cons hq hqs⟩

theorem forall₂_imp_mem {α β : Type} {P Q : α → β → Prop} {xs : List α} {ys : List β}
    (h : List.Forall₂ P xs ys) (hPQ : ∀ x y, x ∈ xs → P x y → Q x y) : List.Forall₂ Q xs ys := by
  induction h with
  | nil => exact .nil
  | cons hp _ ih =>
    refine .cons (hPQ _ _ List.mem_cons_self hp) (ih fun x y hx => ?_)
    exact hPQ x y (List.mem_cons_of_mem _ hx)

namespace Store

namespace WellFormed

variable {s t : Store} {a b : Addr} {v w : Value}

/-- Children lie below their parents. -/
theorem child_lt (h : s.WellFormed) {child : Addr} (hc : s.Child child a) :
    child.index < a.index := by
  obtain ⟨v, hv, hc⟩ := hc
  exact h.children a v hv child hc

theorem child_wellFounded (h : s.WellFormed) : WellFounded s.Child :=
  Subrelation.wf (fun hc => h.child_lt hc) (measure Addr.index).wf

/-- Going deeper than the place tells changes nothing. -/
theorem unfoldWithin_of_lt (h : s.WellFormed) {depth : Nat} (hd : a.index < depth) :
    s.unfoldWithin depth a = s.tree? a := by
  induction depth using Nat.strongRecOn generalizing a with
  | _ depth ih =>
    cases depth with
    | zero => exact absurd hd (Nat.not_lt_zero _)
    | succ depth =>
      unfold tree? unfoldWithin
      cases hv : s.value? a with
      | none => rfl
      | some v =>
        have hmapM : v.children.mapM (s.unfoldWithin depth) =
            v.children.mapM (s.unfoldWithin a.index) := mapM_congr fun c hc => by
          have hlt := h.children a v hv c hc
          rw [ih depth (by omega) (by omega), ih a.index (by omega) hlt]
        simp [hmapM]

/-- A tree is made of the trees of the children. -/
theorem tree?_eq (h : s.WellFormed) (a : Addr) : s.tree? a = do
    let v ← s.value? a
    if v.isAbstract then return .abstract v.stem (← v.children.mapM s.tree?)
    else return .concrete a v := by
  rw [tree?, unfoldWithin]
  cases hv : s.value? a with
  | none => rfl
  | some v =>
    have hmapM : v.children.mapM (s.unfoldWithin a.index) = v.children.mapM s.tree? :=
      mapM_congr fun c hc => h.unfoldWithin_of_lt (h.children a v hv c hc)
    simp [hmapM]

theorem tree?_of_abstract (h : s.WellFormed) (hv : s.value? a = some v)
    (ha : v.isAbstract = true) {x : Tree} : s.tree? a = some x ↔
      ∃ xs, List.Forall₂ (fun c y => s.tree? c = some y) v.children xs ∧
        x = .abstract v.stem xs := by
  rw [h.tree?_eq, hv]
  simp only [Option.bind_eq_bind, Option.bind_some, ha, if_true, Option.bind_eq_some_iff,
    mapM_eq_some_iff, Option.pure_def, Option.some.injEq]
  exact exists_congr fun xs => and_congr_right fun _ => eq_comm

theorem tree?_of_concrete (h : s.WellFormed) (hv : s.value? a = some v)
    (ha : v.isAbstract = false) : s.tree? a = some (.concrete a v) := by
  rw [h.tree?_eq, hv]
  simp [ha]

/-- Every value has a tree. -/
theorem holds_iff_tree? (h : s.WellFormed) : s.Holds a ↔ ∃ x, s.tree? a = some x := by
  constructor
  · intro ha
    induction a using h.child_wellFounded.induction with
    | _ a ih =>
      obtain ⟨v, hv⟩ := ha
      cases hv' : v.isAbstract with
      | false => exact ⟨_, h.tree?_of_concrete hv hv'⟩
      | true =>
        obtain ⟨xs, hxs⟩ := exists_forall₂ fun c hc => ih c ⟨v, hv, hc⟩ (h.holds_of_child hv hc)
        exact ⟨_, (h.tree?_of_abstract hv hv').mpr ⟨xs, hxs, rfl⟩⟩
  · rintro ⟨x, hx⟩
    unfold tree? unfoldWithin at hx
    obtain ⟨v, hv, -⟩ := Option.bind_eq_some_iff.mp hx
    exact ⟨v, hv⟩

end WellFormed

/-! ### Values with one tree -/

/-- The places of two stores have the same tree. -/
def Twins (s t : Store) (a b : Addr) : Prop := ∃ x, s.tree? a = some x ∧ t.tree? b = some x

namespace Twins

variable {s t : Store} {a b c : Addr} {v w : Value}

theorem symm (h : Twins s t a b) : Twins t s b a := h.imp fun _ hx => hx.symm

theorem holds (ht : t.WellFormed) (h : Twins s t a b) : t.Holds b :=
  ht.holds_iff_tree?.mpr (h.imp fun _ hx => hx.2)

/-- The values of twins agree up to the children, which are twins again; and a concrete
value is the twin of itself only. -/
theorem alike (hs : s.WellFormed) (ht : t.WellFormed) (h : Twins s t a b)
    (hv : s.value? a = some v) (hw : t.value? b = some w) :
    v.Alike (Twins s t) w ∧ (v.isAbstract = false → a = b) := by
  obtain ⟨x, ha, hb⟩ := h
  cases hv' : v.isAbstract with
  | true =>
    obtain ⟨xs, hxs, rfl⟩ := (hs.tree?_of_abstract hv hv').mp ha
    cases hw' : w.isAbstract with
    | true =>
      obtain ⟨ys, hys, he⟩ := (ht.tree?_of_abstract hw hw').mp hb
      injection he with hstem hxy
      subst hxy
      refine ⟨.of_stem hstem ?_, fun h => by cases h⟩
      exact forall₂_of_common hxs hys
    | false =>
      rw [ht.tree?_of_concrete hw hw'] at hb
      cases hb
  | false =>
    rw [hs.tree?_of_concrete hv hv'] at ha
    cases ha
    cases hw' : w.isAbstract with
    | true =>
      obtain ⟨ys, -, he⟩ := (ht.tree?_of_abstract hw hw').mp hb
      cases he
    | false =>
      rw [ht.tree?_of_concrete hw hw'] at hb
      cases hb
      cases v with
      | concrete id external => exact ⟨.concrete _ _, fun _ => rfl⟩
      | _ => cases hv'

/-- Abstract values that agree up to twin children are twins. -/
theorem of_alike (hs : s.WellFormed) (ht : t.WellFormed) (hv : s.value? a = some v)
    (hw : t.value? b = some w) (ha : v.isAbstract = true) (h : v.Alike (Twins s t) w) :
    Twins s t a b := by
  obtain ⟨xs, hxs, hys⟩ := common_of_forall₂ h.children
  have hwa : w.isAbstract = true := h.isAbstract_eq ▸ ha
  refine ⟨.abstract v.stem xs, (hs.tree?_of_abstract hv ha).mpr ⟨xs, hxs, rfl⟩, ?_⟩
  exact (ht.tree?_of_abstract hw hwa).mpr ⟨xs, hys, by rw [h.stem_eq]⟩

/-- A tree stands at one place only. -/
theorem eq (hs : s.WellFormed) (h : Twins s s a b) : a = b := by
  obtain ⟨v, hv⟩ := h.symm.holds hs
  induction a using hs.child_wellFounded.induction generalizing b v with
  | _ a ih =>
    obtain ⟨w, hw⟩ := h.holds hs
    obtain ⟨hvw, hconcrete⟩ := h.alike hs hs hv hw
    cases hv' : v.isAbstract with
    | false => exact hconcrete hv'
    | true =>
      have hchildren : List.Forall₂ Eq v.children w.children := by
        refine forall₂_imp_mem hvw.children fun c d hc hcd => ?_
        obtain ⟨y, hy⟩ := hs.holds_of_child hv hc
        exact ih c ⟨v, hv, hc⟩ hcd y hy
      have hvw : v = w := (Value.Alike.of_stem hvw.stem_eq hchildren).eq
      subst hvw
      exact Addr.eq_of_index (hs.indexed.injective hv hw hv')

end Twins

/-! ### Growth -/

theorem unfoldWithin_mono {s t : Store} (hst : s.Extends t) (depth : Nat) (a : Addr) (x : Tree)
    (hx : s.unfoldWithin depth a = some x) : t.unfoldWithin depth a = some x := by
  induction depth generalizing a x with
  | zero => cases hx
  | succ depth ih =>
    unfold unfoldWithin at hx ⊢
    obtain ⟨v, hv, hx⟩ := Option.bind_eq_some_iff.mp hx
    refine Option.bind_eq_some_iff.mpr ⟨v, hst.value? hv, ?_⟩
    cases hv' : v.isAbstract with
    | false => simpa [hv'] using hx
    | true =>
      simp only [hv', if_true] at hx ⊢
      obtain ⟨xs, hxs, hx⟩ := Option.bind_eq_some_iff.mp hx
      refine Option.bind_eq_some_iff.mpr ⟨xs, mapM_eq_some_iff.mpr ?_, hx⟩
      exact (mapM_eq_some_iff.mp hxs).imp fun c y hy => ih c y hy

/-- A value keeps its tree. -/
theorem tree?_mono {s t : Store} (hst : s.Extends t) {a : Addr} {x : Tree}
    (hx : s.tree? a = some x) : t.tree? a = some x := unfoldWithin_mono hst _ a x hx

end Store

end ValueMachine
