import ValueMachine.Proofs.Store.Enumeration
import ValueMachine.Proofs.Store.Numbers

/-! What listing the values of a shape adds to the store.

The values of the parts are put into the store before they are combined. If each of them is
used, what is added is listed or stands below something that is (`Under`). Only in a tuple a
part can be of no use: if another item has no values there are no tuples to use it, and the
values of the part are left over (`Leftover`). That is all that is ever added
(`inhabitantsWithin_adds`). -/
namespace ValueMachine

namespace Store

variable {s t : Store} {a : Addr} {id : ShapeId}

/-! ### Places below others -/

/-- The place is one of the list, or below one of them. -/
def Under (s : Store) (xs : List Addr) (a : Addr) : Prop :=
  ∃ x ∈ xs, Relation.ReflTransGen s.Child a x

theorem under_of_mem {xs : List Addr} (h : a ∈ xs) : s.Under xs a := ⟨a, h, .refl⟩

/-- What is below children is below their parents. -/
theorem Under.of_children {xs ys : List Addr} (h : s.Under xs a)
    (hc : ∀ x ∈ xs, ∃ y ∈ ys, s.Child x y) : s.Under ys a := by
  obtain ⟨x, hx, hax⟩ := h
  obtain ⟨y, hy, hxy⟩ := hc x hx
  exact ⟨y, hy, hax.tail hxy⟩

/-- Where no list is empty, each of its items is in some choice. -/
theorem exists_choice {α : Type} {xss : List (List α)} {xs : List α} {x : α} (h : [] ∉ xss)
    (hxs : xs ∈ xss) (hx : x ∈ xs) : ∃ ys ∈ choices xss, x ∈ ys := by
  have hfirst : ∀ zs ∈ xss, ∃ y, y ∈ zs := fun zs hz =>
    List.exists_mem_of_ne_nil zs fun hnil => h (hnil ▸ hz)
  obtain ⟨before, after, rfl⟩ := List.append_of_mem hxs
  obtain ⟨ys, hys⟩ := exists_forall₂ fun zs hz => hfirst zs (List.mem_append_left _ hz)
  obtain ⟨zs, hzs⟩ := exists_forall₂ fun ws hw =>
    hfirst ws (List.mem_append_right _ (List.mem_cons_of_mem _ hw))
  refine ⟨ys ++ x :: zs, mem_choices.mpr ?_, by simp⟩
  exact List.rel_append hys.flip (.cons hx hzs.flip)

/-- The shape is a tuple with an item without values, or is made of one, and the place is a
value of an item of that tuple or below such a value. -/
def Leftover (s t : Store) (id : ShapeId) (a : Addr) : Prop :=
  ∃ whole items item x, Relation.ReflTransGen s.Part whole id ∧
    s.shape? whole = some (.tuple items) ∧ (∃ void ∈ items, s.HasNumber void 0) ∧
      item ∈ items ∧ t.Member item x ∧ Relation.ReflTransGen t.Child a x

theorem Leftover.of_part {child : ShapeId} (h : Leftover s t child a) (hc : s.Part child id) :
    Leftover s t id a := by
  obtain ⟨whole, items, item, x, hw, h⟩ := h
  exact ⟨whole, items, item, x, hw.tail hc, h⟩

/-- Nothing is left over where every tuple has values. -/
theorem Populated.not_leftover (h : s.Populated id) : ¬Leftover s t id a := by
  intro ⟨whole, items, _, _, hw, hx, ⟨void, hv, hn⟩, _⟩
  exact h whole items hw hx void hv hn

/-! ### What an operation adds -/

section Adds
variable {α β : Type}

/-- If the operation succeeds, what it adds is as said of its answer, and stays so. -/
def Adds (op : StoreM α) (s : Store) (P : α → Store → Addr → Prop) : Prop :=
  ∀ x s', op s = .ok x s' → ∀ a, s'.Holds a → ¬s.Holds a →
    ∀ t : Store, t.WellFormed → s'.Extends t → P x t a

namespace Adds

variable {op : StoreM α} {next : α → StoreM β} {P : α → Store → Addr → Prop}
  {Q : β → Store → Addr → Prop}

theorem imp {P' : α → Store → Addr → Prop} (h : Adds op s P)
    (hP : ∀ x t a, P x t a → P' x t a) : Adds op s P' :=
  fun x s' hx a ha hn t ht hst => hP x t a (h x s' hx a ha hn t ht hst)

theorem pure (x : α) : Adds (Pure.pure x) s P := by
  intro y s' hy a ha hn
  obtain ⟨rfl, rfl⟩ := run_pure_eq_ok_iff.mp hy
  exact absurd ha hn

theorem ask_bind {question : Store → Except StoreError α}
    (hn : ∀ x, question s = .ok x → Adds (next x) s Q) : Adds (ask question >>= next) s Q := by
  intro y s' hy
  obtain ⟨x, u, hask, hnext⟩ := run_bind_eq_ok_iff.mp hy
  obtain ⟨hx, rfl⟩ := ask_eq_ok_iff.mp hask
  exact hn x hx y s' hnext

/-- What the first part adds must be found in the answer of the second. -/
theorem bind {R : α → Store → Prop} (hs : Settles op s R) (h : Adds op s P)
    (hn : ∀ x s', s.Extends s' → s'.WellFormed → R x s' → Adds (next x) s' Q ∧
      Settles (next x) s' fun y t => R x t → ∀ a, P x t a → Q y t a) :
    Adds (op >>= next) s Q := by
  intro y s'' hy a ha hnew t ht hst
  obtain ⟨x, s', hx, hy⟩ := run_bind_eq_ok_iff.mp hy
  obtain ⟨hgrown, hsound, hagain⟩ := hs x s' hx
  obtain ⟨hadds, hsettles⟩ := hn x s' hgrown hsound (hagain s' hsound (.refl s')).2
  obtain ⟨hgrown', -, hagain'⟩ := hsettles y s'' hy
  have hst' : s'.Extends t := hgrown'.trans hst
  by_cases hmid : s'.Holds a
  · exact (hagain' t ht hst).2 (hagain t ht hst').2 a (h x s' hx a hmid hnew t ht hst')
  · exact hadds y s'' hy a ha hmid t ht hst

/-- What is added for a list is added for one of its items. -/
theorem mapM (h : s.WellFormed) {f : β → StoreM α} {R : β → α → Store → Prop}
    {P : β → α → Store → Addr → Prop} {xs : List β}
    (hf : ∀ x ∈ xs, ∀ s' : Store, s.Extends s' → s'.WellFormed →
      Settles (f x) s' (R x) ∧ Adds (f x) s' (P x)) :
    Adds (xs.mapM f) s fun ys t a => ∃ x ∈ xs, ∃ y ∈ ys, P x y t a := by
  induction xs generalizing s with
  | nil => exact .pure []
  | cons x xs ih =>
    obtain ⟨hx, hxs⟩ := List.forall_mem_cons.mp hf
    obtain ⟨hsettles, hadds⟩ := hx s (.refl s) h
    rw [List.mapM_cons]
    refine .bind hsettles hadds fun y s' hst hs' _ => ?_
    have hrest := fun x hx s'' hst' => hxs x hx s'' (hst.trans hst')
    have hlist : Settles (xs.mapM f) s' fun ys t => List.Forall₂ (fun x y => R x y t) xs ys :=
      .mapM hs' fun x hx s'' hst' hs'' => (hrest x hx s'' hst' hs'').1
    constructor
    · refine .bind hlist (ih hs' hrest) fun ys s'' _ hs'' _ => ⟨.pure _, ?_⟩
      refine .pure hs'' fun t _ _ _ a ha => ?_
      obtain ⟨x', hx', y', hy', ha⟩ := ha
      exact ⟨x', List.mem_cons_of_mem _ hx', y', List.mem_cons_of_mem _ hy', ha⟩
    · refine hlist.bind fun ys s'' _ hs'' _ => .pure hs'' fun t _ _ _ _ a ha => ?_
      exact ⟨x, List.mem_cons_self, y, List.mem_cons_self, ha⟩

/-- A value that is interned is all that is added. -/
theorem intern {v : Value} (ha : v.isAbstract = true) :
    Adds (Store.intern v) s fun x _ a => a = x := by
  intro x s' hx a ⟨w, hw⟩ hn t _ _
  rcases intern_value? ha hx hw with hw | ⟨rfl, -⟩
  · exact absurd ⟨w, hw⟩ hn
  · rfl

theorem identity {x : Addr} : Adds (Store.identity x x) s fun y _ a => a = y := by
  refine .ask_bind fun _ _ => .ask_bind fun _ _ => ?_
  rw [if_pos rfl]
  exact .intern rfl

/-- Values that are interned one by one are listed, and nothing else is added. -/
theorem interned (h : s.WellFormed) {f : β → StoreM Addr} {R : β → Addr → Store → Prop}
    {bs : List β} (hs : ∀ b ∈ bs, ∀ s' : Store, s.Extends s' → s'.WellFormed →
      Settles (f b) s' (R b)) (hf : ∀ b s', Adds (f b) s' fun x _ a => a = x) :
    Adds (bs.mapM f) s fun ys _ a => a ∈ ys := by
  refine (mapM h fun b hb s' hst hs' => ⟨hs b hb s' hst hs', hf b s'⟩).imp fun ys t a ha => ?_
  obtain ⟨_, _, y, hy, rfl⟩ := ha
  exact hy

end Adds

end Adds

/-! ### Values made of one part each -/

section Parents
variable {op : StoreM (List Addr)} {f : Addr → StoreM Addr} {g : Addr → Value}
  (hop : Settles op t fun xs u => ∀ x ∈ xs, u.Holds x)
  (hf : ∀ x u, t.Extends u → u.WellFormed → u.Holds x →
    Settles (f x) u fun y v => v.value? y = some (g x))
include hop hf

theorem Settles.parents : Settles (op >>= fun xs => xs.mapM f) t fun ys u =>
    ∃ xs, List.Forall₂ (fun x y => u.value? y = some (g x)) xs ys := by
  refine hop.bind fun xs u htu hu hxs => (Settles.mapM hu fun x hm v huv hv => ?_).imp
    fun ys v _ _ hys _ => ⟨xs, hys⟩
  exact hf x v (htu.trans huv) hv ((hxs x hm).mono huv)

/-- Each part is used, so what is added for the parts is below what is made of them. -/
theorem Adds.parents {E : Store → Addr → Prop} (h : Adds op t fun xs u a => u.Under xs a ∨ E u a)
    (hg : ∀ x, x ∈ (g x).children) (ha : ∀ x u, Adds (f x) u fun y _ a => a = y) :
    Adds (op >>= fun xs => xs.mapM f) t fun ys u a => u.Under ys a ∨ E u a := by
  refine .bind hop h fun xs u htu hu hxs => ?_
  have hone : ∀ x ∈ xs, ∀ v : Store, u.Extends v → v.WellFormed →
      Settles (f x) v fun y w => w.value? y = some (g x) := fun x hm v huv hv =>
    hf x v (htu.trans huv) hv ((hxs x hm).mono huv)
  constructor
  · exact (Adds.interned hu hone ha).imp fun ys v a hm => .inl (under_of_mem hm)
  · refine (Settles.mapM hu hone).imp fun ys v _ _ hys _ a => Or.imp_left fun hu => ?_
    refine hu.of_children fun x hm => ?_
    obtain ⟨y, hy, hv⟩ := exists_of_forall₂ hys hm
    exact ⟨y, hy, _, hv, hg x⟩

end Parents

/-! ### What is added for a shape -/

/-- What is added for a part of the shape is listed for it or left over from it. -/
def AddsParts (s : Store) (depth : Nat) (x : Shape) : Prop :=
  ∀ child ∈ x.children, ∀ t : Store, s.Extends t → t.WellFormed →
    Adds (inhabitantsWithin depth child) t fun xs u a => u.Under xs a ∨ Leftover s u child a

section
variable (h : s.WellFormed) (hst : s.Extends t) (ht : t.WellFormed)
include h hst ht

/-- What is known of a shape that is counted settles its list in a later store. -/
theorem lists_settle {depth n : Nat} (hn : s.countWithin depth id = some n) :
    Settles (inhabitantsWithin depth id) t fun xs u => u.Lists id n xs := by
  have hlater := (countWithin_lasts h hst depth (knows_of_countWithin hn)).trans hn
  exact (inhabitantsWithin_gives depth ht hlater).settles.imp fun _ _ _ _ hxs => hxs.2

theorem tuples_add {items : List ShapeId} {depth : Nat} (hx : s.shape? id = some (.tuple items))
    (hcounted : ∀ child ∈ items, ∃ k, s.countWithin depth child = some k)
    (hparts : s.AddsParts depth (.tuple items)) :
    Adds (do
      let parts ← items.mapM (inhabitantsWithin depth)
      (choices parts).mapM tuple) t fun xs u a => u.Under xs a ∨ Leftover s u id a := by
  have hlist {child : ShapeId} (hc : child ∈ items) {u : Store} (hu : t.Extends u)
      (hw : u.WellFormed) : Settles (inhabitantsWithin depth child) u fun xs v =>
        s.countWithin depth child = some xs.length ∧ v.Exhausts child xs := by
    obtain ⟨k, hk⟩ := hcounted child hc
    refine (lists_settle h (hst.trans hu) hw hk).imp fun xs v _ _ hxs => ?_
    exact ⟨hxs.1.symm ▸ hk, hxs.2⟩
  refine .bind (.mapM ht fun child hc u hu hw => hlist hc hu hw)
    (.mapM ht fun child hc u hu hw => ⟨hlist hc hu hw, hparts child hc u (hst.trans hu) hw⟩)
      fun parts u hu hw hlists => ?_
  -- Each choice is of places that are there, so its tuple is interned for good.
  have htuple : ∀ xs ∈ choices parts, ∀ v : Store, u.Extends v → v.WellFormed →
      Settles (tuple xs) v fun y w => w.value? y = some (.tuple xs.toArray) := by
    intro xs hxs v hv hwv
    refine .intern hwv rfl (tuple_repeats hwv fun x hm => ?_)
    obtain ⟨part, hp, hm⟩ := exists_of_forall₂ (mem_choices.mp hxs) hm
    obtain ⟨child, -, -, hall⟩ := exists_of_forall₂ hlists.flip hp
    exact (hall.holds x hm).mono hv
  constructor
  · refine (Adds.interned hw htuple fun _ _ => .intern rfl).imp fun ys v a ha => ?_
    exact .inl (under_of_mem ha)
  · refine (Settles.mapM hw htuple).imp fun ys v _ _ hys hlists a ha => ?_
    obtain ⟨child, hc, part, hp, ha⟩ := ha
    rcases ha with ha | ha
    · by_cases hvoid : [] ∈ parts
      · -- There are no tuples, and what the part has listed is left over.
        obtain ⟨void, hvm, hcount, -⟩ := exists_of_forall₂ hlists.flip hvoid
        obtain ⟨x, hxp, hax⟩ := ha
        obtain ⟨item, hi, -, hall⟩ := exists_of_forall₂ hlists.flip hp
        exact .inr ⟨id, items, item, x, .refl, hx,
          ⟨void, hvm, (hasNumber_of_countWithin depth hcount).1⟩, hi, (hall x).mp hxp, hax⟩
      · refine .inl (ha.of_children fun x hxp => ?_)
        obtain ⟨xs, hxs, hxm⟩ := exists_choice hvoid hp hxp
        obtain ⟨y, hy, hv⟩ := exists_of_forall₂ hys hxs
        exact ⟨y, hy, _, hv, hxm⟩
    · exact .inr (ha.of_part ⟨_, hx, hc⟩)

theorem cotuples_add {alternatives : Array ShapeId} {depth : Nat}
    (hx : s.shape? id = some (.cotuple alternatives))
    (hcounted : ∀ child ∈ alternatives.toList, ∃ k, s.countWithin depth child = some k)
    (hparts : s.AddsParts depth (.cotuple alternatives)) :
    Adds (do
      let parts ← alternatives.toList.zipIdx.mapM fun (alternative, tag) => do
        let payloads ← inhabitantsWithin depth alternative
        payloads.mapM fun payload => cotuple id tag.toUInt32 payload
      return parts.flatten) t fun xs u a => u.Under xs a ∨ Leftover s u id a := by
  have hone {tag : Nat} {u : Store} (hu : t.Extends u) : ∀ payload v, u.Extends v → v.WellFormed →
      v.Holds payload → Settles (cotuple id tag.toUInt32 payload) v
        fun y w => w.value? y = some (.cotuple id tag.toUInt32 payload) := by
    intro payload v huv hv hh
    have hid : v.Knows id := ((knows_iff.mpr ⟨_, hx⟩).mono hst).mono (hu.trans huv)
    exact .intern hv rfl (cotuple_repeats hv hid hh _)
  have hrow : ∀ p ∈ alternatives.toList.zipIdx, ∀ u : Store, t.Extends u → u.WellFormed →
      Settles (do
        let payloads ← inhabitantsWithin depth p.1
        payloads.mapM fun payload => cotuple id p.2.toUInt32 payload) u (fun _ _ => True) ∧
      Adds (do
        let payloads ← inhabitantsWithin depth p.1
        payloads.mapM fun payload => cotuple id p.2.toUInt32 payload) u
          fun ys v a => v.Under ys a ∨ Leftover s v id a := by
    intro p hp u hu hw
    have hc : p.1 ∈ alternatives.toList := List.fst_mem_of_mem_zipIdx hp
    obtain ⟨k, hk⟩ := hcounted p.1 hc
    have hlist := (lists_settle h (hst.trans hu) hw hk).imp fun _ _ _ _ hxs => hxs.2.holds
    refine ⟨(hlist.parents (hone hu)).imp fun _ _ _ _ _ => trivial, ?_⟩
    refine (Adds.parents hlist (hone hu) (hparts p.1 hc u (hst.trans hu) hw)
      (fun _ => List.mem_cons_self) fun _ _ => .intern rfl).imp fun ys v a ha => ?_
    exact ha.imp_right fun ha => ha.of_part ⟨_, hx, hc⟩
  refine .bind (.mapM ht fun p hp u hu hw => (hrow p hp u hu hw).1) (.mapM ht hrow)
    fun parts u _ hw _ => ⟨.pure _, .pure hw fun v _ _ _ a ha => ?_⟩
  obtain ⟨_, -, part, hp, ha⟩ := ha
  refine ha.imp_left fun ⟨x, hxp, hax⟩ => ?_
  exact ⟨x, List.mem_flatten.mpr ⟨part, hp, hxp⟩, hax⟩

theorem identities_add {of : ShapeId} {depth n : Nat} (hx : s.shape? id = some (.identity of))
    (hn : s.countWithin depth of = some n) (hparts : s.AddsParts depth (.identity of)) :
    Adds (do
      let parts ← inhabitantsWithin depth of
      parts.mapM fun x => identity x x) t fun xs u a => u.Under xs a ∨ Leftover s u id a := by
  have hof : of ∈ (Shape.identity of).children := List.mem_cons_self
  have hlist := (lists_settle h hst ht hn).imp fun _ _ _ _ hxs => hxs.2.holds
  refine (Adds.parents hlist (fun x u _ hw hh => (identity_gives hw hh).settles)
    (hparts of hof t hst ht) (fun _ => List.mem_cons_self)
      fun _ _ => .identity).imp fun ys u a ha => ?_
  exact ha.imp_right fun ha => ha.of_part ⟨_, hx, hof⟩

end

/-- What listing the values of a shape adds is listed or below what is, or it is left over. -/
theorem inhabitantsWithin_adds (depth : Nat) {n : Nat} (h : s.WellFormed)
    (hn : s.countWithin depth id = some n) (hst : s.Extends t) (ht : t.WellFormed) :
    Adds (inhabitantsWithin depth id) t fun xs u a => u.Under xs a ∨ Leftover s u id a := by
  induction depth generalizing id n t with
  | zero => cases hn
  | succ depth ih =>
    obtain ⟨x, hx⟩ := knows_iff.mp (knows_of_countWithin hn)
    have hcounted := counted_part hx hn
    have hparts : s.AddsParts depth x := fun child hc u hu hw => by
      obtain ⟨k, hk⟩ := hcounted child hc
      exact ih hk hu hw
    refine .ask_bind fun y hy => ?_
    cases (ShapeTable.lift_lookup_eq_ok_iff.mp hy).symm.trans (hst.shape? hx)
    cases x with
    | ring bits =>
      refine (Adds.interned ht (R := fun _ _ _ => True) (fun k _ u _ hw => ?_)
        fun _ _ => .intern rfl).imp fun ys u a ha => .inl (under_of_mem ha)
      exact .of_repeats (intern_repeats_leaf hw rfl rfl rfl fun _ _ hv => by cases hv)
        fun _ _ _ _ _ _ _ => trivial
    | char width =>
      refine (Adds.interned ht (R := fun _ _ _ => True) (fun k _ u _ hw => ?_)
        fun _ _ => .intern rfl).imp fun ys u a ha => .inl (under_of_mem ha)
      exact .of_repeats (intern_repeats_leaf hw rfl rfl rfl fun _ _ hv => by cases hv)
        fun _ _ _ _ _ _ _ => trivial
    | tuple items => exact tuples_add h hst ht hx hcounted hparts
    | cotuple alternatives => exact cotuples_add h hst ht hx hcounted hparts
    | identity of =>
      obtain ⟨k, hk⟩ := hcounted of List.mem_cons_self
      exact identities_add h hst ht hx hk hparts
    | _ => exact .pure []

end Store

end ValueMachine
