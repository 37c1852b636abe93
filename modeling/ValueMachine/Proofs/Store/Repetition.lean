import ValueMachine.Proofs.Store.Mirror

/-! Operations that are done again.

An operation `Repeats` if it ends in the same way when it is done again, in any store
that has come of the one it leaves, and then adds nothing. A question does if what it is
about is there. Interning does because a value is found by its content, or because a full
store stays full. Whatever is made of these does if its parts do (`Repeats.bind`).

What is said of the answers is settled for all later stores (`Settles`). An operation that only
interns valid values gives such an answer unless there is no room for values (`Gives`). -/
namespace ValueMachine

namespace Store

/-- Done again in a store that has come of the one it leaves, the operation ends with the
same value or the same complaint and leaves that store as it is. -/
structure Repeats {ε α : Type} (op : EStateM ε Store α) (s : Store) : Prop where
  grown : s.Extends (op s).state
  sound : (op s).state.WellFormed
  again : ∀ t : Store, t.WellFormed → (op s).state.Extends t → op t = (op s).leaving t

/-- The question has the same answer in every store that has come of this one. -/
def Lasts {α : Type} (question : Store → Except StoreError α) (s : Store) : Prop :=
  ∀ t : Store, t.WellFormed → s.Extends t → question t = question s

variable {ε ε' α β : Type} {s t : Store} {op : EStateM ε Store α}

namespace Repeats

theorem pure (h : s.WellFormed) (x : α) : Repeats (Pure.pure x : EStateM ε Store α) s :=
  ⟨.refl s, h, fun _ _ _ => rfl⟩

theorem throw (h : s.WellFormed) (e : ε) : Repeats (throwThe ε e : EStateM ε Store α) s :=
  ⟨.refl s, h, fun _ _ _ => rfl⟩

/-- An operation in two parts repeats if the second does wherever the first leads. -/
theorem bind {next : α → EStateM ε Store β} {P : α → Store → Prop} {E : ε → Store → Prop}
    (h : Repeats op s) (he : Ends (op s) P E)
    (hn : ∀ x s', s.Extends s' → s'.WellFormed → P x s' → Repeats (next x) s') :
    Repeats (op >>= next) s := by
  obtain ⟨hgrown, hsound, hagain⟩ := h
  cases hr : op s with
  | ok x s' =>
    rw [hr] at hgrown hsound hagain
    obtain ⟨hgrown', hsound', hagain'⟩ := hn x s' hgrown hsound (he.of_ok hr)
    have hbind : (op >>= next) s = next x s' := run_bind_of_ok hr
    refine ⟨?_, ?_, fun t ht hst => ?_⟩
    · rw [hbind]
      exact hgrown.trans hgrown'
    · rw [hbind]
      exact hsound'
    · rw [hbind] at hst ⊢
      rw [run_bind_of_ok (hagain t ht (hgrown'.trans hst))]
      exact hagain' t ht hst
  | error e s' =>
    rw [hr] at hgrown hsound hagain
    have hbind : (op >>= next) s = .error e s' := run_bind_of_error hr
    refine ⟨?_, ?_, fun t ht hst => ?_⟩
    · rw [hbind]
      exact hgrown
    · rw [hbind]
      exact hsound
    · rw [hbind] at hst ⊢
      exact run_bind_of_error (hagain t ht hst)

/-- The same where the first part leaves the store as it is. -/
theorem bind_same {next : α → EStateM ε Store β} {P : α → Prop} {E : ε → Store → Prop}
    (h : Repeats op s) (he : Ends (op s) (fun x s' => s' = s ∧ P x) E)
    (hn : ∀ x, P x → Repeats (next x) s) : Repeats (op >>= next) s := by
  refine h.bind he ?_
  rintro x _ - - ⟨rfl, hx⟩
  exact hn x hx

/-- The same where nothing needs to be known of the first part. -/
theorem bind_any {next : α → EStateM ε Store β} (h : Repeats op s)
    (hn : ∀ x s', s.Extends s' → s'.WellFormed → Repeats (next x) s') :
    Repeats (op >>= next) s := by
  refine h.bind (P := fun _ _ => True) (E := fun _ _ => True) ?_
    fun x s' hst hs _ => hn x s' hst hs
  cases op s <;> trivial

theorem map (h : Repeats op s) (f : α → β) : Repeats (f <$> op) s := by
  rw [map_eq_pure_bind]
  exact h.bind_any fun x _ _ hs => .pure hs (f x)

theorem mapM (h : s.WellFormed) {f : β → EStateM ε Store α} {xs : List β}
    (hf : ∀ x ∈ xs, ∀ s' : Store, s.Extends s' → s'.WellFormed → Repeats (f x) s') :
    Repeats (xs.mapM f) s := by
  induction xs generalizing s with
  | nil => exact .pure h []
  | cons x xs ih =>
    obtain ⟨hx, hxs⟩ := List.forall_mem_cons.mp hf
    rw [List.mapM_cons]
    refine (hx s (.refl s) h).bind_any fun y s' hst hs => ?_
    refine bind_any (ih hs fun x hx s'' hst' => hxs x hx s'' (hst.trans hst')) ?_
    exact fun ys _ _ hs => .pure hs (y :: ys)

/-- An operation whose complaints are reported in other words. -/
theorem adapt {op' : EStateM ε' Store α} (h : Repeats op s) (f : ε → ε')
    (heq : ∀ t, op' t = match op t with
      | .ok x u => .ok x u
      | .error e u => .error (f e) u) : Repeats op' s := by
  have hstate : (op' s).state = (op s).state := by
    rw [heq s]
    cases op s <;> rfl
  refine ⟨hstate ▸ h.grown, hstate ▸ h.sound, fun t ht hst => ?_⟩
  rw [heq t, heq s, h.again t ht (hstate ▸ hst)]
  cases op s <;> rfl

end Repeats

/-! ### Questions -/

theorem ask_repeats (h : s.WellFormed) {question : Store → Except StoreError α}
    (hq : Lasts question s) : Repeats (ask question) s := by
  refine ⟨?_, ?_, fun t ht hst => ?_⟩
  · rw [ask_state]
    exact .refl s
  · rw [ask_state]
    exact h
  · rw [ask_state] at hst
    unfold ask
    rw [hq t ht hst]
    cases question s <;> rfl

/-- An operation that asks first repeats if the answer lasts and the rest repeats. -/
theorem Repeats.ask_bind (h : s.WellFormed) {question : Store → Except StoreError α}
    {next : α → StoreM β} (hq : Lasts question s)
    (hn : ∀ x, question s = .ok x → Repeats (next x) s) : Repeats (ask question >>= next) s :=
  (ask_repeats h hq).bind_same (E := fun _ _ => True)
    (ask_ends (fun _ hx => ⟨rfl, hx⟩) fun _ _ => trivial) hn

/-- A store that has come of another one mirrors it. -/
theorem WellFormed.mirrors_self (hs : s.WellFormed) (ht : t.WellFormed) (hst : s.Extends t) :
    s.Mirrors s t := by
  refine ⟨hs, hs, ht, .refl s, hst, rfl, hs.named, fun a ha => ⟨a, ?_⟩⟩
  obtain ⟨x, hx⟩ := hs.holds_iff_tree?.mp ha
  exact ⟨x, hx, tree?_mono hst hx⟩

/-- A value of the first store has no other twin than itself. -/
theorem Twins.eq_of_extends {a b : Addr} (ht : t.WellFormed) (hst : s.Extends t)
    (h : Twins s t a b) : a = b := by
  obtain ⟨x, hs, hx⟩ := h
  exact Twins.eq ht ⟨x, tree?_mono hst hs, hx⟩

theorem Twins.of_extends {a : Addr} (hs : s.WellFormed) (hst : s.Extends t) (ha : s.Holds a) :
    Twins s t a a := by
  obtain ⟨x, hx⟩ := hs.holds_iff_tree?.mp ha
  exact ⟨x, hx, tree?_mono hst hx⟩

/-- Answers that compare are the same if every twin is the value itself. -/
theorem eq_of_answers {V : α → α → Prop} {x y : Except StoreError α} (ht : t.WellFormed)
    (hst : s.Extends t) (h : Answers V (Mirrors.Refusals s t) x y) (hV : ∀ a b, V a b → a = b) :
    y = x := by
  cases h with
  | ok h => rw [hV _ _ h]
  | error h =>
    obtain ⟨h⟩ := h
    rw [h.eq_rename (r := id) fun a b hab => (hab.eq_of_extends ht hst).symm]
    rename_i m _
    cases m <;> rfl

section Questions
variable {a : Addr} {id : ShapeId} (hs : s.WellFormed)

omit hs in
theorem resolve_lasts (ha : s.Holds a) : Lasts (fun s => liftM (s.resolve a)) s := by
  intro t _ hst
  obtain ⟨v, hv⟩ := ha
  exact (lift_resolve_eq_ok_iff.mpr (hst.value? hv)).trans (lift_resolve_eq_ok_iff.mpr hv).symm

omit hs in
theorem body_lasts {f : FuncId} {b : Body} (hb : s.body? f = some b) :
    Lasts (fun s => liftM (s.body f)) s := by
  intro t _ hst
  exact (lift_body_eq_ok_iff.mpr (hst.body? hb)).trans (lift_body_eq_ok_iff.mpr hb).symm

omit hs in
theorem lookup_lasts (hid : s.Knows id) :
    Lasts (fun s => (liftM (s.shapes.lookup id) : Except StoreError Shape)) s := by
  intro t _ hst
  obtain ⟨x, hx⟩ := knows_iff.mp hid
  exact (ShapeTable.lift_lookup_eq_ok_iff.mpr (hst.shape? hx)).trans
    (ShapeTable.lift_lookup_eq_ok_iff.mpr hx).symm

omit hs in
theorem Lasts.discard {question : Store → Except StoreError α} (h : Lasts question s) :
    Lasts (fun s => Functor.discard (question s)) s := fun t ht hst =>
  congrArg Functor.discard (h t ht hst)

include hs

theorem fits_lasts (ht : t.WellFormed) (hst : s.Extends t) (ha : s.Holds a) (hid : s.Knows id) :
    t.fits a id = s.fits a id :=
  ((hs.mirrors_self ht hst).fits_eq (.of_extends hs hst ha) hid).symm

theorem checkConforms_lasts (ha : s.Holds a) (hid : s.Knows id) :
    Lasts (·.checkConforms a id) s := fun _ ht hst =>
  eq_of_answers ht hst
    ((hs.mirrors_self ht hst).checkConforms_answers (.of_extends hs hst ha) hid) fun _ _ _ => rfl

theorem conforms_lasts (ha : s.Holds a) (hid : s.Knows id) : Lasts (·.conforms a id) s := by
  intro t ht hst
  have hresolve := (resolve_lasts ha).discard t ht hst
  have hlookup := (lookup_lasts hid).discard t ht hst
  dsimp only [conforms] at hresolve hlookup ⊢
  rw [fits_lasts hs ht hst ha hid]
  exact congrArg₂ (fun x y => x >>= fun _ => y >>= fun _ => Pure.pure (s.fits a id))
    hresolve hlookup

theorem elemShape_lasts (ha : s.Holds a) : Lasts (·.elemShape a) s := fun _ ht hst =>
  eq_of_answers ht hst ((hs.mirrors_self ht hst).elemShape_answers (.of_extends hs hst ha))
    fun _ _ h => h.1

/-- A value that names only what is there is accepted or refused for good. -/
theorem validate_lasts {v : Value} (hc : ∀ a ∈ v.children, s.Holds a)
    (hk : ∀ id ∈ v.shapes, s.Knows id)
    (hb : ∀ f captures, v = .function f captures → ∃ b, s.body? f = some b) :
    Lasts (·.validate v) s := by
  intro t ht hst
  have hself : List.Forall₂ (Twins s t) v.children v.children :=
    List.forall₂_same.mpr fun a ha => .of_extends hs hst (hc a ha)
  exact eq_of_answers ht hst
    ((hs.mirrors_self ht hst).validate_answers (.of_stem rfl hself) hk hb) fun _ _ _ => rfl

end Questions

/-! ### Values -/

/-- A full store has no values that it does not have already. -/
theorem find?_eq_none_of_full (hs : s.WellFormed) (ht : t.WellFormed) (hst : s.Extends t)
    {v : Value} (hf : s.find? v = none) (hfull : ¬s.size < maxValues) : t.find? v = none := by
  cases hf' : t.find? v with
  | none => rfl
  | some a =>
    obtain ⟨hv, ha⟩ := ht.find?_eq_some_iff.mp hf'
    have hlt : a.index < t.size := Interner.lt_size hv
    have hbound := ht.bounded
    obtain ⟨w, hw⟩ := holds_iff.mpr (show a.index < s.size by omega)
    cases (hst.value? hw).symm.trans hv
    rw [hs.find?_eq_some_iff.mpr ⟨hw, ha⟩] at hf
    cases hf

theorem place_repeats (h : s.WellFormed) {v : Value} (hv : s.Valid v) (ha : v.isAbstract = true) :
    Repeats (place v) s := by
  obtain ⟨hgrown, hsound⟩ := place_grows hv ha h
  refine ⟨hgrown, hsound, fun t ht hst => ?_⟩
  have hends := place_ends h v
  cases hp : place v s with
  | ok a s' =>
    rw [hp] at hst
    exact place_of_known (ht.find?_eq_some_iff.mpr ⟨hst.value? (hends.of_ok hp), ha⟩)
  | error e s' =>
    cases hf : s.find? v with
    | some a =>
      rw [place_of_known hf] at hp
      cases hp
    | none =>
      by_cases hlt : s.size < maxValues
      · rw [place_of_new hf hlt] at hp
        cases hp
      · rw [place_of_full hf hlt] at hp hst
        cases hp
        have hsize : s.size ≤ t.size := hst.values.size_le
        exact place_of_full (find?_eq_none_of_full h ht hst hf hlt) (by omega)

theorem intern_repeats (h : s.WellFormed) {v : Value} (ha : v.isAbstract = true)
    (hc : ∀ a ∈ v.children, s.Holds a) (hk : ∀ id ∈ v.shapes, s.Knows id)
    (hb : ∀ f captures, v = .function f captures → ∃ b, s.body? f = some b) :
    Repeats (intern v) s := by
  have heq : intern v = ask (·.validate v) >>= fun _ => place v := funext fun _ => intern_eq ha
  rw [heq]
  exact .ask_bind h (validate_lasts h hc hk hb) fun _ hv =>
    place_repeats h (validate_eq_ok_iff.mp hv) ha

/-- A value without children that names no shape is interned for good. -/
theorem intern_repeats_leaf (h : s.WellFormed) {v : Value} (ha : v.isAbstract = true)
    (hc : v.children = []) (hk : v.shapes = [])
    (hb : ∀ f captures, v ≠ .function f captures) : Repeats (intern v) s := by
  refine intern_repeats h ha ?_ ?_ fun f captures hv => absurd hv (hb f captures)
  · rw [hc]
    exact fun _ hm => absurd hm List.not_mem_nil
  · rw [hk]
    exact fun _ hm => absurd hm List.not_mem_nil

section Constructors
variable (h : s.WellFormed)
include h

theorem tuple_repeats {items : List Addr} (hi : ∀ a ∈ items, s.Holds a) :
    Repeats (tuple items) s :=
  intern_repeats h rfl hi (fun _ hm => absurd hm List.not_mem_nil) fun _ _ hv => by cases hv

theorem cotuple_repeats {id : ShapeId} {payload : Addr} (hid : s.Knows id)
    (hp : s.Holds payload) (tag : UInt32) : Repeats (cotuple id tag payload) s :=
  intern_repeats h rfl (List.forall_mem_singleton.mpr hp) (List.forall_mem_singleton.mpr hid)
    fun _ _ hv => by cases hv

theorem nil_repeats {elem : ShapeId} (he : s.Knows elem) : Repeats (nil elem) s :=
  intern_repeats h rfl (fun _ hm => absurd hm List.not_mem_nil) (List.forall_mem_singleton.mpr he)
    fun _ _ hv => by cases hv

theorem cons_repeats {head tail : Addr} (hh : s.Holds head) (ht : s.Holds tail) :
    Repeats (cons head tail) s := by
  refine .ask_bind h (elemShape_lasts h ht) fun elem he => ?_
  have hknown : s.Knows elem := by
    rcases elemShape_eq_ok_iff.mp he with hv | ⟨_, _, hv⟩ <;>
      exact h.named _ _ hv elem List.mem_cons_self
  exact intern_repeats h rfl (List.forall_mem_cons.mpr ⟨hh, List.forall_mem_singleton.mpr ht⟩)
    (List.forall_mem_singleton.mpr hknown) fun _ _ hv => by cases hv

theorem identity_repeats {a b : Addr} (ha : s.Holds a) (hb : s.Holds b) :
    Repeats (identity a b) s := by
  refine .ask_bind h (resolve_lasts ha).discard fun _ _ => ?_
  refine .ask_bind h (resolve_lasts hb).discard fun _ _ => ?_
  split
  · exact intern_repeats h rfl (List.forall_mem_singleton.mpr ha)
      (fun _ hm => absurd hm List.not_mem_nil) fun _ _ hv => by cases hv
  · exact .throw h _

theorem closure_repeats {func : Addr} {captures : List Addr} (hf : s.Holds func)
    (hc : ∀ a ∈ captures, s.Holds a) : Repeats (closure func captures) s := by
  refine .ask_bind h (resolve_lasts hf) fun v hv => ?_
  have hv : s.value? func = some v := lift_resolve_eq_ok_iff.mp hv
  cases v with
  | function f existing =>
    refine intern_repeats h rfl (fun a ha => ?_) (fun _ hm => absurd hm List.not_mem_nil) ?_
    · have ha : a ∈ (existing ++ captures).toList := ha
      rw [Array.toList_appendList, List.mem_append] at ha
      exact ha.elim (h.holds_of_child hv) (hc a)
    · rintro _ _ ⟨⟩
      exact (h.valid' hv).2.2
  | _ => exact .throw h _

end Constructors

/-! ### Shapes -/

theorem shape_repeats (h : s.WellFormed) {x : Shape} (hx : x.Sound s.shapes.size) :
    Repeats (shape x) s := by
  obtain ⟨hgrown, hsound⟩ := shape_grows x s h
  refine ⟨hgrown, hsound, fun t ht hst => ?_⟩
  have hends := shape_ends h hx
  cases hp : shape x s with
  | ok id s' =>
    rw [hp] at hst
    exact shape_of_known (ht.find?_shape_eq_some_iff.mpr (hst.shape? (hends.of_ok hp)))
  | error e s' =>
    have hc := ShapeTable.check_eq_ok_iff.mpr hx
    cases hf : s.shapes.find? x with
    | some id =>
      rw [shape_of_known hf] at hp
      cases hp
    | none =>
      by_cases hlt : s.shapes.size < maxEntries
      · rw [shape_of_new hf hc hlt] at hp
        cases hp
      · rw [shape_of_full hf hc hlt] at hp hst
        cases hp
        have hsize : s.shapes.size ≤ t.shapes.size := hst.shapes.size_le
        have hbound := ht.shapes.bounded
        have hsame : t.shapes.size = s.shapes.size := by omega
        have hnone : t.shapes.find? x = none := by
          cases hf' : t.shapes.find? x with
          | none => rfl
          | some id =>
            have hid := ht.find?_shape_eq_some_iff.mp hf'
            have hlt' : id.index < t.shapes.size := Interner.lt_size hid
            obtain ⟨y, hy⟩ := Interner.get?_of_lt (show id.index < s.shapes.size by omega)
            cases (hst.shape? (show s.shape? id = some y from hy)).symm.trans hid
            rw [h.find?_shape_eq_some_iff.mpr hy] at hf
            cases hf
        refine shape_of_full hnone (ShapeTable.check_eq_ok_iff.mpr ?_) (by omega)
        rw [hsame]
        exact hx

/-! ### Successes -/

/-- If the operation succeeds, it does so again in every store that has come of the one it
leaves, with the same value, and leaves that store as it is. What is said of the value
holds in all these stores. -/
def Settles (op : StoreM α) (s : Store) (P : α → Store → Prop) : Prop :=
  ∀ x s', op s = .ok x s' → s.Extends s' ∧ s'.WellFormed ∧
    ∀ t : Store, t.WellFormed → s'.Extends t → op t = .ok x t ∧ P x t

namespace Settles

variable {P : α → Store → Prop} {next : α → StoreM β} {op : StoreM α}

theorem of_repeats (h : Repeats op s) (hP : ∀ x s', op s = .ok x s' → s'.WellFormed →
    ∀ t : Store, t.WellFormed → s'.Extends t → P x t) : Settles op s P := by
  intro x s' hx
  obtain ⟨hgrown, hsound, hagain⟩ := h
  rw [hx] at hgrown hsound hagain
  exact ⟨hgrown, hsound, fun t ht hst => ⟨hagain t ht hst, hP x s' hx hsound t ht hst⟩⟩

theorem imp {Q : α → Store → Prop} (h : Settles op s P)
    (hPQ : ∀ x t, s.Extends t → t.WellFormed → P x t → Q x t) : Settles op s Q := by
  intro x s' hx
  obtain ⟨hgrown, hsound, hagain⟩ := h x s' hx
  refine ⟨hgrown, hsound, fun t ht hst => ?_⟩
  obtain ⟨ht', hP⟩ := hagain t ht hst
  exact ⟨ht', hPQ x t (hgrown.trans hst) ht hP⟩

theorem pure (h : s.WellFormed) {x : α}
    (hx : ∀ t : Store, t.WellFormed → s.Extends t → P x t) : Settles (Pure.pure x) s P := by
  intro y s' hy
  obtain ⟨rfl, rfl⟩ := run_pure_eq_ok_iff.mp hy
  exact ⟨.refl s, h, fun t ht hst => ⟨rfl, hx t ht hst⟩⟩

theorem bind {Q : β → Store → Prop} (h : Settles op s P)
    (hn : ∀ x s', s.Extends s' → s'.WellFormed → P x s' →
      Settles (next x) s' fun y t => P x t → Q y t) : Settles (op >>= next) s Q := by
  intro y s'' hy
  obtain ⟨x, s', hx, hy⟩ := run_bind_eq_ok_iff.mp hy
  obtain ⟨hgrown, hsound, hagain⟩ := h x s' hx
  have hP := (hagain s' hsound (.refl s')).2
  obtain ⟨hgrown', hsound', hagain'⟩ := hn x s' hgrown hsound hP y s'' hy
  refine ⟨hgrown.trans hgrown', hsound', fun t ht hst => ?_⟩
  obtain ⟨hop, hP⟩ := hagain t ht (hgrown'.trans hst)
  obtain ⟨hop', hQ⟩ := hagain' t ht hst
  exact ⟨(run_bind_of_ok hop).trans hop', hQ hP⟩

theorem ask_bind (h : s.WellFormed) {question : Store → Except StoreError α}
    {Q : β → Store → Prop} (hq : Lasts question s)
    (hn : ∀ x, question s = .ok x → Settles (next x) s Q) :
    Settles (ask question >>= next) s Q := by
  intro y s' hy
  obtain ⟨x, u, hask, hnext⟩ := run_bind_eq_ok_iff.mp hy
  obtain ⟨hx, rfl⟩ := ask_eq_ok_iff.mp hask
  obtain ⟨hgrown, hsound, hagain⟩ := hn x hx y s' hnext
  refine ⟨hgrown, hsound, fun t ht hst => ?_⟩
  obtain ⟨hop, hQ⟩ := hagain t ht hst
  have hask : ask question t = .ok x t :=
    ask_eq_ok_iff.mpr ⟨(hq t ht (hgrown.trans hst)).trans hx, rfl⟩
  exact ⟨(run_bind_of_ok hask).trans hop, hQ⟩

theorem mapM (h : s.WellFormed) {f : β → StoreM α} {P : β → α → Store → Prop} {xs : List β}
    (hf : ∀ x ∈ xs, ∀ s' : Store, s.Extends s' → s'.WellFormed → Settles (f x) s' (P x)) :
    Settles (xs.mapM f) s fun ys t => List.Forall₂ (fun x y => P x y t) xs ys := by
  induction xs generalizing s with
  | nil => exact .pure h fun _ _ _ => .nil
  | cons x xs ih =>
    obtain ⟨hx, hxs⟩ := List.forall_mem_cons.mp hf
    rw [List.mapM_cons]
    refine (hx s (.refl s) h).bind fun y s' hst hs _ => ?_
    refine (ih hs fun x hx s'' hst' => hxs x hx s'' (hst.trans hst')).bind
      fun ys s'' _ hs' _ => ?_
    exact .pure hs' fun t _ _ hys hy => .cons hy hys

/-- A value that is interned is where the answer says. -/
theorem intern (h : s.WellFormed) {v : Value} (ha : v.isAbstract = true)
    (hr : Repeats (Store.intern v) s) :
    Settles (Store.intern v) s fun a t => t.value? a = some v :=
  .of_repeats hr fun _ _ hx _ _ _ hst => hst.value? ((intern_ends h ha).of_ok hx)

end Settles

/-! ### Failing for want of room only -/

/-- The operation only fails if there is no room for more values. -/
def UnlessFull (op : StoreM α) (s : Store) : Prop :=
  ∀ e t, op s = .error e t → e = .exhausted ∧ maxValues ≤ t.size

/-- The operation settles what is said of its answer, and answers unless there is no room. -/
structure Gives (op : StoreM α) (s : Store) (P : α → Store → Prop) : Prop where
  settles : Settles op s P
  fails : UnlessFull op s

namespace Gives

variable {P : α → Store → Prop} {Q : β → Store → Prop} {op : StoreM α} {next : α → StoreM β}

theorem imp {P' : α → Store → Prop} (h : Gives op s P)
    (hP : ∀ x t, s.Extends t → t.WellFormed → P x t → P' x t) : Gives op s P' :=
  ⟨h.settles.imp hP, h.fails⟩

theorem pure (h : s.WellFormed) {x : α}
    (hx : ∀ t : Store, t.WellFormed → s.Extends t → P x t) : Gives (Pure.pure x) s P :=
  ⟨.pure h hx, fun e t he => by cases he⟩

theorem bind (h : Gives op s P)
    (hn : ∀ x s', s.Extends s' → s'.WellFormed → P x s' →
      Gives (next x) s' fun y t => P x t → Q y t) : Gives (op >>= next) s Q := by
  refine ⟨h.settles.bind fun x s' hst hs' hx => (hn x s' hst hs' hx).settles, fun e t he => ?_⟩
  cases hr : op s with
  | ok x s' =>
    obtain ⟨hst, hs', hagain⟩ := h.settles x s' hr
    have hx : P x s' := (hagain s' hs' (.refl s')).2
    exact (hn x s' hst hs' hx).fails e t ((run_bind_of_ok hr).symm.trans he)
  | error e' s' =>
    cases (run_bind_of_error hr).symm.trans he
    exact h.fails e t hr

theorem ask_bind (h : s.WellFormed) {question : Store → Except StoreError α} {x : α}
    (hq : Lasts question s) (hx : question s = .ok x) (hn : Gives (next x) s Q) :
    Gives (ask question >>= next) s Q := by
  refine ⟨.ask_bind h hq fun y hy => ?_, fun e t he => ?_⟩
  · cases hx.symm.trans hy
    exact hn.settles
  · exact hn.fails e t ((run_bind_of_ok (ask_eq_ok_iff.mpr ⟨hx, rfl⟩)).symm.trans he)

theorem mapM (h : s.WellFormed) {f : β → StoreM α} {P : β → α → Store → Prop} {xs : List β}
    (hf : ∀ x ∈ xs, ∀ s' : Store, s.Extends s' → s'.WellFormed → Gives (f x) s' (P x)) :
    Gives (xs.mapM f) s fun ys t => List.Forall₂ (fun x y => P x y t) xs ys := by
  induction xs generalizing s with
  | nil => exact .pure h fun _ _ _ => .nil
  | cons x xs ih =>
    obtain ⟨hx, hxs⟩ := List.forall_mem_cons.mp hf
    rw [List.mapM_cons]
    refine (hx s (.refl s) h).bind fun y s' hst hs _ => ?_
    refine (ih hs fun x hx s'' hst' => hxs x hx s'' (hst.trans hst')).bind
      fun ys s'' _ hs' _ => ?_
    exact .pure hs' fun t _ _ hys hy => .cons hy hys

/-- A valid value is at the place that is answered. -/
theorem intern (h : s.WellFormed) {v : Value} (hv : s.Valid v) (ha : v.isAbstract = true) :
    Gives (Store.intern v) s fun a t => t.value? a = some v := by
  refine ⟨.intern h ha (intern_repeats h ha hv.1 (hv.knows ha) ?_), fun e t he => ?_⟩
  · rintro f captures rfl
    exact hv.2.2
  · obtain ⟨rfl, he, hfull⟩ := (intern_valid h ha hv).of_error he
    exact ⟨he, hfull⟩

end Gives

end Store

end ValueMachine
