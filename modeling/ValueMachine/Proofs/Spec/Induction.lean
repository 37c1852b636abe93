import ValueMachine.Proofs.Spec.Meaning
import ValueMachine.Proofs.Store.Lists
import Mathlib.Algebra.BigOperators.Intervals
import Mathlib.Algebra.BigOperators.Ring.Finset
import Mathlib.Tactic.Ring

/-! Proofs by induction on lists.

The lists over the elements are gone through by length, and each is covered by the
induction: the predicate holds of it, and the proof gives the evidence that the base and
the step define for it (`Check.Induction.Covers`). The evidence for its tail is always
there, since shorter lists come first (`Recorded`). -/
namespace ValueMachine

variable {e : Executor} {s t : Store} {steps n : Nat} {elem : ShapeId} {items : List Addr}
  {list : Addr}

/-! ### What the induction defines -/

namespace Check

namespace Induction

variable {ind : Induction} {runs : Addr → Addr → Answer → Prop}

/-- What the induction comes to for a list: the base, or what the step comes to for the
head and the evidence for the tail. -/
def Defines (ind : Induction) (runs : Addr → Addr → Answer → Prop) (s : Store) (elem : ShapeId) :
    List Addr → Answer → Prop
  | [], a => a = .value ind.base
  | head :: rest, a => ∃ tail previous pair, s.ListOf elem rest tail ∧
      runs ind.proof tail (.value previous) ∧ s.value? pair = some (.tuple #[head, previous]) ∧
      runs ind.step pair a

/-- The predicate holds of the list, and the proof gives the evidence for it that the
induction defines. -/
structure Covers (ind : Induction) (runs : Addr → Addr → Answer → Prop) (s : Store)
    (elem : ShapeId) (items : List Addr) (list given : Addr) : Prop where
  is : s.ListOf elem items list
  holds : runs ind.predicate list (.value Addr.proved)
  proves : runs ind.proof list (.value given)
  evidence : s.IsEvidence given
  follows : ind.Defines runs s elem items (.value given)

/-- Why a list is not covered. What the induction defines is looked at last. -/
def Rejects (ind : Induction) (e : Executor) (steps : Nat) (s : Store) (elem : ShapeId)
    (items : List Addr) (reason : ProofInvalid) : Prop :=
  ∃ list, s.ListOf elem items list ∧
    (e.Rejects steps ind.predicate ind.proof list s reason ∨
      ∃ given, e.Supports steps ind.predicate ind.proof list s given ∧
        ((∃ message, reason = .proofFailed list message ∧
            ind.Defines (e.Yields steps · · s) s elem items (.failed message)) ∨
          ∃ wanted, reason = .stepInconsistent list ∧
            ind.Defines (e.Yields steps · · s) s elem items (.value wanted) ∧ wanted ≠ given))

theorem Defines.imp {runs' : Addr → Addr → Answer → Prop} {a : Answer}
    (hr : ∀ f x a, runs f x a → runs' f x a) (h : ind.Defines runs s elem items a) :
    ind.Defines runs' s elem items a := by
  cases items with
  | nil => exact h
  | cons head rest =>
    obtain ⟨tail, previous, pair, htail, hp, hpair, ha⟩ := h
    exact ⟨tail, previous, pair, htail, hr _ _ _ hp, hpair, hr _ _ _ ha⟩

theorem Defines.mono {a : Answer} (h : ind.Defines (e.Yields steps · · s) s elem items a)
    (he : e.Serves s) (hst : s.Extends t) (ht : t.WellFormed) :
    ind.Defines (e.Yields steps · · t) t elem items a := by
  cases items with
  | nil => exact h
  | cons head rest =>
    obtain ⟨tail, previous, pair, htail, hp, hpair, ha⟩ := h
    exact ⟨tail, previous, pair, htail.mono hst, hp.mono he hst ht, hst.value? hpair,
      ha.mono he hst ht⟩

/-- What the induction defines is one answer, whatever steps are spent on it. -/
theorem Defines.unique {a b : Answer} (hs : s.WellFormed)
    (ha : ind.Defines (e.Yields steps · · s) s elem items a) (hn : steps ≤ n)
    (hb : ind.Defines (e.Gives n · · s) s elem items b) : a = b := by
  cases items with
  | nil => exact ha.trans hb.symm
  | cons head rest =>
    obtain ⟨tail, previous, pair, htail, hp, hpair, ha⟩ := ha
    obtain ⟨tail', previous', pair', htail', hp', hpair', hb⟩ := hb
    cases htail.unique hs htail'
    cases (hp.gives hn).unique hp'
    cases hs.place_unique hpair hpair' rfl
    exact (ha.gives hn).unique hb

theorem Covers.mono {given : Addr} (h : ind.Covers (e.Yields steps · · s) s elem items list given)
    (he : e.Serves s) (hst : s.Extends t) (ht : t.WellFormed) :
    ind.Covers (e.Yields steps · · t) t elem items list given := by
  obtain ⟨hl, hp, hg, hev, hd⟩ := h
  obtain ⟨hp, hg, hev⟩ := Executor.Supports.mono ⟨hp, hg, hev⟩ he hst ht
  exact ⟨hl.mono hst, hp, hg, hev, hd.mono he hst ht⟩

/-- What is known with some steps is so with more. -/
theorem Covers.gives {given : Addr} (h : ind.Covers (e.Yields steps · · s) s elem items list given)
    (hn : steps ≤ n) : ind.Covers (e.Gives n · · s) s elem items list given :=
  ⟨h.is, h.holds.gives hn, h.proves.gives hn, h.evidence, h.follows.imp fun _ _ _ h => h.gives hn⟩

/-- Which elements there are does not matter for one list. -/
theorem Covers.over {given : Addr} (h : ind.Covers runs s elem items list given)
    (elems : List Addr) : { ind with elems := elems }.Covers runs s elem items list given := by
  refine ⟨h.is, h.holds, h.proves, h.evidence, ?_⟩
  cases items with
  | nil => exact h.follows
  | cons head rest => exact h.follows

/-- A list that is rejected is not covered, whatever steps are spent on it. -/
theorem Rejects.not_covers {reason : ProofInvalid} (hs : s.WellFormed)
    (h : ind.Rejects e steps s elem items reason) (hn : steps ≤ n) (given : Addr) :
    ¬ind.Covers (e.Gives n · · s) s elem items list given := by
  rintro ⟨hl, hp, hg, hev, hd⟩
  obtain ⟨list', hl', h⟩ := h
  cases hl'.unique hs hl
  rcases h with h | ⟨given', ⟨-, hg', -⟩, ⟨message, -, h⟩ | ⟨wanted, -, h, hne⟩⟩
  · exact h.not_establishes hn ⟨hp, given, hg, hev⟩
  · cases h.unique hs hn hd
  · cases (hg'.gives hn).unique hg
    cases h.unique hs hn hd
    exact hne rfl

/-- The evidence for the list of the items is on record. -/
def Recorded (ind : Induction) (e : Executor) (steps : Nat) (proven : Proven) (s : Store)
    (elem : ShapeId) (items : List Addr) : Prop :=
  ∃ list given, proven[list]? = some given ∧ s.ListOf elem items list ∧
    e.Yields steps ind.proof list s (.value given)

variable {proven : Proven} {given : Addr}

theorem Recorded.mono (h : ind.Recorded e steps proven s elem items) (he : e.Serves s)
    (hst : s.Extends t) (ht : t.WellFormed) : ind.Recorded e steps proven t elem items := by
  obtain ⟨list, given, hr, hl, hg⟩ := h
  exact ⟨list, given, hr, hl.mono hst, hg.mono he hst ht⟩

/-- Nothing is lost from the record, since the proof gives a list no other evidence. -/
theorem Recorded.insert (h : ind.Recorded e steps proven s elem items)
    (hg : e.Yields steps ind.proof list s (.value given)) :
    ind.Recorded e steps (proven.insert list given) s elem items := by
  obtain ⟨list', given', hr, hl, hg'⟩ := h
  by_cases heq : list = list'
  · subst heq
    exact ⟨list, given, Std.HashMap.getElem?_insert_self, hl, hg⟩
  · refine ⟨list', given', ?_, hl, hg'⟩
    rw [Std.HashMap.getElem?_insert, if_neg (by simpa using heq)]
    exact hr

/-- The values that an induction speaks of are there. -/
structure Held (ind : Induction) (s : Store) : Prop where
  predicate : s.Holds ind.predicate
  proof : s.Holds ind.proof
  step : s.Holds ind.step
  elems : ∀ x ∈ ind.elems, s.Holds x

theorem Held.mono (h : ind.Held s) (hst : s.Extends t) : ind.Held t :=
  ⟨h.predicate.mono hst, h.proof.mono hst, h.step.mono hst, fun x hx => (h.elems x hx).mono hst⟩

end Induction

/-! ### Lists one by one -/

section
variable (he : e.Serves s) {ind : Induction} (hi : ind.Held s) {proven : Proven}
include he hi

theorem expected_settles (hl : s.ListOf elem items list)
    (hrec : ∀ head rest, items = head :: rest → ind.Recorded e steps proven s elem rest) :
    Settles steps (expected e ind proven list) s fun r t =>
      match r with
      | .ok wanted => ind.Defines (e.Yields steps · · t) t elem items (.value wanted)
      | .error early => ∃ message, early = .disproved (.proofFailed list message) ∧
          ind.Defines (e.Yields steps · · t) t elem items (.failed message) := by
  have hs := he.sound
  refine .value_bind fun v hv => ?_
  cases items with
  | nil =>
    cases hv.symm.trans hl
    exact .pure hs rfl
  | cons head rest =>
    obtain ⟨tail, hcons, htail⟩ := hl
    cases hv.symm.trans hcons
    obtain ⟨tail', previous, hprevious, htail', hg⟩ := hrec head rest rfl
    cases htail.unique hs htail'
    obtain ⟨o, ho, -⟩ := hg.outcome
    have hhead : s.Holds head := hs.holds_of_child hv List.mem_cons_self
    have hitems : ∀ a ∈ [head, previous], s.Holds a :=
      List.forall_mem_cons.mpr ⟨hhead, List.forall_mem_singleton.mpr ho.2⟩
    dsimp only
    rw [hprevious]
    dsimp only
    refine Settles.bind (.lift (.intern hs rfl (Store.tuple_repeats hs hitems)))
      fun pair t hst ht hpair => ?_
    have het := he.mono hst ht
    refine (apply_settles het (hi.step.mono hst) ⟨_, hpair⟩).bind fun a u htu hu ha => ?_
    have hsu := hst.trans htu
    have hd : ind.Defines (e.Yields steps · · u) u elem (head :: rest) a :=
      ⟨tail, previous, pair, htail.mono hsu, hg.mono he hsu hu, htu.value? hpair, ha⟩
    cases a with
    | value wanted => exact .pure hu hd
    | failed message => exact .pure hu ⟨message, rfl, hd⟩

theorem checkList_settles (hl : s.ListOf elem items list)
    (hrec : ∀ head rest, items = head :: rest → ind.Recorded e steps proven s elem rest) :
    Settles steps (checkList e ind proven list) s fun r t =>
      match r with
      | .ok given => ind.Covers (e.Yields steps · · t) t elem items list given
      | .error early => ∃ reason, early = .disproved reason ∧
          ind.Rejects e steps t elem items reason := by
  refine (refutation?_settles he hi.predicate hl.holds).bind fun r t hst ht hr => ?_
  cases r with
  | some reason => exact .pure ht ⟨reason, rfl, list, hl.mono hst, .inl (.inl hr)⟩
  | none =>
    have het := he.mono hst ht
    refine (evidence_settles het (hi.proof.mono hst) (hl.holds.mono hst)).bind
      fun r' u htu hu hr' => ?_
    have hsu := hst.trans htu
    have hr := hr.mono het htu hu
    cases r' with
    | error reason => exact .pure hu ⟨reason, rfl, list, hl.mono hsu, .inl (.inr ⟨hr, hr'⟩)⟩
    | ok given =>
      have heu := he.mono hsu hu
      refine (expected_settles heu (hi.mono hsu) (hl.mono hsu) fun head rest h =>
        (hrec head rest h).mono he hsu hu).bind fun r'' w huw hw hr'' => ?_
      have hsw := hsu.trans huw
      have hgood : e.Supports steps ind.predicate ind.proof list w given :=
        Executor.Supports.mono ⟨hr, hr'⟩ heu huw hw
      cases r'' with
      | error early =>
        obtain ⟨message, rfl, hd⟩ := hr''
        exact .pure hw ⟨_, rfl, list, hl.mono hsw, .inr ⟨given, hgood, .inl ⟨message, rfl, hd⟩⟩⟩
      | ok wanted =>
        show Settles steps (ite _ _ _) w _
        split
        · next h =>
          subst h
          exact .pure hw ⟨hl.mono hsw, hgood.1, hgood.2.1, hgood.2.2, hr''⟩
        · next h =>
          exact .pure hw ⟨_, rfl, list, hl.mono hsw,
            .inr ⟨given, hgood, .inr ⟨wanted, rfl, hr'', h⟩⟩⟩

end

/-! ### Lists by length -/

namespace Induction

/-- The lists that are one longer, in the order in which they are made. -/
def longer (elems : List Addr) (lists : List (List Addr)) : List (List Addr) :=
  lists.flatMap fun items => elems.map (· :: items)

/-- The lists, and then those that are up to so many longer. -/
def visits (elems : List Addr) : Nat → List (List Addr) → List (List Addr)
  | 0, lists => lists
  | more + 1, lists => lists ++ visits elems more (longer elems lists)

variable {elems : List Addr} {lists : List (List Addr)} {more : Nat}

theorem cons_mem_longer {head : Addr} :
    head :: items ∈ longer elems lists ↔ head ∈ elems ∧ items ∈ lists := by
  simp [longer, and_comm]

theorem visits_nil : visits elems more [] = [] := by
  induction more with
  | zero => rfl
  | succ more ih => exact ih

theorem mem_visits : items ∈ visits elems more lists ↔ ∃ front back, items = front ++ back ∧
    front.length ≤ more ∧ (∀ x ∈ front, x ∈ elems) ∧ back ∈ lists := by
  induction more generalizing lists with
  | zero => simp [visits]
  | succ more ih =>
    rw [visits, List.mem_append, ih]
    constructor
    · rintro (h | ⟨front, back, rfl, hle, hfront, hback⟩)
      · exact ⟨[], items, rfl, Nat.zero_le _, fun _ h => absurd h List.not_mem_nil, h⟩
      · obtain ⟨shorter, hshorter, hback⟩ := List.mem_flatMap.mp hback
        obtain ⟨x, hx, rfl⟩ := List.mem_map.mp hback
        refine ⟨front ++ [x], shorter, by simp, by simpa using hle, ?_, hshorter⟩
        exact List.forall_mem_append.mpr ⟨hfront, List.forall_mem_singleton.mpr hx⟩
    · rintro ⟨front, back, rfl, hle, hfront, hback⟩
      rcases List.eq_nil_or_concat front with rfl | ⟨front, x, rfl⟩
      · exact .inl hback
      · obtain ⟨hfront, hx⟩ := List.forall_mem_append.mp (List.concat_eq_append ▸ hfront)
        refine .inr ⟨front, x :: back, by simp, by simpa using hle, hfront, ?_⟩
        exact cons_mem_longer.mpr ⟨hx x List.mem_cons_self, hback⟩

/-- From the empty list on, all lists up to a length are visited. -/
theorem mem_visits_nil :
    items ∈ visits elems more [[]] ↔ items.length ≤ more ∧ ∀ x ∈ items, x ∈ elems := by
  simp [mem_visits]

/-- The list of the items is there and is covered. -/
def Covered (ind : Induction) (e : Executor) (steps : Nat) (elem : ShapeId) (s : Store)
    (items : List Addr) : Prop :=
  ∃ list given, ind.Covers (e.Yields steps · · s) s elem items list given

theorem Covered.mono {ind : Induction} (h : ind.Covered e steps elem s items) (he : e.Serves s)
    (hst : s.Extends t) (ht : t.WellFormed) : ind.Covered e steps elem t items :=
  h.imp fun _ h => h.imp fun _ h => h.mono he hst ht

/-- All lists of a level are covered, and their evidence is on record beside what was. -/
structure Passes (ind : Induction) (e : Executor) (steps : Nat) (elem : ShapeId)
    (level : List (List Addr)) (proven : Proven) (s : Store) (proven' : Proven) (t : Store) :
    Prop where
  covered : ∀ items ∈ level, ind.Covered e steps elem t items
  recorded : ∀ items ∈ level, ind.Recorded e steps proven' t elem items
  kept : ∀ items, ind.Recorded e steps proven s elem items →
    ind.Recorded e steps proven' t elem items

/-- What a list of places tells: it has the lists of the items, one by one. -/
abbrev Level (s : Store) (elem : ShapeId) : List (List Addr) → List Addr → Prop :=
  List.Forall₂ (s.ListOf elem)

theorem Level.mono {level : List (List Addr)} {lists : List Addr} (h : Level s elem level lists)
    (hst : s.Extends t) : Level t elem level lists := h.imp fun _ _ h => h.mono hst

/-- A list that is covered, and then a level that passes with its evidence on record. -/
theorem Passes.cons {ind : Induction} {proven proven' : Proven} {given : Addr}
    {level : List (List Addr)} {u : Store} (he : e.Serves s) (hst : s.Extends t)
    (ht : t.WellFormed) (hlist : ind.Covers (e.Yields steps · · t) t elem items list given)
    (htu : t.Extends u) (hu : u.WellFormed)
    (hlevel : ind.Passes e steps elem level (proven.insert list given) t proven' u) :
    ind.Passes e steps elem (items :: level) proven s proven' u where
  covered := List.forall_mem_cons.mpr
    ⟨.mono ⟨list, given, hlist⟩ (he.mono hst ht) htu hu, hlevel.covered⟩
  recorded := List.forall_mem_cons.mpr
    ⟨hlevel.kept _ ⟨list, given, Std.HashMap.getElem?_insert_self, hlist.is, hlist.proves⟩,
      hlevel.recorded⟩
  kept _ h := hlevel.kept _ ((h.mono he hst ht).insert hlist.proves)

end Induction

open Induction (Level)

section
variable (he : e.Serves s) {ind : Induction} (hi : ind.Held s) {proven : Proven}
include he hi

/-- Unless this is the last length, the lists that a list is the tail of are made. -/
theorem extend_settles (last : Bool) (hl : s.ListOf elem items list) :
    Settles steps (if last then pure [] else
        ind.elems.mapM fun head => Store.cons head list : Check (List Addr)) s fun next t =>
      last = false → Level t elem (ind.elems.map (· :: items)) next := by
  cases last with
  | true => exact .pure he.sound fun h => by cases h
  | false =>
    refine (Settles.mapM he.sound (fun _ _ _ _ h hst => h.mono hst) fun head hh t hst ht =>
      .lift (Store.cons_settles ht ((hi.elems head hh).mono hst) (hl.mono hst))).imp
        fun next t _ _ hnext _ => ?_
    exact List.forall₂_map_left_iff.mpr hnext

theorem checkLevel_settles {last : Bool} {level : List (List Addr)} (acc : List (List Addr))
    {lists longer : List Addr} (hlevel : Level s elem level lists)
    (hacc : last = false → Level s elem acc longer.reverse)
    (hrec : ∀ head rest, head :: rest ∈ level → ind.Recorded e steps proven s elem rest) :
    Settles steps (checkLevel e ind last lists longer proven) s fun r t =>
      match r with
      | .ok (next, proven') => ind.Passes e steps elem level proven s proven' t ∧
          (last = false → Level t elem (acc ++ Induction.longer ind.elems level) next)
      | .error early => (∃ reason, early = .disproved reason) ∧
          early.Tells (ind.Covered e steps elem t) (ind.Rejects e steps t elem) level := by
  induction level generalizing s lists proven acc longer with
  | nil =>
    cases hlevel
    refine .pure he.sound ⟨⟨fun _ h => absurd h List.not_mem_nil,
      fun _ h => absurd h List.not_mem_nil, fun _ h => h⟩, fun hlast => ?_⟩
    rw [Induction.longer, List.flatMap_nil, List.append_nil]
    exact hacc hlast
  | cons items level ih =>
    obtain ⟨list, lists, hl, hrest, rfl⟩ := List.forall₂_cons_left_iff.mp hlevel
    refine (checkList_settles he hi hl fun head rest h =>
      hrec head rest (h ▸ List.mem_cons_self)).bind fun r t hst ht hr => ?_
    cases r with
    | error early =>
      obtain ⟨reason, rfl, hreason⟩ := hr
      exact .pure ht ⟨⟨reason, rfl⟩, .head hreason level⟩
    | ok given =>
      have het := he.mono hst ht
      -- The branch on `last` is moved out of the way of the rest of the level.
      have hjoin {β : Type} (f : List Addr → Check β) (op : Check (List Addr)) :
          (if last then pure [] >>= f else op >>= f) = (if last then pure [] else op) >>= f := by
        cases last <;> rfl
      dsimp only
      rw [hjoin]
      refine (extend_settles het (hi.mono hst) last hr.is).bind fun next u htu hu hnext => ?_
      have hsu := hst.trans htu
      have hlist := hr.mono het htu hu
      have hmore (hlast : last = false) :
          Level u elem (acc ++ ind.elems.map (· :: items)) (next.reverse ++ longer).reverse := by
        rw [List.reverse_append, List.reverse_reverse]
        exact List.rel_append ((hacc hlast).mono hsu) (hnext hlast)
      refine (ih (he.mono hsu hu) (hi.mono hsu) _ (Level.mono hrest hsu) hmore
        fun head rest h => ?_).imp fun r v huv hv hr' => ?_
      · exact ((hrec head rest (List.mem_cons_of_mem _ h)).mono he hsu hu).insert hlist.proves
      · cases r with
        | error early =>
          exact ⟨hr'.1, .cons (.mono ⟨list, given, hlist⟩ (he.mono hsu hu) huv hv) hr'.2⟩
        | ok next =>
          obtain ⟨hpasses, hlonger⟩ := hr'
          refine ⟨.cons he hsu hu hlist huv hv hpasses, fun hlast => ?_⟩
          rw [Induction.longer, List.flatMap_cons, ← List.append_assoc]
          exact hlonger hlast

theorem checkLevels_settles {more : Nat} {level : List (List Addr)} {lists : List Addr}
    (hlevel : Level s elem level lists)
    (hrec : ∀ head rest, head :: rest ∈ level → ind.Recorded e steps proven s elem rest) :
    Settles steps (checkLevels e ind more lists proven) s fun c t =>
      c.Tells (ind.Covered e steps elem t) (ind.Rejects e steps t elem)
        (Induction.visits ind.elems more level) := by
  induction more generalizing s level lists proven with
  | zero =>
    cases lists with
    | nil =>
      cases hlevel
      exact .pure he.sound fun _ h => absurd h List.not_mem_nil
    | cons list lists =>
      unfold checkLevels
      refine (checkLevel_settles he hi [] hlevel (fun _ => .nil) hrec).bind
        fun r t hst ht hr => ?_
      cases r with
      | error early => exact .pure ht hr.2
      | ok next => exact .pure ht hr.1.covered
  | succ more ih =>
    cases lists with
    | nil =>
      cases hlevel
      rw [Induction.visits_nil]
      exact .pure he.sound fun _ h => absurd h List.not_mem_nil
    | cons list lists =>
      unfold checkLevels
      refine (checkLevel_settles he hi [] hlevel (fun _ => .nil) hrec).bind
        fun r t hst ht hr => ?_
      cases r with
      | error early =>
        obtain ⟨⟨reason, rfl⟩, hr⟩ := hr
        exact .pure ht (hr.stop _)
      | ok next =>
        obtain ⟨next, proven'⟩ := next
        obtain ⟨hpasses, hnext⟩ := hr
        have het := he.mono hst ht
        refine (ih het (hi.mono hst) (hnext rfl) fun head rest h => ?_).imp
          fun c u htu hu hc => .append (fun items h => (hpasses.covered items h).mono het htu hu) hc
        exact hpasses.recorded rest (Induction.cons_mem_longer.mp h).2

end

/-! ### How many lists there are -/

theorem maxCount_pos : 0 < Store.maxCount := by decide

/-- A product is too large to count if a factor is, unless the other one is zero. -/
theorem min_mul_maxCount (level n : Nat) :
    min (min level Store.maxCount * n) Store.maxCount = min (level * n) Store.maxCount := by
  rcases Nat.le_total level Store.maxCount with h | h
  · rw [min_eq_left h]
  · rw [min_eq_right h]
    rcases Nat.eq_zero_or_pos n with rfl | hn
    · rw [Nat.mul_zero, Nat.mul_zero]
    · have hle : Store.maxCount ≤ Store.maxCount * n := Nat.le_mul_of_pos_right _ hn
      rw [min_eq_right hle, min_eq_right (hle.trans (Nat.mul_le_mul_right n h))]

theorem countLists_eq (n lengths level total : Nat) :
    countLists n lengths (min level Store.maxCount) (min total Store.maxCount) =
      min (total + level * ∑ k ∈ Finset.range lengths, n ^ k) Store.maxCount := by
  induction lengths generalizing level total with
  | zero => simp [countLists]
  | succ lengths ih =>
    have hsum : level * ∑ k ∈ Finset.range (lengths + 1), n ^ k =
        level + level * n * ∑ k ∈ Finset.range lengths, n ^ k := by
      rw [Finset.sum_range_succ', Finset.mul_sum, Nat.mul_add, Finset.mul_sum, pow_zero,
        Nat.mul_one, Nat.add_comm]
      exact congrArg _ (Finset.sum_congr rfl fun k _ => by ring)
    have hpos := maxCount_pos
    rw [hsum, countLists]
    split
    · next h =>
      rcases h with h | h
      · obtain rfl : level = 0 := by omega
        simp
      · rw [h, min_eq_right (by omega)]
    · have htotal : min (min total Store.maxCount + min level Store.maxCount) Store.maxCount =
          min (total + level) Store.maxCount := by omega
      rw [min_mul_maxCount, htotal, ih, Nat.add_assoc]

/-- The lists are counted by their lengths, up to the greatest count. -/
theorem listCount_eq (n depth : Nat) :
    listCount n depth = min (∑ k ∈ Finset.range (depth + 1), n ^ k) Store.maxCount := by
  unfold listCount
  split
  · next h => simp [h]
  · have hpos := maxCount_pos
    have h := countLists_eq n (depth + 1) 1 0
    rwa [min_eq_left (by omega), Nat.zero_min, Nat.zero_add, Nat.one_mul] at h

end Check

end ValueMachine
