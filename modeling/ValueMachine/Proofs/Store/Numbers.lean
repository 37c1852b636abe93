import Mathlib.Algebra.Order.BigOperators.Group.List
import Mathlib.Algebra.Order.Ring.Nat
import ValueMachine.Proofs.Store.Counting
import ValueMachine.Proofs.Store.Interning

/-! The number of values that belong to a shape, and when it is told.

What belongs to a finite shape is told by its parts: as many values as a ring or a width has,
products for tuples and sums for alternatives (`HasNumber`). A store counts part by part and
gives up when a number comes up on the way that is too large (`ComesUp`), even if the number
of the whole is not. That can only be where a tuple has a part without values
(`ComesUp.le_number`). -/
namespace ValueMachine

namespace Store

variable {s : Store} {id child : ShapeId} {n m : Nat}

/-- So many values belong to the shape: none to the empty one, those of its width to a ring or
to characters, and what the parts make to tuples, alternatives and evidence. -/
inductive HasNumber (s : Store) : ShapeId → Nat → Prop
  | empty {id : ShapeId} (hx : s.shape? id = some .empty) : HasNumber s id 0
  | ring {id : ShapeId} {bits : UInt8} (hx : s.shape? id = some (.ring bits)) :
      HasNumber s id (2 ^ bits.toNat)
  | char {id : ShapeId} {width : CharWidth} {cs : List Char}
      (hx : s.shape? id = some (.char width)) (hd : cs.Nodup)
      (hc : ∀ c, c ∈ cs ↔ CharWidth.ofChar c = width) : HasNumber s id cs.length
  | tuple {id : ShapeId} {items : List ShapeId} {number : ShapeId → Nat}
      (hx : s.shape? id = some (.tuple items))
      (hp : ∀ item ∈ items, HasNumber s item (number item)) : HasNumber s id (items.map number).prod
  | cotuple {id : ShapeId} {alternatives : Array ShapeId} {number : ShapeId → Nat}
      (hx : s.shape? id = some (.cotuple alternatives))
      (hp : ∀ item ∈ alternatives.toList, HasNumber s item (number item)) :
      HasNumber s id (alternatives.toList.map number).sum
  | identity {id of : ShapeId} {n : Nat} (hx : s.shape? id = some (.identity of))
      (h : HasNumber s of n) : HasNumber s id n

/-- The shape is one of those that the other one names. -/
def Part (s : Store) (child id : ShapeId) : Prop :=
  ∃ x, s.shape? id = some x ∧ child ∈ x.children

/-- The number comes up when the values that belong to the shape are counted: it is that of
the shape or of one that it is made of, or that of the first items of a tuple. -/
inductive ComesUp (s : Store) : ShapeId → Nat → Prop
  | whole {id : ShapeId} {n : Nat} (h : s.HasNumber id n) : ComesUp s id n
  | first {id : ShapeId} {items : List ShapeId} {number : ShapeId → Nat}
      (hx : s.shape? id = some (.tuple items))
      (hp : ∀ item ∈ items, s.HasNumber item (number item)) (k : Nat) :
      ComesUp s id ((items.take k).map number).prod
  | part {id child : ShapeId} {m : Nat} (hc : s.Part child id) (h : ComesUp s child m) :
      ComesUp s id m

/-- No tuple that the shape is, or is made of, has an item without values. -/
def Populated (s : Store) (id : ShapeId) : Prop :=
  ∀ t items, Relation.ReflTransGen s.Part t id → s.shape? t = some (.tuple items) →
    ∀ item ∈ items, ¬s.HasNumber item 0

/-- A shape has one number. -/
theorem HasNumber.unique (h : s.HasNumber id n) (h' : s.HasNumber id m) : n = m := by
  induction h generalizing m with
  | empty hx =>
    cases h' with
    | empty => rfl
    | _ hx' => cases hx.symm.trans hx'
  | ring hx =>
    cases h' with
    | ring hx' =>
      cases hx.symm.trans hx'
      rfl
    | _ hx' => cases hx.symm.trans hx'
  | char hx hd hc =>
    cases h' with
    | char hx' hd' hc' =>
      cases hx.symm.trans hx'
      exact ((List.perm_ext_iff_of_nodup hd hd').mpr fun c => (hc c).trans (hc' c).symm).length_eq
    | _ hx' => cases hx.symm.trans hx'
  | tuple hx _ ih =>
    cases h' with
    | tuple hx' hp' =>
      cases hx.symm.trans hx'
      exact congrArg List.prod (List.map_congr_left fun item hi => ih item hi (hp' item hi))
    | _ hx' => cases hx.symm.trans hx'
  | cotuple hx _ ih =>
    cases h' with
    | cotuple hx' hp' =>
      cases hx.symm.trans hx'
      exact congrArg List.sum (List.map_congr_left fun item hi => ih item hi (hp' item hi))
    | _ hx' => cases hx.symm.trans hx'
  | identity hx _ ih =>
    cases h' with
    | identity hx' h' =>
      cases hx.symm.trans hx'
      exact ih h'
    | _ hx' => cases hx.symm.trans hx'

/-! ### Counting up -/

/-- What is counted up part by part is told if no number on the way is too large. -/
theorem foldlM_bounded_iff {α : Type} {op : Nat → Nat → Nat} {f : α → Option Nat}
    {number : α → Nat} {xs : List α} (hf : ∀ x ∈ xs, f x = some (number x)) {start n : Nat}
    (hs : start ≤ maxCount) :
    xs.foldlM (fun n x => do bounded (op n (← f x))) start = some n ↔
      (xs.map number).foldl op start = n ∧
        ∀ k, ((xs.take k).map number).foldl op start ≤ maxCount := by
  -- What has come up so far is where the rest starts.
  induction xs generalizing start with
  | nil => simp [hs]
  | cons x xs ih =>
    obtain ⟨hx, hxs⟩ := List.forall_mem_cons.mp hf
    rw [List.foldlM_cons, hx]
    show (bounded (op start (number x)) >>= _) = _ ↔ _
    by_cases hle : op start (number x) ≤ maxCount
    · rw [bounded_eq_some_iff.mpr ⟨hle, rfl⟩]
      show xs.foldlM _ _ = _ ↔ _
      rw [ih hxs hle]
      refine and_congr_right fun _ => ⟨fun h k => ?_, fun h k => h (k + 1)⟩
      cases k with
      | zero => exact hs
      | succ k => exact h k
    · rw [show bounded (op start (number x)) = none from if_neg hle]
      exact ⟨fun h => (by cases h), fun h => absurd (h.2 1) hle⟩

theorem foldl_le_of_take {α : Type} {op : Nat → Nat → Nat} {number : α → Nat} {xs : List α}
    {start bound : Nat} (h : ∀ k, ((xs.take k).map number).foldl op start ≤ bound) :
    (xs.map number).foldl op start ≤ bound := by
  have hall := h xs.length
  rwa [List.take_length] at hall

/-- The parts of a shape that is counted are counted. -/
theorem counted_part {depth : Nat} {x : Shape} (hx : s.shape? id = some x)
    (hn : s.countWithin (depth + 1) id = some n) :
    ∀ child ∈ x.children, ∃ k, s.countWithin depth child = some k := by
  rw [countWithin, hx] at hn
  cases x with
  | tuple items => exact counted_of_foldlM hn
  | cotuple alternatives => exact counted_of_foldlM hn
  | identity of => exact List.forall_mem_singleton.mpr ⟨n, hn⟩
  | empty => exact fun _ hc => absurd hc List.not_mem_nil
  | ring => exact fun _ hc => absurd hc List.not_mem_nil
  | char => exact fun _ hc => absurd hc List.not_mem_nil
  | _ => cases hn

/-- What is counted is the number of the shape, which is not too large. -/
theorem hasNumber_of_countWithin (depth : Nat) (hn : s.countWithin depth id = some n) :
    s.HasNumber id n ∧ n ≤ maxCount := by
  induction depth generalizing id n with
  | zero => cases hn
  | succ depth ih =>
    obtain ⟨x, hx⟩ := knows_iff.mp (knows_of_countWithin hn)
    have hcounted : ∀ child ∈ x.children,
        s.countWithin depth child = some ((s.countWithin depth child).getD 0) := fun child hc => by
      obtain ⟨k, hk⟩ := counted_part hx hn child hc
      rw [hk, Option.getD_some]
    have hnumber child hc := (ih (hcounted child hc)).1
    rw [countWithin, hx] at hn
    cases x with
    | empty =>
      cases hn
      exact ⟨.empty hx, Nat.zero_le _⟩
    | ring bits =>
      obtain ⟨hle, rfl⟩ := bounded_eq_some_iff.mp hn
      exact ⟨Nat.one_shiftLeft _ ▸ .ring hx, hle⟩
    | char width =>
      cases hn
      have hnumber : s.HasNumber id width.chars.length :=
        .char hx width.nodup_chars fun _ => CharWidth.mem_chars
      refine ⟨width.length_chars ▸ hnumber, ?_⟩
      cases width <;> decide
    | tuple items =>
      obtain ⟨rfl, hle⟩ := (foldlM_bounded_iff hcounted (by decide)).mp hn
      refine ⟨?_, foldl_le_of_take hle⟩
      rw [← List.prod_eq_foldl]
      exact .tuple hx hnumber
    | cotuple alternatives =>
      obtain ⟨rfl, hle⟩ := (foldlM_bounded_iff hcounted (by decide)).mp hn
      refine ⟨?_, foldl_le_of_take hle⟩
      rw [← List.sum_eq_foldl]
      exact .cotuple hx hnumber
    | identity of =>
      have hof := ih hn
      exact ⟨.identity hx hof.1, hof.2⟩
    | _ => cases hn

/-- No number that comes up is too large if a shape is counted. -/
theorem ComesUp.le_maxCount (h : s.ComesUp id m) {depth : Nat}
    (hn : s.countWithin depth id = some n) : m ≤ maxCount := by
  induction h generalizing depth n with
  | whole h =>
    obtain ⟨hnumber, hle⟩ := hasNumber_of_countWithin depth hn
    exact h.unique hnumber ▸ hle
  | @first id items number hx hp k =>
    cases depth with
    | zero => cases hn
    | succ depth =>
      have hcounted : ∀ item ∈ items, s.countWithin depth item = some (number item) := by
        intro item hi
        obtain ⟨j, hj⟩ := counted_part hx hn item hi
        rw [hj, (hasNumber_of_countWithin depth hj).1.unique (hp item hi)]
      rw [countWithin, hx] at hn
      rw [List.prod_eq_foldl]
      exact ((foldlM_bounded_iff hcounted (by decide)).mp hn).2 k
  | part hc _ ih =>
    obtain ⟨x, hx, hc⟩ := hc
    cases depth with
    | zero => cases hn
    | succ depth =>
      obtain ⟨k, hk⟩ := counted_part hx hn _ hc
      exact ih hk

theorem countWithin_of_lt {depth : Nat} (hlt : id.index < depth)
    (h : ∀ d, id.index ≤ d → s.countWithin (d + 1) id = some n) :
    s.countWithin depth id = some n := by
  cases depth with
  | zero => exact absurd hlt (Nat.not_lt_zero _)
  | succ depth => exact h depth (Nat.le_of_lt_succ hlt)

/-- A shape is counted if no number that comes up is too large. -/
theorem HasNumber.countWithin_eq (h : s.HasNumber id n) (hs : s.WellFormed)
    (hb : ∀ m, s.ComesUp id m → m ≤ maxCount) (depth : Nat) (hd : id.index ≤ depth) :
    s.countWithin (depth + 1) id = some n := by
  have hbelow {id child : ShapeId} {x : Shape} (hx : s.shape? id = some x)
      (hc : child ∈ x.children) {d : Nat} (hd : id.index ≤ d) : child.index < d :=
    Nat.lt_of_lt_of_le ((hs.shapes.sound _ _ hx).1 child hc) hd
  induction h generalizing depth with
  | empty hx => rw [countWithin, hx]
  | ring hx =>
    rw [countWithin, hx]
    exact bounded_eq_some_iff.mpr ⟨Nat.one_shiftLeft _ ▸ hb _ (.whole (.ring hx)),
      Nat.one_shiftLeft _⟩
  | @char id width cs hx hdistinct hc =>
    have hperm : width.chars.Perm cs := (List.perm_ext_iff_of_nodup width.nodup_chars hdistinct).mpr
      fun c => CharWidth.mem_chars.trans (hc c).symm
    rw [countWithin, hx, ← hperm.length_eq, width.length_chars]
  | tuple hx hp ih =>
    rw [countWithin, hx, List.prod_eq_foldl]
    refine (foldlM_bounded_iff (fun item hi => ?_) (by decide)).mpr ⟨rfl, fun k => ?_⟩
    · exact countWithin_of_lt (hbelow hx hi hd)
        (ih item hi fun m hm => hb m (.part ⟨_, hx, hi⟩ hm))
    · rw [← List.prod_eq_foldl]
      exact hb _ (.first hx hp k)
  | @cotuple id alternatives number hx hp ih =>
    rw [countWithin, hx, List.sum_eq_foldl]
    refine (foldlM_bounded_iff (fun item hi => ?_) (by decide)).mpr ⟨rfl, fun k => ?_⟩
    · exact countWithin_of_lt (hbelow hx hi hd)
        (ih item hi fun m hm => hb m (.part ⟨_, hx, hi⟩ hm))
    · have hle := ((List.take_sublist k alternatives.toList).map number).sum_le_sum
        fun _ _ => Nat.zero_le _
      rw [← List.sum_eq_foldl]
      exact hle.trans (hb _ (.whole (.cotuple hx hp)))
  | identity hx _ ih =>
    rw [countWithin, hx]
    exact countWithin_of_lt (hbelow hx List.mem_cons_self hd)
      (ih fun m hm => hb m (.part ⟨_, hx, List.mem_cons_self⟩ hm))

/-- A cardinality is told if the shape has a number and none that comes up is too large. -/
theorem cardinality_eq_some_iff (hs : s.WellFormed) : s.cardinality id = some n ↔
    s.HasNumber id n ∧ ∀ m, s.ComesUp id m → m ≤ maxCount :=
  ⟨fun hn => ⟨(hasNumber_of_countWithin _ hn).1, fun _ hm => hm.le_maxCount hn⟩,
    fun h => h.1.countWithin_eq hs h.2 _ (Nat.le_refl _)⟩

/-! ### Tuples without empty parts -/

theorem Populated.part (h : s.Populated id) (hc : s.Part child id) : s.Populated child :=
  fun t items ht => h t items (ht.tail hc)

/-- Where no tuple has an item without values, the number of the whole is the largest that
comes up. -/
theorem ComesUp.le_number (h : s.ComesUp id m) (hp : s.Populated id) (hn : s.HasNumber id n) :
    m ≤ n := by
  have hpos {id : ShapeId} {items : List ShapeId} {number : ShapeId → Nat}
      (hp : s.Populated id) (hx : s.shape? id = some (.tuple items))
      (hn : ∀ item ∈ items, s.HasNumber item (number item)) :
      ∀ k ∈ items.map number, 1 ≤ k := by
    refine List.forall_mem_map.mpr fun item hi => Nat.pos_of_ne_zero fun h0 => ?_
    exact hp id items .refl hx item hi (h0 ▸ hn item hi)
  induction h generalizing n with
  | whole h => exact Nat.le_of_eq (h.unique hn)
  | @first id items number hx hi k =>
    rw [hn.unique (.tuple hx hi)]
    exact ((List.take_sublist k items).map number).prod_le_prod' (hpos hp hx hi)
  | @part id child m hc _ ih =>
    have hchild := hp.part hc
    obtain ⟨x, hx, hc⟩ := hc
    cases hn with
    | tuple hx' hn =>
      cases hx.symm.trans hx'
      exact (ih hchild (hn child hc)).trans
        (List.single_le_prod (hpos hp hx hn) _ (List.mem_map_of_mem hc))
    | cotuple hx' hn =>
      cases hx.symm.trans hx'
      exact (ih hchild (hn child hc)).trans
        (List.single_le_sum (fun _ _ => Nat.zero_le _) _ (List.mem_map_of_mem hc))
    | identity hx' hn =>
      cases hx.symm.trans hx'
      cases List.mem_singleton.mp hc
      exact ih hchild hn
    | _ hx' =>
      cases hx.symm.trans hx'
      exact absurd hc List.not_mem_nil

/-- Tuples of the same items in another order have the same number. -/
theorem HasNumber.perm {items items' : List ShapeId} {id' : ShapeId}
    (h : s.HasNumber id n) (hx : s.shape? id = some (.tuple items))
    (hx' : s.shape? id' = some (.tuple items')) (hperm : items.Perm items') :
    s.HasNumber id' n := by
  cases h with
  | @tuple _ _ number hx₁ hp =>
    cases hx.symm.trans hx₁
    rw [(hperm.map number).prod_eq]
    exact .tuple hx' fun item hi => hp item (hperm.mem_iff.mpr hi)
  | _ hx₁ => cases hx.symm.trans hx₁

theorem Populated.perm {items items' : List ShapeId} {id' : ShapeId} (h : s.Populated id)
    (hx : s.shape? id = some (.tuple items)) (hx' : s.shape? id' = some (.tuple items'))
    (hperm : items.Perm items') : s.Populated id' := by
  intro t its ht hits item hi
  rcases ht.cases_tail with rfl | ⟨c, htc, x, hxc, hc⟩
  · cases hx'.symm.trans hits
    exact h id items .refl hx item (hperm.mem_iff.mpr hi)
  · cases hx'.symm.trans hxc
    exact h t its (htc.tail ⟨_, hx, hperm.mem_iff.mpr hc⟩) hits item hi

/-- What is told of the cardinality of a shape is exact: its number if that is not too large,
and nothing if it is, or if there is none; and for tuples their order does not matter. -/
structure CountsExactly (s : Store) (id : ShapeId) : Prop where
  told : ∀ n, s.HasNumber id n → n ≤ maxCount → s.cardinality id = some n
  large : ∀ n, s.HasNumber id n → maxCount < n → s.cardinality id = none
  other : (∀ n, ¬s.HasNumber id n) → s.cardinality id = none
  order : ∀ id' items items', s.shape? id = some (.tuple items) →
    s.shape? id' = some (.tuple items') → items.Perm items' → s.cardinality id' = s.cardinality id

theorem Populated.countsExactly (hs : s.WellFormed) (hp : s.Populated id) : s.CountsExactly id := by
  have hiff {id : ShapeId} (hp : s.Populated id) (n : Nat) :
      s.cardinality id = some n ↔ s.HasNumber id n ∧ n ≤ maxCount := by
    rw [cardinality_eq_some_iff hs]
    exact and_congr_right fun hn =>
      ⟨fun h => h n (.whole hn), fun hle m hm => (hm.le_number hp hn).trans hle⟩
  refine ⟨fun n hn hle => (hiff hp n).mpr ⟨hn, hle⟩, fun n hn hlt => ?_, fun hnone => ?_,
    fun id' items items' hx hx' hperm => Option.ext fun n => ?_⟩
  · refine Option.eq_none_iff_forall_ne_some.mpr fun k hk => ?_
    obtain ⟨hk, hle⟩ := (hiff hp k).mp hk
    exact absurd hlt (Nat.not_lt_of_le (hn.unique hk ▸ hle))
  · exact Option.eq_none_iff_forall_ne_some.mpr fun k hk => hnone k ((hiff hp k).mp hk).1
  · rw [hiff (hp.perm hx hx' hperm) n, hiff hp n]
    exact and_congr_left fun _ =>
      ⟨fun h => h.perm hx' hx hperm.symm, fun h => h.perm hx hx' hperm⟩

end Store

end ValueMachine
