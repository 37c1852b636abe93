import Mathlib.Algebra.BigOperators.Group.List.Basic
import Mathlib.Data.List.Nodup
import ValueMachine.Proofs.Store.Interning

/-! How many values there are.

The characters of a width are listed in full and counted right, and so are the choices
from several lists. A cardinality is a bounded sum or product of cardinalities; where
there is one, no bound was passed (`foldlM_bounded`), and it stays what it is when the
store grows (`Store.cardinality_lasts`). -/
namespace ValueMachine

/-! ### Characters -/

namespace CharWidth

/-- The character with a code point, if it is not a surrogate. -/
def scalar? (n : Nat) : Option Char := if h : n.isValidChar then some (Char.ofNatAux n h) else none

theorem scalar?_of_valid {n : Nat} (h : n.isValidChar) :
    scalar? n = some (Char.ofNatAux n h) := dif_pos h

theorem scalar?_of_surrogate {n : Nat} (h : ¬n.isValidChar) : scalar? n = none := dif_neg h

theorem scalar?_eq_some_iff {n : Nat} {c : Char} : scalar? n = some c ↔ c.toNat = n := by
  constructor
  · intro h
    by_cases hn : n.isValidChar
    · rw [scalar?_of_valid hn] at h
      cases h
      rfl
    · rw [scalar?_of_surrogate hn] at h
      cases h
  · rintro rfl
    exact scalar?_of_valid c.valid

/-- A width has the characters from its least code point up to its bound. -/
theorem ofChar_eq_iff {c : Char} {w : CharWidth} :
    ofChar c = w ↔ w.least ≤ c.toNat ∧ c.toNat < w.bound := by
  have hlt : c.toNat < 0x110000 := by
    rcases c.valid with h | h
    · exact Nat.lt_trans h (by decide)
    · exact h.2
  unfold ofChar
  simp only [UInt32.le_iff_toNat_le, show c.val.toNat = c.toNat from rfl]
  cases w <;> simp only [least, bound]
  all_goals split_ifs <;> simp_all <;> omega

theorem mem_chars {c : Char} {w : CharWidth} : c ∈ w.chars ↔ ofChar c = w := by
  have hchars : w.chars = (List.range' w.least (w.bound - w.least)).filterMap scalar? := rfl
  have hle : w.least ≤ w.bound := by cases w <;> decide
  rw [hchars, List.mem_filterMap, ofChar_eq_iff]
  simp only [scalar?_eq_some_iff, List.mem_range'_1]
  constructor
  · rintro ⟨n, hn, rfl⟩
    omega
  · intro h
    exact ⟨c.toNat, by omega, rfl⟩

theorem nodup_chars (w : CharWidth) : w.chars.Nodup := by
  refine List.Nodup.filterMap (fun n n' c hn hn' => ?_) List.nodup_range'
  exact (scalar?_eq_some_iff.mp hn).symm.trans (scalar?_eq_some_iff.mp hn')

/-- Where there are no surrogates every code point is a character. -/
theorem length_filterMap_of_valid {start n : Nat}
    (h : ∀ k, start ≤ k → k < start + n → k.isValidChar) :
    ((List.range' start n).filterMap scalar?).length = n := by
  rw [List.filterMap_length_eq_length.mpr, List.length_range']
  intro k hk
  obtain ⟨h₁, h₂⟩ := List.mem_range'_1.mp hk
  rw [scalar?_of_valid (h k h₁ h₂)]
  rfl

theorem length_chars (w : CharWidth) : w.chars.length = w.count := by
  have hchars : w.chars = (List.range' w.least (w.bound - w.least)).filterMap scalar? := rfl
  rw [hchars]
  cases w with
  | one => exact length_filterMap_of_valid (by simp only [least, bound, Nat.isValidChar]; omega)
  | two => exact length_filterMap_of_valid (by simp only [least, bound, Nat.isValidChar]; omega)
  | three =>
    -- The surrogates lie between two stretches of characters.
    have hsplit : List.range' 0x800 (0x10000 - 0x800) = List.range' 0x800 0xd000 ++
        (List.range' 0xd800 0x800 ++ List.range' 0xe000 0x2000) := by
      rw [List.range'_append, List.range'_append]
    have hnone : (List.range' 0xd800 0x800).filterMap scalar? = [] := by
      refine List.filterMap_eq_nil_iff.mpr fun k hk => scalar?_of_surrogate ?_
      have := List.mem_range'_1.mp hk
      simp only [Nat.isValidChar]
      omega
    show ((List.range' 0x800 (0x10000 - 0x800)).filterMap scalar?).length = 0xf000
    rw [hsplit, List.filterMap_append, List.filterMap_append, hnone, List.nil_append,
      List.length_append, length_filterMap_of_valid, length_filterMap_of_valid]
    all_goals
      simp only [Nat.isValidChar]
      omega
  | four => exact length_filterMap_of_valid (by simp only [least, bound, Nat.isValidChar]; omega)

end CharWidth

namespace Store

/-! ### Choices -/

section Choices
variable {α : Type}

theorem mem_choices {xss : List (List α)} {ys : List α} :
    ys ∈ choices xss ↔ List.Forall₂ (· ∈ ·) ys xss := by
  induction xss generalizing ys with
  | nil => simp [choices]
  | cons xs rest ih =>
    cases xs with
    | nil =>
      simp only [choices, List.forall₂_cons_right_iff]
      simp
    | cons x xs =>
      simp only [choices, List.mem_flatMap, List.mem_map, List.forall₂_cons_right_iff, ih]
      constructor
      · rintro ⟨y, hy, ys, hys, rfl⟩
        exact ⟨y, ys, hy, hys, rfl⟩
      · rintro ⟨y, ys, hy, hys, rfl⟩
        exact ⟨y, hy, ys, hys, rfl⟩

theorem length_choices (xss : List (List α)) :
    (choices xss).length = (xss.map List.length).prod := by
  induction xss with
  | nil => rfl
  | cons xs rest ih =>
    cases xs with
    | nil => simp [choices]
    | cons x xs =>
      rw [List.map_cons, List.prod_cons, ← ih, choices, List.length_flatMap]
      · simp only [List.length_map, List.map_const', List.sum_replicate_nat]
      · exact List.cons_ne_nil x xs

theorem nodup_choices {xss : List (List α)} (h : ∀ xs ∈ xss, xs.Nodup) :
    (choices xss).Nodup := by
  induction xss with
  | nil => exact List.nodup_singleton []
  | cons xs rest ih =>
    obtain ⟨hxs, hrest⟩ := List.forall_mem_cons.mp h
    cases xs with
    | nil => exact List.nodup_nil
    | cons x xs =>
      refine List.nodup_flatMap.mpr ⟨fun y _ => (ih hrest).map (List.cons_injective), ?_⟩
      refine hxs.imp fun hne ys hys hys' => ?_
      obtain ⟨tail, -, rfl⟩ := List.mem_map.mp hys
      obtain ⟨tail', -, htail⟩ := List.mem_map.mp hys'
      exact hne (List.cons.inj htail).1.symm

end Choices

/-! ### Cardinalities -/

theorem bounded_eq_some_iff {n k : Nat} : bounded n = some k ↔ n ≤ maxCount ∧ n = k := by
  unfold bounded
  rw [Option.ite_none_right_eq_some, Option.some.injEq]

/-- What is counted up without passing the bound is counted right. -/
theorem foldlM_bounded {α : Type} {op : Nat → Nat → Nat} {f : α → Option Nat} {xs : List α}
    {ns : List Nat} (h : List.Forall₂ (fun x n => f x = some n) xs ns) {start n : Nat}
    (hn : xs.foldlM (fun n x => do bounded (op n (← f x))) start = some n) :
    n = ns.foldl op start := by
  induction h generalizing start with
  | nil => exact (Option.some.inj hn).symm
  | cons hx _ ih =>
    rw [List.foldlM_cons] at hn
    obtain ⟨k, hk, hn⟩ := Option.bind_eq_some_iff.mp hn
    rw [hx] at hk
    obtain ⟨-, rfl⟩ := bounded_eq_some_iff.mp hk
    exact ih hn

/-- All parts are counted if the whole is. -/
theorem counted_of_foldlM {α : Type} {op : Nat → Nat → Nat} {f : α → Option Nat} {xs : List α}
    {start n : Nat} (hn : xs.foldlM (fun n x => do bounded (op n (← f x))) start = some n) :
    ∀ x ∈ xs, ∃ k, f x = some k := by
  induction xs generalizing start with
  | nil => exact fun x hx => absurd hx List.not_mem_nil
  | cons x xs ih =>
    rw [List.foldlM_cons] at hn
    obtain ⟨k, hk, hn⟩ := Option.bind_eq_some_iff.mp hn
    obtain ⟨j, hj, -⟩ := Option.bind_eq_some_iff.mp hk
    exact List.forall_mem_cons.mpr ⟨⟨j, hj⟩, ih hn⟩

theorem foldlM_congr {α β : Type} {f g : β → α → Option β} {xs : List α} (start : β)
    (h : ∀ x ∈ xs, ∀ y, f y x = g y x) : xs.foldlM f start = xs.foldlM g start := by
  induction xs generalizing start with
  | nil => rfl
  | cons x xs ih =>
    obtain ⟨hx, hxs⟩ := List.forall_mem_cons.mp h
    rw [List.foldlM_cons, List.foldlM_cons, hx]
    exact bind_congr fun y => ih y hxs

variable {s t : Store}

/-- Only what is known is counted. -/
theorem knows_of_countWithin {depth n : Nat} {id : ShapeId}
    (hn : s.countWithin depth id = some n) : s.Knows id := by
  cases depth with
  | zero => cases hn
  | succ depth =>
    cases hx : s.shape? id with
    | some x => exact knows_iff.mpr ⟨x, hx⟩
    | none =>
      rw [countWithin, hx] at hn
      cases hn

theorem countWithin_lasts (hs : s.WellFormed) (hst : s.Extends t) (depth : Nat) {id : ShapeId}
    (hid : s.Knows id) : t.countWithin depth id = s.countWithin depth id := by
  induction depth generalizing id with
  | zero => rfl
  | succ depth ih =>
    obtain ⟨x, hx⟩ := knows_iff.mp hid
    unfold countWithin
    rw [hx, hst.shape? hx]
    cases x with
    | tuple items =>
      exact foldlM_congr 1 fun child hc n => by rw [ih (hs.knows_of_child hx hc)]
    | cotuple alternatives =>
      exact foldlM_congr 0 fun child hc n => by rw [ih (hs.knows_of_child hx hc)]
    | identity of => exact ih (hs.knows_of_child hx List.mem_cons_self)
    | _ => rfl

/-- A known shape keeps its cardinality. -/
theorem cardinality_lasts (hs : s.WellFormed) (hst : s.Extends t) {id : ShapeId}
    (hid : s.Knows id) : t.cardinality id = s.cardinality id := countWithin_lasts hs hst _ hid

end Store

end ValueMachine
