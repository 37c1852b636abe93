import Mathlib.Data.List.Induction
import ValueMachine.Store.Basic

/-! Tables that store a content once.

A table is sound for a sort of entries when exactly the entries of that sort are
found by their content, each at its own place (`Indexed`). Then no content of the
sort stands at two places. Both ways of adding an entry keep this, if the entry
that is indexed is new and the one that is not indexed is of the other sort; `add`
chooses the right one. A table grows (`Extends`) when every entry stays at its place. -/
namespace ValueMachine

namespace Interner

variable {α : Type} [BEq α] [Hashable α]

/-- Every entry of the first table is at the same place in the second. -/
def Extends (t u : Interner α) : Prop := ∀ i x, t.get? i = some x → u.get? i = some x

/-- Adds an entry that can be found by its content if it is of the sort. -/
def add (sort : α → Bool) (t : Interner α) (x : α) : Interner α :=
  if sort x then t.insert x else t.append x

/-- The first entries of the table are the given ones. -/
def StartsWith (t : Interner α) (xs : List α) : Prop := ∀ i x, xs[i]? = some x → t.get? i = some x

/-- Exactly the entries of the sort are found by their content, each at its own place. -/
def Indexed (t : Interner α) (sort : α → Bool) : Prop :=
  ∀ x i, t.find? x = some i ↔ t.get? i = some x ∧ sort x = true

/-! ### Reading a table that has one entry more -/

theorem lt_size {t : Interner α} {i : Nat} {x : α} (h : t.get? i = some x) : i < t.size :=
  (Array.getElem?_eq_some_iff.mp h).1

theorem get?_of_lt {t : Interner α} {i : Nat} (h : i < t.size) : ∃ x, t.get? i = some x :=
  ⟨t.items[i], Array.getElem?_eq_getElem h⟩

@[simp] theorem size_insert (t : Interner α) (x : α) : (t.insert x).size = t.size + 1 :=
  Array.size_push x

@[simp] theorem size_append (t : Interner α) (x : α) : (t.append x).size = t.size + 1 :=
  Array.size_push x

theorem get?_insert (t : Interner α) (x : α) (i : Nat) :
    (t.insert x).get? i = if i = t.size then some x else t.get? i := Array.getElem?_push

theorem get?_append (t : Interner α) (x : α) (i : Nat) :
    (t.append x).get? i = if i = t.size then some x else t.get? i := Array.getElem?_push

theorem get?_size (t : Interner α) : t.get? t.size = none :=
  Array.getElem?_eq_none (Nat.le_refl _)

@[simp] theorem toList_insert (t : Interner α) (x : α) : (t.insert x).toList = t.toList ++ [x] :=
  Array.toList_push

@[simp] theorem toList_append (t : Interner α) (x : α) : (t.append x).toList = t.toList ++ [x] :=
  Array.toList_push

@[simp] theorem toList_add (sort : α → Bool) (t : Interner α) (x : α) :
    (t.add sort x).toList = t.toList ++ [x] := by
  unfold add
  split
  · exact toList_insert t x
  · exact toList_append t x

/-- A table to which entries are added holds them behind its own. -/
theorem toList_foldl {put : Interner α → α → Interner α}
    (h : ∀ t x, (put t x).toList = t.toList ++ [x]) (xs : List α) (t : Interner α) :
    (xs.foldl put t).toList = t.toList ++ xs := by
  induction xs generalizing t with
  | nil => simp
  | cons x xs ih => simp [ih, h]

theorem toList_ofList (xs : List α) : (ofList xs).toList = xs := toList_foldl toList_insert xs empty

theorem get?_eq_toList (t : Interner α) (i : Nat) : t.get? i = t.toList[i]? := by
  simp [get?, toList]

theorem size_eq_length (t : Interner α) : t.size = t.toList.length := Array.length_toList.symm

@[simp] theorem size_add (sort : α → Bool) (t : Interner α) (x : α) :
    (t.add sort x).size = t.size + 1 := by
  simp [size_eq_length]

theorem get?_add (sort : α → Bool) (t : Interner α) (x : α) (i : Nat) :
    (t.add sort x).get? i = if i = t.size then some x else t.get? i := by
  unfold add
  split
  · exact get?_insert t x i
  · exact get?_append t x i

theorem mem_toList {t : Interner α} {i : Nat} {x : α} (h : t.get? i = some x) : x ∈ t.toList := by
  rw [get?_eq_toList] at h
  exact List.mem_of_getElem? h

theorem startsWith_iff_take {t : Interner α} {xs : List α} :
    t.StartsWith xs ↔ t.toList.take xs.length = xs := by
  unfold StartsWith
  simp only [get?_eq_toList]
  constructor
  · intro h
    have hle : xs.length ≤ t.toList.length := by
      by_contra hlt
      have hi : t.toList.length < xs.length := by omega
      have := h t.toList.length _ (List.getElem?_eq_getElem hi)
      simp at this
    refine List.ext_getElem? fun i => ?_
    by_cases hi : i < xs.length
    · rw [List.getElem?_take_of_lt hi, h i _ (List.getElem?_eq_getElem hi),
        List.getElem?_eq_getElem hi]
    · rw [List.getElem?_eq_none (by simp; omega), List.getElem?_eq_none (by omega)]
  · intro h i x hx
    obtain ⟨hi, -⟩ := List.getElem?_eq_some_iff.mp hx
    rw [← h, List.getElem?_take_of_lt hi] at hx
    exact hx

/-! ### Growth -/

theorem Extends.refl (t : Interner α) : t.Extends t := fun _ _ h => h

theorem Extends.trans {t u v : Interner α} (h : t.Extends u) (h' : u.Extends v) : t.Extends v :=
  fun i x hx => h' i x (h i x hx)

theorem Extends.size_le {t u : Interner α} (h : t.Extends u) : t.size ≤ u.size := by
  by_cases h0 : t.size = 0
  · omega
  · obtain ⟨x, hx⟩ := get?_of_lt (t := t) (i := t.size - 1) (by omega)
    have := lt_size (h _ _ hx)
    omega

theorem extends_insert (t : Interner α) (x : α) : t.Extends (t.insert x) := by
  intro i y h
  have := lt_size h
  rw [get?_insert, if_neg (by omega)]
  exact h

theorem StartsWith.mono {t u : Interner α} {xs : List α} (h : t.StartsWith xs) (hu : t.Extends u) :
    u.StartsWith xs := fun i x hx => hu i x (h i x hx)

/-! ### The index -/

variable {sort : α → Bool}

theorem Indexed.find?_eq {t : Interner α} (h : t.Indexed sort) {i : Nat} {x : α}
    (hx : t.get? i = some x) (hs : sort x = true) : t.find? x = some i :=
  (h x i).mpr ⟨hx, hs⟩

/-- No content of the sort stands at two places. -/
theorem Indexed.injective {t : Interner α} (h : t.Indexed sort) {i j : Nat} {x : α}
    (hi : t.get? i = some x) (hj : t.get? j = some x) (hs : sort x = true) : i = j := by
  have hfi := h.find?_eq hi hs
  have hfj := h.find?_eq hj hs
  rw [hfi] at hfj
  exact Option.some.inj hfj

theorem indexed_empty : (empty : Interner α).Indexed sort := by
  intro x i
  simp [find?, get?, empty]

theorem indexed_append {t : Interner α} (h : t.Indexed sort) {x : α} (hs : sort x = false) :
    (t.append x).Indexed sort := by
  intro y i
  show t.find? y = some i ↔ _
  rw [h y i, get?_append]
  by_cases hi : i = t.size
  · subst hi
    rw [if_pos rfl, get?_size]
    constructor
    · rintro ⟨hn, -⟩
      cases hn
    · rintro ⟨hxy, hy⟩
      rw [← Option.some.inj hxy, hs] at hy
      cases hy
  · rw [if_neg hi]

theorem ofList_append (xs : List α) (x : α) : ofList (xs ++ [x]) = (ofList xs).insert x := by
  simp [ofList, List.foldl_append]

variable [LawfulBEq α]

theorem find?_insert_self (t : Interner α) (x : α) : (t.insert x).find? x = some t.size :=
  Std.HashMap.getElem?_insert_self

theorem find?_insert_of_ne (t : Interner α) {x y : α} (h : x ≠ y) :
    (t.insert x).find? y = t.find? y := by
  show (t.index.insert x t.items.size)[y]? = t.index[y]?
  rw [Std.HashMap.getElem?_insert, if_neg (by simpa using h)]

theorem indexed_insert {t : Interner α} (h : t.Indexed sort) {x : α} (hn : t.find? x = none)
    (hs : sort x = true) : (t.insert x).Indexed sort := by
  intro y i
  rw [get?_insert]
  by_cases hxy : x = y
  · subst hxy
    rw [find?_insert_self]
    by_cases hi : i = t.size
    · simp [hi, hs]
    · rw [if_neg hi]
      constructor
      · intro he
        exact absurd (Option.some.inj he).symm hi
      · rintro ⟨hx, -⟩
        rw [h.find?_eq hx hs] at hn
        cases hn
  · rw [find?_insert_of_ne t hxy, h y i]
    by_cases hi : i = t.size
    · subst hi
      simp [get?_size, hxy]
    · rw [if_neg hi]

theorem indexed_add {t : Interner α} (h : t.Indexed sort) {x : α}
    (hn : sort x = true → t.find? x = none) : (t.add sort x).Indexed sort := by
  unfold add
  split
  · next hs => exact indexed_insert h (hn hs) hs
  · next hs => exact indexed_append h (by simpa using hs)

/-! ### Tables made from lists -/

/-- A table made from different entries is those entries, each found at its place. -/
theorem ofList_sound (xs : List α) (hd : xs.Nodup) (hs : ∀ x ∈ xs, sort x = true) :
    (ofList xs).toList = xs ∧ (ofList xs).Indexed sort := by
  refine ⟨toList_ofList xs, ?_⟩
  induction xs using List.reverseRecOn with
  | nil => exact indexed_empty
  | append_singleton xs x ih =>
    obtain ⟨hxs, -, hx⟩ := List.nodup_append.mp hd
    have hi := ih hxs fun y hy => hs y (List.mem_append_left _ hy)
    have hn : (ofList xs).find? x = none := by
      cases hf : (ofList xs).find? x with
      | none => rfl
      | some i =>
        have hg := mem_toList ((hi x i).mp hf).1
        rw [toList_ofList] at hg
        exact absurd rfl (hx x hg x (List.mem_singleton_self x))
    rw [ofList_append]
    exact indexed_insert hi hn (hs x (by simp))

end Interner

end ValueMachine
