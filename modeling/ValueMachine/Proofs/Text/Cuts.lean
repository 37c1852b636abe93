import Mathlib.Data.List.Basic
import ValueMachine.Text.Number
import ValueMachine.Text.Quoted

/-! What can be read off a text.

A part of a text is determined by the text if its end can be seen: it is made of characters
of some sort, and the text does not go on with one of them (`Outside.cut`). So a number can be
read that is not followed by a digit (`number_cut`), and so can numbers that stand after marks
(`marked_cut`) or in a list (`listed_cut`). Lines can be told apart if no line break occurs in
them (`unlines_inj`); none occurs in numbers and in quotes. -/
namespace ValueMachine

/-! ### Parts -/

/-- The text does not go on with a character of the sort. -/
def Outside (sort : Char → Bool) (r : List Char) : Prop := ∀ c ∈ r.head?, sort c = false

variable {sort : Char → Bool} {u u' r r' : List Char}

theorem Outside.nil : Outside sort [] := nofun

theorem Outside.cons {c : Char} (h : sort c = false) : Outside sort (c :: r) := by
  rintro _ ⟨⟩
  exact h

theorem Outside.mono {sort' : Char → Bool} (h : Outside sort r)
    (hsort : ∀ c, sort' c = true → sort c = true) : Outside sort' r := by
  intro c hc
  have hout := h c hc
  cases hc' : sort' c with
  | false => rfl
  | true => exact absurd (hsort c hc') (by rw [hout]; exact Bool.false_ne_true)

/-- A part ends before the first character that is not of its sort. -/
theorem Outside.cut (hu : ∀ c ∈ u, sort c = true) (hu' : ∀ c ∈ u', sort c = true)
    (hr : Outside sort r) (hr' : Outside sort r') (h : u ++ r = u' ++ r') : u = u' ∧ r = r' := by
  have hpart {u r : List Char} (hu : ∀ c ∈ u, sort c = true) (hr : Outside sort r) :
      (u ++ r).takeWhile sort = u := by
    rw [List.takeWhile_append_of_pos hu]
    cases r with
    | nil => simp
    | cons c r => simp [hr c rfl]
  obtain rfl : u = u' := by rw [← hpart hu hr, h, hpart hu' hr']
  exact ⟨rfl, List.append_cancel_left h⟩

/-! ### Numbers -/

theorem isDigit_of_mem_number {n : Nat} {c : Char} (h : c ∈ (toString n).toList) :
    c.isDigit = true := by
  rw [Nat.toString_eq_repr, Nat.toList_repr] at h
  exact Nat.isDigit_of_mem_toDigits (by decide) (by decide) h

theorem number_inj {m n : Nat} (h : (toString m).toList = (toString n).toList) : m = n := by
  simp only [Nat.toString_eq_repr, Nat.toList_repr] at h
  rw [← Nat.ofDigitChars_toDigits (b := 10) (n := m) (by decide) (by decide), h,
    Nat.ofDigitChars_toDigits (by decide) (by decide)]

/-- A number can be read if no digit follows it. -/
theorem number_cut {m n : Nat} (hr : Outside Char.isDigit r) (hr' : Outside Char.isDigit r')
    (h : (toString m).toList ++ r = (toString n).toList ++ r') : m = n ∧ r = r' := by
  obtain ⟨hn, hrest⟩ := Outside.cut (fun _ => isDigit_of_mem_number)
    (fun _ => isDigit_of_mem_number) hr hr' h
  exact ⟨number_inj hn, hrest⟩

/-- Numbers, each of them after a mark of its own. -/
def marked : List String → List Nat → List Char
  | mark :: marks, n :: ns => mark.toList ++ (toString n).toList ++ marked marks ns
  | _, _ => []

/-- A mark is not empty and does not start with a digit. -/
def IsMark (mark : String) : Prop := (mark.toList.head?.any fun c => !c.isDigit) = true

instance : DecidablePred IsMark := fun _ => inferInstanceAs (Decidable (_ = true))

theorem IsMark.outside {mark : String} (h : IsMark mark) :
    Outside Char.isDigit (mark.toList ++ r) := by
  cases hmark : mark.toList with
  | nil => simp [IsMark, hmark] at h
  | cons c rest => exact .cons (by simpa [IsMark, hmark] using h)

theorem outside_marked {marks : List String} (h : ∀ mark ∈ marks, IsMark mark) (ns : List Nat)
    (hr : Outside Char.isDigit r) : Outside Char.isDigit (marked marks ns ++ r) := by
  cases marks with
  | nil => exact hr
  | cons mark marks =>
    cases ns with
    | nil => exact hr
    | cons n ns =>
      rw [marked, List.append_assoc, List.append_assoc]
      exact (h mark List.mem_cons_self).outside

/-- Marked numbers can be read if no digit follows them. -/
theorem marked_cut {marks : List String} (h : ∀ mark ∈ marks, IsMark mark) {ns ns' : List Nat}
    (hns : ns.length = marks.length) (hns' : ns'.length = marks.length)
    (hr : Outside Char.isDigit r) (hr' : Outside Char.isDigit r')
    (heq : marked marks ns ++ r = marked marks ns' ++ r') : ns = ns' ∧ r = r' := by
  induction marks generalizing ns ns' with
  | nil =>
    obtain rfl := List.length_eq_zero_iff.mp hns
    obtain rfl := List.length_eq_zero_iff.mp hns'
    exact ⟨rfl, heq⟩
  | cons mark marks ih =>
    obtain ⟨n, ns, rfl⟩ := List.exists_cons_of_length_eq_add_one hns
    obtain ⟨n', ns', rfl⟩ := List.exists_cons_of_length_eq_add_one hns'
    have hmarks : ∀ mark ∈ marks, IsMark mark := fun mark hm => h mark (List.mem_cons_of_mem _ hm)
    simp only [marked, List.append_assoc, List.append_cancel_left_eq] at heq
    obtain ⟨rfl, hmore⟩ :=
      number_cut (outside_marked hmarks ns hr) (outside_marked hmarks ns' hr') heq
    obtain ⟨rfl, hrest⟩ := ih hmarks (Nat.succ.inj hns) (Nat.succ.inj hns') hmore
    exact ⟨rfl, hrest⟩

/-- Numbers after the same mark, separated by commas. -/
def listed (mark : String) (ns : List Nat) : String :=
  ", ".intercalate (ns.map fun n => mark ++ toString n)

/-- The numbers of a list after the first. -/
def listedMore (mark : String) (ns : List Nat) : List Char :=
  ns.flatMap fun n => ", ".toList ++ (mark.toList ++ (toString n).toList)

theorem toList_listed_cons (mark : String) (n : Nat) (ns : List Nat) :
    (listed mark (n :: ns)).toList =
      mark.toList ++ ((toString n).toList ++ listedMore mark ns) := by
  induction ns generalizing n with
  | nil => simp [listed, listedMore]
  | cons n' ns ih =>
    have hnext := ih n'
    simp only [listed, String.toList_intercalate, List.map_cons, String.toList_append,
      List.intercalate_cons_cons] at hnext ⊢
    rw [hnext]
    simp [listedMore]

theorem listedMore_cons (mark : String) (n : Nat) (ns : List Nat) :
    listedMore mark (n :: ns) = ", ".toList ++ (listed mark (n :: ns)).toList := by
  rw [toList_listed_cons]
  simp [listedMore]

section Closed
variable {mark : String} {close : Char} (hcomma : close ≠ ',') (hdigit : close.isDigit = false)
include hcomma hdigit

theorem listedMore_cut {ns ns' : List Nat}
    (h : listedMore mark ns ++ close :: r = listedMore mark ns' ++ close :: r') :
    ns = ns' ∧ r = r' := by
  have houtside (ns : List Nat) (r : List Char) :
      Outside Char.isDigit (listedMore mark ns ++ close :: r) := by
    cases ns with
    | nil => exact .cons hdigit
    | cons n ns => exact .cons rfl
  induction ns generalizing ns' with
  | nil =>
    cases ns' with
    | nil => exact ⟨rfl, (List.cons_eq_cons.mp h).2⟩
    | cons n' ns' => exact absurd (List.cons_eq_cons.mp h).1 hcomma
  | cons n ns ih =>
    cases ns' with
    | nil => exact absurd (List.cons_eq_cons.mp h).1.symm hcomma
    | cons n' ns' =>
      simp only [listedMore, List.flatMap_cons, List.append_assoc,
        List.append_cancel_left_eq] at h
      obtain ⟨rfl, hmore⟩ := number_cut (houtside ns r) (houtside ns' r') h
      obtain ⟨rfl, hrest⟩ := ih hmore
      exact ⟨rfl, hrest⟩

/-- A list of numbers can be read if its end is marked, by a character with which no number
starts. -/
theorem listed_cut (hmark : ∃ c rest, mark.toList = c :: rest ∧ c ≠ close) {ns ns' : List Nat}
    (h : (listed mark ns).toList ++ close :: r = (listed mark ns').toList ++ close :: r') :
    ns = ns' ∧ r = r' := by
  obtain ⟨c, rest, hmark, hc⟩ := hmark
  have hstart (n : Nat) (ns : List Nat) : (listed mark (n :: ns)).toList =
      c :: (rest ++ ((toString n).toList ++ listedMore mark ns)) := by
    rw [toList_listed_cons, hmark]
    rfl
  cases ns with
  | nil =>
    cases ns' with
    | nil => exact ⟨rfl, (List.cons_eq_cons.mp h).2⟩
    | cons n' ns' =>
      rw [hstart] at h
      exact absurd (List.cons_eq_cons.mp h).1.symm hc
  | cons n ns =>
    cases ns' with
    | nil =>
      rw [hstart] at h
      exact absurd (List.cons_eq_cons.mp h).1 hc
    | cons n' ns' =>
      have hmore : listedMore mark (n :: ns) ++ close :: r =
          listedMore mark (n' :: ns') ++ close :: r' := by
        rw [listedMore_cons, listedMore_cons, List.append_assoc, List.append_assoc, h]
      exact listedMore_cut hcomma hdigit hmore

end Closed

/-! ### Line breaks -/

/-- No line break occurs in the text. -/
def Unbroken (u : List Char) : Prop := '\n' ∉ u

instance : DecidablePred Unbroken := fun u => inferInstanceAs (Decidable ('\n' ∉ u))

@[simp] theorem newline_notMem_toDigits (n : Nat) : '\n' ∉ Nat.toDigits 10 n := fun h =>
  absurd (Nat.isDigit_of_mem_toDigits (by decide) (by decide) h) (by decide)

namespace Unbroken

theorem nil : Unbroken [] := List.not_mem_nil

theorem append (h : Unbroken u) (h' : Unbroken u') : Unbroken (u ++ u') :=
  List.not_mem_append h h'

theorem append_text {s t : String} (h : Unbroken s.toList) (h' : Unbroken t.toList) :
    Unbroken (s ++ t).toList := by
  rw [String.toList_append]
  exact h.append h'

theorem cons {c : Char} (hc : c ≠ '\n') (h : Unbroken u) : Unbroken (c :: u) :=
  List.not_mem_cons_of_ne_of_not_mem hc.symm h

theorem number (n : Nat) : Unbroken (toString n).toList := by
  simp [Unbroken]

theorem sublist (h : Unbroken u) {part : List Char} (hpart : part.Sublist u) : Unbroken part :=
  fun hmem => h (hpart.subset hmem)

theorem marked {marks : List String} (h : ∀ mark ∈ marks, Unbroken mark.toList) (ns : List Nat) :
    Unbroken (marked marks ns) := by
  induction marks generalizing ns with
  | nil => exact .nil
  | cons mark marks ih =>
    obtain ⟨hmark, hmarks⟩ := List.forall_mem_cons.mp h
    cases ns with
    | nil => exact .nil
    | cons n ns => exact (hmark.append (.number n)).append (ih hmarks ns)

theorem listed {mark : String} (h : Unbroken mark.toList) (ns : List Nat) :
    Unbroken (listed mark ns).toList := by
  cases ns with
  | nil => exact .nil
  | cons n ns =>
    rw [toList_listed_cons]
    refine h.append ((Unbroken.number n).append fun hmem => ?_)
    obtain ⟨n', -, hbreak⟩ := List.mem_flatMap.mp hmem
    exact (Unbroken.append (by decide) (h.append (.number n'))) hbreak

/-- Texts without breaks are lines of the text that they are joined to. -/
theorem cut (h : Unbroken u) (h' : Unbroken u') (heq : u ++ '\n' :: r = u' ++ '\n' :: r') :
    u = u' ∧ r = r' := by
  have hsort {u : List Char} (h : Unbroken u) : ∀ c ∈ u, (c != '\n') = true := by
    intro c hc
    rw [bne_iff_ne]
    rintro rfl
    exact h hc
  obtain ⟨rfl, hrest⟩ :=
    Outside.cut (hsort h) (hsort h') (.cons (by decide)) (.cons (by decide)) heq
  exact ⟨rfl, (List.cons_eq_cons.mp hrest).2⟩

end Unbroken

/-- The text of these lines. -/
def unlines (lines : List String) : String := String.join (lines.map (· ++ "\n"))

theorem unlines_cons (line : String) (lines : List String) :
    unlines (line :: lines) = line ++ "\n" ++ unlines lines := by
  rw [unlines, List.map_cons, String.join_cons, unlines]

theorem toList_unlines_cons (line : String) (lines : List String) :
    (unlines (line :: lines)).toList = line.toList ++ '\n' :: (unlines lines).toList := by
  simp [unlines_cons]

theorem unlines_append (lines lines' : List String) :
    unlines (lines ++ lines') = unlines lines ++ unlines lines' := by
  apply String.toList_inj.mp
  simp [unlines]

/-- A text determines its lines. -/
theorem unlines_inj {lines lines' : List String} (h : ∀ line ∈ lines, Unbroken line.toList)
    (h' : ∀ line ∈ lines', Unbroken line.toList)
    (heq : (unlines lines).toList = (unlines lines').toList) : lines = lines' := by
  induction lines generalizing lines' with
  | nil =>
    cases lines' with
    | nil => rfl
    | cons line' lines' => simp [unlines] at heq
  | cons line lines ih =>
    cases lines' with
    | nil => simp [unlines] at heq
    | cons line' lines' =>
      obtain ⟨hline, hmore⟩ := List.forall_mem_cons.mp h
      obtain ⟨hline', hmore'⟩ := List.forall_mem_cons.mp h'
      rw [toList_unlines_cons, toList_unlines_cons] at heq
      obtain ⟨hsame, hrest⟩ := hline.cut hline' heq
      rw [String.toList_inj.mp hsame, ih hmore hmore' hrest]

theorem Decimal.zeros_unbroken (n : Nat) : Unbroken (zeros n).toList := by
  simp [zeros, Unbroken]

theorem Decimal.positional_unbroken (d : Decimal) (places : Nat) :
    Unbroken (d.positional places).toList := by
  have hdigits : Unbroken d.digitText.toList := .number d.digits
  have htake (n : Nat) : Unbroken (String.ofList (d.digitText.toList.take n)).toList := by
    rw [String.toList_ofList]
    exact hdigits.sublist (List.take_sublist _ _)
  have hdrop (n : Nat) : Unbroken (String.ofList (d.digitText.toList.drop n)).toList := by
    rw [String.toList_ofList]
    exact hdigits.sublist (List.drop_sublist _ _)
  have hzero : Unbroken "0".toList := by decide
  have hpoint : Unbroken ".".toList := by decide
  have hdigits' := (zeros_unbroken (-d.point).toNat).append_text (hdrop d.point.toNat)
  have hfraction := hdigits'.append_text (zeros_unbroken (places - (zeros (-d.point).toNat ++
    String.ofList (d.digitText.toList.drop d.point.toNat)).length))
  have hwhole : Unbroken (if d.point ≤ 0 then "0" else
      String.ofList (d.digitText.toList.take d.point.toNat) ++
        zeros d.exponent.toNat).toList := by
    split
    · exact hzero
    · exact (htake _).append_text (zeros_unbroken _)
  unfold positional
  dsimp only
  split
  · exact hwhole
  · exact (hwhole.append_text hpoint).append_text hfraction

theorem Flex.render_unbroken (x : Flex) : Unbroken x.render.toList := by
  have hmagnitude : Unbroken (if (!x.isFinite) = true then "inf"
      else (if x.isZero then (⟨0, 0⟩ : Decimal) else x.shortest).positional 0).toList := by
    split
    · decide
    · exact Decimal.positional_unbroken _ 0
  unfold render renderWith
  split
  · decide
  · dsimp only
    split
    · exact .append_text (by decide) hmagnitude
    · exact hmagnitude

namespace Quoted

theorem hex_unbroken (n : Nat) : Unbroken (Nat.toDigits 16 n) := by
  induction n using Nat.strongRecOn with
  | ind n ih =>
    have hdigit (n : Nat) : Unbroken [n.digitChar] := .cons (Nat.digitChar_ne _ rfl) .nil
    rw [Nat.toDigits_eq_if (by decide)]
    split
    · exact hdigit n
    · exact (ih (n / 16) (by omega)).append (hdigit _)

theorem escape_unbroken (quote c : Char) :
    Unbroken (escape quote c).toList := by
  have hself {c : Char} (hc : c ≠ '\n') : Unbroken c.toString.toList := by
    rw [Char.toString, String.toList_singleton]
    exact .cons hc .nil
  have hslash : Unbroken "\\".toList := by decide
  unfold escape
  split_ifs with _ _ _ hbreak _ heq _
  case pos | pos | pos | pos | pos => decide
  · exact hslash.append_text (hself hbreak)
  · exact hself hbreak
  · refine .append_text (.append_text (by decide) ?_) (by decide)
    rw [String.toList_ofList]
    exact hex_unbroken _

theorem char_unbroken (c : Char) : Unbroken (char c).toList :=
  .append_text (.append_text (by decide) (escape_unbroken _ c)) (by decide)

theorem text_unbroken (s : String) : Unbroken (text s).toList := by
  refine .append_text (.append_text (by decide) ?_) (by decide)
  rw [String.toList_join]
  intro h
  obtain ⟨t, ht, hbreak⟩ := List.mem_flatMap.mp h
  obtain ⟨c, -, rfl⟩ := List.mem_map.mp ht
  exact escape_unbroken _ c hbreak

end Quoted

end ValueMachine
