import Mathlib.Data.List.Forall2
import Mathlib.Data.List.Nodup
import ValueMachine.Code.Listing
import ValueMachine.Proofs.Text.Cuts

/-! Instructions can be read.

An instruction is shown as its mnemonic, numbers after marks that depend on the opcode only,
and perhaps a list of numbers (`Instr.toList_renderWith`). A branch target is shown by the
number of its block; so if the same blocks are known to a reader, the text and whatever
follows it determine the instruction (`Instr.renderWith_cut`). -/
namespace ValueMachine

namespace Opcode

/-- What stands in front of each single number of an instruction. -/
def marks : Opcode → List String
  | nop => []
  | trap => [" "]
  | const => [" r", ", @"]
  | arg | capture => [" r", ", "]
  | mov | head | tail | isNil | branch | closure | call => [" r", ", r"]
  | arith _ | cmp _ | refl | cons | defer => [" r", ", r", ", r"]
  | tupleGet => [" r", ", r", ", "]
  | cotupleNew => [" r", ", s", "::", ", r"]
  | nil => [" r", ", s"]
  | tupleNew | tailCall | ret => [" r"]
  | jmp => [" @L"]

/-- What stands in front of the numbers of the list. -/
def itemMark : Opcode → String
  | branch => "@L"
  | _ => "r"

/-- The text of a list of operands, if the instruction has one. -/
def spellItems (op : Opcode) (items : List Nat) : List Char :=
  if op.hasList then ", [".toList ++ ((listed op.itemMark items).toList ++ [']']) else []

/-- The text of an instruction with these numbers. -/
def spell (op : Opcode) (words items : List Nat) : List Char :=
  op.mnemonic.toList ++ (marked op.marks words ++ op.spellItems items)

/-- Neither a space nor a line break. -/
def isMnemonicChar (c : Char) : Bool := c != ' ' && c != '\n'

theorem mnemonic_chars (op : Opcode) : ∀ c ∈ op.mnemonic.toList, isMnemonicChar c = true := by
  have hall : ∀ op ∈ all, op.mnemonic.toList.all isMnemonicChar = true := by decide
  exact List.all_eq_true.mp (hall op op.mem_all)

theorem mnemonic_inj {op op' : Opcode} (h : op.mnemonic = op'.mnemonic) : op = op' := by
  have hall : (all.map mnemonic).Nodup := by decide
  exact List.inj_on_of_nodup_map hall op.mem_all op'.mem_all h

theorem marks_isMark (op : Opcode) : ∀ mark ∈ op.marks, IsMark mark := by
  have hall : ∀ op ∈ all, ∀ mark ∈ op.marks, IsMark mark := by decide
  exact hall op op.mem_all

/-- The single numbers of an instruction, if there are any, start with a space. -/
theorem marks_start (op : Opcode) :
    op = nop ∨ ∃ mark marks, op.marks = mark :: marks ∧ ∃ rest, mark.toList = ' ' :: rest := by
  cases op with
  | nop => exact .inl rfl
  | _ => exact .inr ⟨_, _, rfl, _, rfl⟩

theorem outside_words (op : Opcode) {words : List Nat} (hwords : words.length = op.marks.length)
    {r : List Char} (hlist : op = nop → Outside isMnemonicChar r) :
    Outside isMnemonicChar (marked op.marks words ++ r) := by
  obtain rfl | ⟨mark, marks, hmarks, rest, hmark⟩ := op.marks_start
  · exact hlist rfl
  · rw [hmarks] at hwords ⊢
    obtain ⟨n, ns, rfl⟩ := List.exists_cons_of_length_eq_add_one hwords
    rw [marked, hmark]
    exact .cons rfl

theorem outside_items {op : Opcode} (items : List Nat) {r : List Char}
    (hr : Outside isMnemonicChar r) : Outside Char.isDigit (op.spellItems items ++ r) := by
  have hdigit : Outside Char.isDigit r := hr.mono fun c hc => by
    rw [isMnemonicChar, Bool.and_eq_true, bne_iff_ne, bne_iff_ne]
    exact ⟨fun h => by simp [h] at hc, fun h => by simp [h] at hc⟩
  unfold spellItems
  split
  · exact .cons rfl
  · exact hdigit

theorem items_cut {op : Opcode} {items items' : List Nat} {r r' : List Char}
    (hitems : op.hasList = false → items = []) (hitems' : op.hasList = false → items' = [])
    (h : op.spellItems items ++ r = op.spellItems items' ++ r') : items = items' ∧ r = r' := by
  unfold spellItems at h
  cases hlist : op.hasList with
  | false =>
    simp only [hlist, Bool.false_eq_true, if_false, List.nil_append] at h
    exact ⟨(hitems hlist).trans (hitems' hlist).symm, h⟩
  | true =>
    have hmark : ∃ c rest, op.itemMark.toList = c :: rest ∧ c ≠ ']' := by
      unfold itemMark
      split
      · exact ⟨'@', ['L'], rfl, by decide⟩
      · exact ⟨'r', [], rfl, by decide⟩
    simp only [hlist, if_true, List.append_assoc, List.append_cancel_left_eq] at h
    exact listed_cut (by decide) (by decide) hmark h

/-- The text of an instruction can be read if a space or a line break follows. -/
theorem spell_cut {op op' : Opcode} {words items words' items' : List Nat} {r r' : List Char}
    (hwords : words.length = op.marks.length) (hwords' : words'.length = op'.marks.length)
    (hitems : op.hasList = false → items = []) (hitems' : op'.hasList = false → items' = [])
    (hr : Outside isMnemonicChar r) (hr' : Outside isMnemonicChar r')
    (h : op.spell words items ++ r = op'.spell words' items' ++ r') :
    (op = op' ∧ words = words' ∧ items = items') ∧ r = r' := by
  simp only [spell, List.append_assoc] at h
  obtain ⟨hop, hmarked⟩ := Outside.cut op.mnemonic_chars op'.mnemonic_chars
    (op.outside_words hwords fun hnop => by subst hnop; exact hr)
    (op'.outside_words hwords' fun hnop => by subst hnop; exact hr') h
  obtain rfl := mnemonic_inj (String.toList_inj.mp hop)
  obtain ⟨rfl, hlisted⟩ := marked_cut op.marks_isMark hwords hwords' (outside_items items hr)
    (outside_items items' hr') hmarked
  obtain ⟨rfl, hrest⟩ := items_cut hitems hitems' hlisted
  exact ⟨⟨rfl, rfl, rfl⟩, hrest⟩

theorem spell_unbroken (op : Opcode) (words items : List Nat) :
    Unbroken (op.spell words items) := by
  have hmnemonic : Unbroken op.mnemonic.toList := fun h =>
    absurd (op.mnemonic_chars _ h) (by decide)
  have hmarks : ∀ mark ∈ op.marks, Unbroken mark.toList := by
    have hall : ∀ op ∈ all, ∀ mark ∈ op.marks, Unbroken mark.toList := by decide
    exact hall op op.mem_all
  have hmark : Unbroken op.itemMark.toList := by
    unfold itemMark
    split <;> decide
  refine hmnemonic.append ((Unbroken.marked hmarks words).append ?_)
  unfold spellItems
  split
  · have hopen : Unbroken ", [".toList := by decide
    exact hopen.append ((hmark.listed items).append (.cons (by decide) .nil))
  · exact .nil

end Opcode

/-- Related lists are the same if related elements are. -/
theorem eq_of_forall₂ {α : Type} {R : α → α → Prop} {xs ys : List α} (h : List.Forall₂ R xs ys)
    (hR : ∀ x ∈ xs, ∀ y ∈ ys, R x y → x = y) : xs = ys := by
  induction h with
  | nil => rfl
  | @cons x y xs ys hxy _ ih =>
    rw [hR x List.mem_cons_self y List.mem_cons_self hxy,
      ih fun x hx y hy => hR x (List.mem_cons_of_mem _ hx) y (List.mem_cons_of_mem _ hy)]

namespace Instr

variable (blocks : BlockNumbers)

/-- The numbers that are shown: of a target that of its block. -/
def shownWords : Instr → List Nat
  | jmp target => [(blocks[target.toNat]?).getD 0]
  | i => i.words.map UInt32.toNat

def shownItems : Instr → List Nat
  | branch _ _ targets => targets.toList.map fun target => (blocks[target.toNat]?).getD 0
  | i => i.items.map UInt32.toNat

/-- A block starts at each target of the instruction. -/
def Labelled (i : Instr) : Prop := ∀ target ∈ i.targets, ∃ k, blocks[target.toNat]? = some k

variable {blocks}

theorem renderRegs_eq (rs : List Reg) :
    renderRegs rs = "[" ++ listed "r" (rs.map UInt32.toNat) ++ "]" := by
  rw [renderRegs, listed, List.map_map]
  rfl

theorem toList_renderWith (i : Instr) (h : i.Labelled blocks) :
    (i.renderWith blocks).toList = i.opcode.spell (i.shownWords blocks) (i.shownItems blocks) := by
  cases i with
  | jmp target =>
    obtain ⟨k, hk⟩ := h target List.mem_cons_self
    simp [renderWith, operands, renderTarget, hk, Opcode.spell, Opcode.spellItems, opcode,
      shownWords, Opcode.marks, Opcode.hasList, marked]
  | branch scrutinee payload targets =>
    have htargets : targets.toList.map (renderTarget blocks) =
        (targets.toList.map fun target => (blocks[target.toNat]?).getD 0).map
          fun n => "@L" ++ toString n := by
      rw [List.map_map]
      refine List.map_congr_left fun target ht => ?_
      obtain ⟨k, hk⟩ := h target ht
      simp [renderTarget, hk]
    simp [renderWith, operands, htargets, renderReg, Opcode.spell, Opcode.spellItems, opcode,
      shownWords, shownItems, words, Opcode.marks, Opcode.hasList, marked, Opcode.itemMark, listed]
  | _ =>
    simp [renderWith, operands, renderReg, renderRegs_eq, Addr.label, ShapeId.label, Addr.index,
      ShapeId.index, Opcode.spell, Opcode.spellItems, opcode, shownWords, shownItems, words, items,
      Opcode.marks, Opcode.hasList, marked, Opcode.itemMark]

theorem renderWith_unbroken {i : Instr} (h : i.Labelled blocks) :
    Unbroken (i.renderWith blocks).toList := by
  rw [toList_renderWith i h]
  exact i.opcode.spell_unbroken _ _

/-- Two instructions that look the same to readers of different blocks. -/
structure LookAlike (blocks blocks' : BlockNumbers) (i j : Instr) : Prop where
  opcode : i.opcode = j.opcode
  words : i.shownWords blocks = j.shownWords blocks'
  items : i.shownItems blocks = j.shownItems blocks'

theorem length_shownWords (i : Instr) : (i.shownWords blocks).length = i.opcode.marks.length := by
  cases i <;> rfl

theorem shownItems_of_hasList {i : Instr} (h : i.opcode.hasList = false) :
    i.shownItems blocks = [] := by
  cases i <;> first | rfl | cases h

theorem renderWith_cut {blocks' : BlockNumbers} {i j : Instr} {r r' : List Char}
    (hi : i.Labelled blocks) (hj : j.Labelled blocks') (hr : Outside Opcode.isMnemonicChar r)
    (hr' : Outside Opcode.isMnemonicChar r')
    (h : (i.renderWith blocks).toList ++ r = (j.renderWith blocks').toList ++ r') :
    LookAlike blocks blocks' i j ∧ r = r' := by
  rw [toList_renderWith i hi, toList_renderWith j hj] at h
  obtain ⟨⟨hop, hwords, hitems⟩, hrest⟩ := Opcode.spell_cut i.length_shownWords
    j.length_shownWords shownItems_of_hasList shownItems_of_hasList hr hr' h
  exact ⟨⟨hop, hwords, hitems⟩, hrest⟩

theorem eq_jmp {i : Instr} (h : i.opcode = .jmp) : ∃ target, i = jmp target := by
  cases i with
  | jmp target => exact ⟨target, rfl⟩
  | _ => cases h

theorem eq_branch {i : Instr} (h : i.opcode = .branch) :
    ∃ scrutinee payload targets, i = branch scrutinee payload targets := by
  cases i with
  | branch scrutinee payload targets => exact ⟨scrutinee, payload, targets, rfl⟩
  | _ => cases h

theorem shownWords_of_ne {i : Instr} (h : i.opcode ≠ .jmp) :
    i.shownWords blocks = i.words.map UInt32.toNat := by
  cases i with
  | jmp => exact absurd rfl h
  | _ => rfl

theorem shownItems_of_ne {i : Instr} (h : i.opcode ≠ .branch) :
    i.shownItems blocks = i.items.map UInt32.toNat := by
  cases i with
  | branch => exact absurd rfl h
  | _ => rfl

/-- Instructions that look the same are the same if no two targets do. -/
theorem LookAlike.eq {blocks' : BlockNumbers} {i j : Instr} (h : LookAlike blocks blocks' i j)
    (htargets : ∀ t ∈ i.targets, ∀ t' ∈ j.targets,
      (blocks[t.toNat]?).getD 0 = (blocks'[t'.toNat]?).getD 0 → t = t') : i = j := by
  have hnumbers {ns ns' : List UInt32} (h : ns.map UInt32.toNat = ns'.map UInt32.toNat) :
      ns = ns' := List.map_injective_iff.mpr (fun _ _ => UInt32.toNat_inj.mp) h
  have hwords : i.words = j.words := by
    by_cases hjmp : i.opcode = .jmp
    · obtain ⟨target, rfl⟩ := eq_jmp hjmp
      obtain ⟨target', rfl⟩ := eq_jmp (h.opcode.symm.trans hjmp)
      rw [htargets target List.mem_cons_self target' List.mem_cons_self
        (List.singleton_inj.mp h.words)]
    · have hshown := h.words
      rw [shownWords_of_ne hjmp, shownWords_of_ne (h.opcode ▸ hjmp)] at hshown
      exact hnumbers hshown
  have hitems : i.items = j.items := by
    by_cases hbranch : i.opcode = .branch
    · obtain ⟨scrutinee, payload, targets, rfl⟩ := eq_branch hbranch
      obtain ⟨scrutinee', payload', targets', rfl⟩ := eq_branch (h.opcode.symm.trans hbranch)
      have hshown := h.items
      simp only [shownItems, ← List.forall₂_eq_eq_eq, List.forall₂_map_left_iff,
        List.forall₂_map_right_iff] at hshown
      exact eq_of_forall₂ hshown htargets
    · have hshown := h.items
      rw [shownItems_of_ne hbranch, shownItems_of_ne (h.opcode ▸ hbranch)] at hshown
      exact hnumbers hshown
  have hi := ofOperands?_self i
  rw [h.opcode, hwords, hitems, ofOperands?_self] at hi
  exact (Option.some.inj hi).symm

end Instr

end ValueMachine
