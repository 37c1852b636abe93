import ValueMachine.Code.Assembler
import ValueMachine.Proofs.Computation

/-! Finished code has the places of the labels in its branches.

A program can be thought of as lines: instructions as they stand, and branches whose targets
are labels. An assembler holds the lines as instructions with placeholders for the labels
(`Line.draft`) and keeps for each label where it belongs (`Line.fixups`). When it finishes
the code, it patches one slot of one instruction after another. At any time the lines before
that one are finished, and its slots before that one are put in, while everything behind is
as it was drafted. So the finished code is what the lines stand for where every label stands
for its place (`Holds.finish_eq`). -/
namespace ValueMachine

/-! ### Lines -/

/-- A line of a program. -/
inductive Line
  | instr (i : Instr)
  | jump (label : Label)
  | branch (scrutinee payload : Reg) (labels : List Label)

namespace Line

/-- The labels that the line branches to. -/
def labels : Line → List Label
  | instr _ => []
  | jump l => [l]
  | branch _ _ labels => labels

/-- What stands for the line until the code is finished. -/
def draft : Line → Instr
  | instr i => i
  | jump _ => .jmp placeholder
  | branch scrutinee payload labels =>
    .branch scrutinee payload (Array.replicate labels.length placeholder)

/-- The slots of the line and the labels that belong there. -/
def fixups (line : Line) (place : Nat) : List Fixup :=
  line.labels.zipIdx.map fun (label, slot) => ⟨place, slot, label⟩

end Line

namespace Assembler

variable {a : Assembler} {code : Array Instr} {n : Nat}

/-- The instruction that a line stands for. -/
def resolve (a : Assembler) : Line → Except UnresolvedLabel Instr
  | .instr i => .ok i
  | .jump label => return .jmp (← a.target label)
  | .branch scrutinee payload labels =>
    return .branch scrutinee payload (← labels.mapM a.target).toArray

/-! ### Patches -/

theorem patch_of_error {l : Label} {e : UnresolvedLabel} (h : a.target l = .error e) (slot : Nat) :
    a.patch code ⟨n, slot, l⟩ = .error e := by
  simp only [patch, h, bind, Except.bind]

theorem patch_of_ok {l : Label} {t : UInt32} (h : a.target l = .ok t) {i j : Instr} {slot : Nat}
    (hi : code[n]? = some i) (hj : i.setTarget? slot t = some j) :
    a.patch code ⟨n, slot, l⟩ = .ok (code.setIfInBounds n j) := by
  simp only [patch, h, hi, hj, Option.bind_some, bind, Except.bind]

theorem setIfInBounds_eq_self {i : Instr} (h : code[n]? = some i) :
    code.setIfInBounds n i = code := by
  refine Array.ext_getElem? fun k => ?_
  by_cases hk : n = k
  · subst hk
    obtain ⟨hlt, -⟩ := Array.getElem?_eq_some_iff.mp h
    rw [Array.getElem?_setIfInBounds_self_of_lt hlt, h]
  · exact Array.getElem?_setIfInBounds_ne hk

/-- The first slot with a placeholder is put in. -/
theorem setTarget?_branch (scrutinee payload : Reg) (done : List UInt32) (t : UInt32) (k : Nat) :
    Instr.setTarget? done.length t (.branch scrutinee payload
        (done ++ List.replicate (k + 1) placeholder).toArray) =
      some (.branch scrutinee payload ((done ++ [t]) ++ List.replicate k placeholder).toArray) := by
  simp [Instr.setTarget?, List.replicate_succ]

/-- The slots of a branch are patched one after another: those before are put in, those
behind hold placeholders. -/
theorem patch_branch (scrutinee payload : Reg) (labels : List Label) (done : List UInt32)
    (h : code[n]? = some (.branch scrutinee payload
      (done ++ List.replicate labels.length placeholder).toArray)) :
    ((labels.zipIdx done.length).map fun (l, slot) => ⟨n, slot, l⟩).foldlM a.patch code = do
      let targets ← labels.mapM a.target
      return code.setIfInBounds n (.branch scrutinee payload (done ++ targets).toArray) := by
  induction labels generalizing code done with
  | nil => exact congrArg Except.ok (setIfInBounds_eq_self h).symm
  | cons l labels ih =>
    obtain ⟨hlt, -⟩ := Array.getElem?_eq_some_iff.mp h
    rw [List.zipIdx_cons, List.map_cons, List.foldlM_cons, List.mapM_cons]
    cases ht : a.target l with
    | error e =>
      rw [patch_of_error ht]
      rfl
    | ok t =>
      have hrest := ih (done ++ [t]) (Array.getElem?_setIfInBounds_self_of_lt hlt)
      rw [List.length_append, List.length_singleton] at hrest
      rw [patch_of_ok ht h (setTarget?_branch ..)]
      refine hrest.trans ?_
      cases labels.mapM a.target with
      | error e => rfl
      | ok targets =>
        refine congrArg Except.ok ?_
        rw [Array.setIfInBounds_setIfInBounds, List.append_assoc, List.singleton_append]

/-- A line that was drafted is finished by its own patches. -/
theorem patch_line {line : Line} (h : code[n]? = some line.draft) :
    (line.fixups n).foldlM a.patch code = do
      let i ← a.resolve line
      return code.setIfInBounds n i := by
  cases line with
  | instr i => exact congrArg Except.ok (setIfInBounds_eq_self h).symm
  | jump l =>
    show ([⟨n, 0, l⟩] : List Fixup).foldlM a.patch code = _
    rw [List.foldlM_cons, resolve]
    cases ht : a.target l with
    | error e =>
      rw [patch_of_error ht]
      rfl
    | ok t =>
      rw [patch_of_ok ht h rfl]
      rfl
  | branch scrutinee payload labels =>
    rw [Line.draft, ← List.toArray_replicate] at h
    refine (patch_branch scrutinee payload labels [] h).trans ?_
    rw [resolve]
    cases labels.mapM a.target with
    | error e => rfl
    | ok targets => rfl

/-- The lines are finished one after another: those before are done, those behind stand as
they were drafted. -/
theorem patch_lines (done : List Instr) (lines : List Line) :
    ((lines.zipIdx done.length).flatMap fun (line, place) => line.fixups place).foldlM a.patch
        (done ++ lines.map Line.draft).toArray = do
      let rest ← lines.mapM a.resolve
      return (done ++ rest).toArray := by
  induction lines generalizing done with
  | nil => rfl
  | cons line lines ih =>
    have hline : (done ++ (line :: lines).map Line.draft).toArray[done.length]? =
        some line.draft := by
      simp
    rw [List.zipIdx_cons, List.flatMap_cons, List.foldlM_append, patch_line hline, List.mapM_cons]
    cases a.resolve line with
    | error e => rfl
    | ok i =>
      have hset : (done ++ (line :: lines).map Line.draft).toArray.setIfInBounds done.length i =
          ((done ++ [i]) ++ lines.map Line.draft).toArray := by
        simp
      have hrest := ih (done ++ [i])
      rw [List.length_append, List.length_singleton] at hrest
      show List.foldlM a.patch (Array.setIfInBounds _ _ i) _ = _
      rw [hset]
      refine hrest.trans ?_
      cases lines.mapM a.resolve with
      | error e => rfl
      | ok rest => exact congrArg Except.ok (congrArg List.toArray (List.append_assoc done [i] rest))

/-! ### What an assembler holds of its lines -/

/-- The lines stand in the code as they were drafted, and their labels in the table of fixups
in the same order. -/
structure Holds (a : Assembler) (lines : List Line) : Prop where
  code : a.code.toList = lines.map Line.draft
  fixups : a.fixups.toList = lines.zipIdx.flatMap fun (line, place) => line.fixups place

/-- **Patching gives every line what it stands for.** -/
theorem Holds.finish_eq {lines : List Line} (h : a.Holds lines) :
    a.finish = do return (← lines.mapM a.resolve).toArray := by
  have hcode : a.code = (lines.map Line.draft).toArray := Array.toList_inj.mp h.code
  rw [finish, ← Array.foldlM_toList, h.fixups, hcode]
  exact patch_lines [] lines

theorem holds_empty : empty.Holds [] := ⟨rfl, rfl⟩

theorem Holds.size {lines : List Line} (h : a.Holds lines) : a.code.size = lines.length := by
  rw [← Array.length_toList, h.code, List.length_map]

/-- Another line is added with its draft and its fixups. -/
theorem Holds.snoc {lines : List Line} (h : a.Holds lines) (line : Line) {b : Assembler}
    (hcode : b.code = a.code.push line.draft)
    (hfixups : b.fixups.toList = a.fixups.toList ++ line.fixups a.code.size) :
    b.Holds (lines ++ [line]) where
  code := by rw [hcode, Array.toList_push, h.code, List.map_append, List.map_singleton]
  fixups := by
    rw [hfixups, h.fixups, List.zipIdx_append, List.flatMap_append, h.size]
    simp

theorem Holds.emit {lines : List Line} (h : a.Holds lines) (i : Instr) :
    (a.emit i).Holds (lines ++ [.instr i]) :=
  h.snoc (.instr i) rfl (List.append_nil _).symm

theorem Holds.jump {lines : List Line} (h : a.Holds lines) (l : Label) :
    (a.jump l).Holds (lines ++ [.jump l]) := by
  refine h.snoc (.jump l) rfl ?_
  simp [Assembler.jump, Assembler.emit, fixup, Line.fixups, Line.labels]

/-- Fixups of the last instruction are kept in their order, and nothing else is changed. -/
theorem foldl_fixup (a : Assembler) (slots : List (Label × Nat)) :
    slots.foldl (fun a (l, slot) => a.fixup slot l) a = { a with
      fixups := a.fixups ++ (slots.map fun (l, slot) => ⟨a.code.size - 1, slot, l⟩).toArray } := by
  induction slots generalizing a with
  | nil => simp
  | cons s slots ih =>
    rw [List.foldl_cons, ih]
    simp [fixup]

theorem branch_eq (a : Assembler) (scrutinee payload : Reg) (labels : List Label) :
    a.branch scrutinee payload labels =
      ⟨a.code.push (Line.branch scrutinee payload labels).draft, a.labels,
        a.fixups ++ ((Line.branch scrutinee payload labels).fixups a.code.size).toArray⟩ := by
  rw [Assembler.branch, foldl_fixup]
  simp [Assembler.emit, Line.draft, Line.fixups, Line.labels]

theorem Holds.branch {lines : List Line} (h : a.Holds lines) (scrutinee payload : Reg)
    (labels : List Label) :
    (a.branch scrutinee payload labels).Holds (lines ++ [.branch scrutinee payload labels]) := by
  rw [branch_eq]
  exact h.snoc (.branch scrutinee payload labels) rfl (by simp)

end Assembler

end ValueMachine
