import Mathlib.Data.List.Forall2
import Mathlib.Data.List.Induction
import ValueMachine.Proofs.Code.Fixups

/-! Labels stand for the places at which they were last placed.

A program is written by a sequence of commands. A label is made before it can be placed, and
may be placed again and be branched to before and behind its places. Which place counts is
told by the commands alone (`LastPlaced`): that of the last command that places the label, if
the label had been made by then. An assembler that has been given the commands holds exactly
these places (`target_write`) and the lines that the commands add (`holds_write`), so it can be
finished if every label that is branched to was placed, and then every line is the instruction
that the places make of it (`labels_resolve`). -/
namespace ValueMachine

/-- The instruction that stands for the line where labels stand for places. -/
inductive Line.Becomes (target : Label → UInt32 → Prop) : Line → Instr → Prop
  | instr (i : Instr) : Becomes target (.instr i) i
  | jump {l : Label} {t : UInt32} (h : target l t) : Becomes target (.jump l) (.jmp t)
  | branch (scrutinee payload : Reg) {labels : List Label} {targets : Array UInt32}
    (h : List.Forall₂ target labels targets.toList) :
    Becomes target (.branch scrutinee payload labels) (.branch scrutinee payload targets)

namespace Assembler

/-! ### Commands -/

/-- What an assembler can be told to do. -/
inductive Command
  | label
  | place (label : Label)
  /-- Any instruction as it stands. -/
  | emit (i : Instr)
  | jump (label : Label)
  | branch (scrutinee payload : Reg) (labels : List Label)
deriving DecidableEq

namespace Command

/-- The assembler that a command leaves; a command that fails leaves it as it was. -/
def apply (a : Assembler) : Command → Assembler
  | label => a.addLabel
  | place l =>
    match a.place l with
    | .ok placed => placed
    | .error _ => a
  | emit i => a.emit i
  | jump l => a.jump l
  | branch scrutinee payload labels => a.branch scrutinee payload labels

/-- The line that the command adds. -/
def line? : Command → Option Line
  | emit i => some (.instr i)
  | jump l => some (.jump l)
  | branch scrutinee payload labels => some (.branch scrutinee payload labels)
  | label | place _ => none

end Command

/-- The assembler that has been given the commands, and nothing before. -/
def write (cs : List Command) : Assembler := cs.foldl Command.apply empty

/-- The number of labels that the commands make. -/
def made (cs : List Command) : Nat := cs.count .label

/-- The label is placed by some command, and had been made by then. -/
def Placed (cs : List Command) (l : Label) : Prop :=
  ∃ before after, cs = before ++ .place l :: after ∧ l.number.toNat < made before

/-- The last command that places the label places it there, at the line that was the next. -/
def LastPlaced (cs : List Command) (l : Label) (t : UInt32) : Prop :=
  ∃ before after, cs = before ++ .place l :: after ∧ l.number.toNat < made before ∧
    .place l ∉ after ∧ t = (write before).next

variable {cs : List Command} {c : Command} {a : Assembler} {l : Label} {t : UInt32}

/-! ### One more command -/

theorem write_snoc (cs : List Command) (c : Command) : write (cs ++ [c]) = c.apply (write cs) := by
  simp [write]

theorem made_snoc (cs : List Command) (c : Command) :
    made (cs ++ [c]) = made cs + if c = .label then 1 else 0 := by
  rw [made, List.count_append, List.count_singleton, made]
  simp only [beq_iff_eq]

/-- A command in a sequence is the last one or stands before it. -/
theorem snoc_eq_iff {before after : List Command} {d : Command} :
    cs ++ [c] = before ++ d :: after ↔
      (after = [] ∧ cs = before ∧ c = d) ∨
        ∃ rest, after = rest ++ [c] ∧ cs = before ++ d :: rest := by
  constructor
  · intro h
    rcases List.eq_nil_or_concat after with rfl | ⟨rest, last, rfl⟩
    · obtain ⟨hcs, hc⟩ := List.append_inj' h rfl
      exact .inl ⟨rfl, hcs, List.singleton_inj.mp hc⟩
    · rw [List.concat_eq_append, ← List.cons_append, ← List.append_assoc] at h
      obtain ⟨hcs, hc⟩ := List.append_inj' h rfl
      obtain rfl := List.singleton_inj.mp hc
      exact .inr ⟨rest, List.concat_eq_append, hcs⟩
  · rintro (⟨rfl, rfl, rfl⟩ | ⟨rest, rfl, rfl⟩)
    · rfl
    · simp

theorem placed_snoc :
    Placed (cs ++ [c]) l ↔ Placed cs l ∨ c = .place l ∧ l.number.toNat < made cs := by
  constructor
  · rintro ⟨before, after, h, hl⟩
    rcases snoc_eq_iff.mp h with ⟨-, rfl, hc⟩ | ⟨rest, -, hcs⟩
    · exact .inr ⟨hc, hl⟩
    · exact .inl ⟨before, rest, hcs, hl⟩
  · rintro (⟨before, rest, hcs, hl⟩ | ⟨hc, hl⟩)
    · exact ⟨before, rest ++ [c], snoc_eq_iff.mpr (.inr ⟨rest, rfl, hcs⟩), hl⟩
    · exact ⟨cs, [], snoc_eq_iff.mpr (.inl ⟨rfl, rfl, hc⟩), hl⟩

/-- A command that places the label takes the place of all before it. -/
theorem lastPlaced_snoc_place :
    LastPlaced (cs ++ [.place l]) l t ↔ l.number.toNat < made cs ∧ t = (write cs).next := by
  constructor
  · rintro ⟨before, after, h, hl, hafter, ht⟩
    rcases snoc_eq_iff.mp h with ⟨-, rfl, -⟩ | ⟨rest, rfl, -⟩
    · exact ⟨hl, ht⟩
    · exact absurd (List.mem_append_right rest List.mem_cons_self) hafter
  · rintro ⟨hl, ht⟩
    exact ⟨cs, [], rfl, hl, List.not_mem_nil, ht⟩

theorem lastPlaced_snoc_of_ne (hc : c ≠ .place l) :
    LastPlaced (cs ++ [c]) l t ↔ LastPlaced cs l t := by
  constructor
  · rintro ⟨before, after, h, hl, hafter, ht⟩
    rcases snoc_eq_iff.mp h with ⟨-, -, he⟩ | ⟨rest, rfl, hcs⟩
    · exact absurd he hc
    · exact ⟨before, rest, hcs, hl, fun hm => hafter (List.mem_append_left _ hm), ht⟩
  · rintro ⟨before, rest, hcs, hl, hrest, ht⟩
    refine ⟨before, rest ++ [c], snoc_eq_iff.mpr (.inr ⟨rest, rfl, hcs⟩), hl, fun hm => ?_, ht⟩
    rcases List.mem_append.mp hm with hm | hm
    · exact hrest hm
    · exact hc (List.mem_singleton.mp hm).symm

/-- A label that was placed was placed for the last time. -/
theorem placed_iff : Placed cs l ↔ ∃ t, LastPlaced cs l t := by
  constructor
  · intro h
    induction cs using List.reverseRecOn with
    | nil =>
      obtain ⟨before, after, h, -⟩ := h
      simp at h
    | append_singleton cs c ih =>
      by_cases hc : c = .place l
      · subst hc
        refine ⟨_, lastPlaced_snoc_place.mpr ⟨?_, rfl⟩⟩
        rcases placed_snoc.mp h with ⟨before, after, rfl, hl⟩ | ⟨-, hl⟩
        · refine Nat.lt_of_lt_of_le hl ?_
          simp [made]
        · exact hl
      · have hcs := (placed_snoc.mp h).resolve_right fun he => hc he.1
        exact (ih hcs).imp fun t ht => (lastPlaced_snoc_of_ne hc).mpr ht
  · rintro ⟨t, before, after, h, hl, -⟩
    exact ⟨before, after, h, hl⟩

/-! ### What an assembler holds -/

theorem place_of_made (h : l.number.toNat < a.labels.size) : a.place l =
    .ok { a with labels := a.labels.setIfInBounds l.number.toNat (some a.next) } := if_pos h

theorem place_of_unmade (h : ¬l.number.toNat < a.labels.size) : a.place l = .error ⟨⟩ := if_neg h

theorem target_eq_ok_iff : a.target l = .ok t ↔ a.labels[l.number.toNat]? = some (some t) := by
  unfold target
  split <;> simp_all

theorem size_labels_apply (a : Assembler) (c : Command) :
    (c.apply a).labels.size = a.labels.size + if c = .label then 1 else 0 := by
  cases c with
  | label => exact Array.size_push _
  | place l =>
    by_cases h : l.number.toNat < a.labels.size
    · simp [Command.apply, place_of_made h]
    · simp [Command.apply, place_of_unmade h]
  | branch scrutinee payload labels => exact congrArg (·.labels.size) (branch_eq ..)
  | _ => rfl

theorem holds_apply {lines : List Line} (h : a.Holds lines) (c : Command) :
    (c.apply a).Holds (lines ++ c.line?.toList) := by
  cases c with
  | label => exact (List.append_nil lines).symm ▸ ⟨h.code, h.fixups⟩
  | place l =>
    have hsame : lines ++ (Command.place l).line?.toList = lines := List.append_nil lines
    rw [hsame]
    by_cases hl : l.number.toNat < a.labels.size
    · rw [Command.apply, place_of_made hl]
      exact ⟨h.code, h.fixups⟩
    · rw [Command.apply, place_of_unmade hl]
      exact h
  | emit i => exact h.emit i
  | jump l => exact h.jump l
  | branch scrutinee payload labels => exact h.branch scrutinee payload labels

/-- Only a command that places the label changes what it stands for. -/
theorem target_apply (a : Assembler) (c : Command) (l : Label) : (c.apply a).target l =
    if c = .place l ∧ l.number.toNat < a.labels.size then .ok a.next else a.target l := by
  cases c with
  | label =>
    rw [if_neg fun h => by cases h.1]
    unfold target
    simp only [Command.apply, addLabel, Array.getElem?_push]
    -- The label that is new stands for nothing, as it did before it was made.
    by_cases h : l.number.toNat = a.labels.size
    · rw [if_pos h, h, Array.getElem?_eq_none (Nat.le_refl _)]
    · rw [if_neg h]
  | place m =>
    by_cases hm : m.number.toNat < a.labels.size
    · simp only [Command.apply, place_of_made hm]
      unfold target
      dsimp only
      rw [Array.getElem?_setIfInBounds]
      by_cases hl : m = l
      · subst hl
        rw [if_pos rfl, if_pos hm, if_pos ⟨rfl, hm⟩]
      · have hne : m.number.toNat ≠ l.number.toNat := fun h =>
          hl (congrArg Label.mk (UInt32.toNat_inj.mp h))
        rw [if_neg hne, if_neg fun h => hl (Command.place.inj h.1)]
    · simp only [Command.apply, place_of_unmade hm]
      rw [if_neg]
      rintro ⟨h, hl⟩
      exact hm (Command.place.inj h ▸ hl)
  | branch scrutinee payload labels =>
    rw [if_neg (fun h => by cases h.1), Command.apply, branch_eq]
    rfl
  | _ => exact (if_neg fun h => by cases h.1).symm

theorem size_labels_write (cs : List Command) : (write cs).labels.size = made cs := by
  induction cs using List.reverseRecOn with
  | nil => rfl
  | append_singleton cs c ih => rw [write_snoc, made_snoc, size_labels_apply, ih]

/-- The lines that the commands add are held. -/
theorem holds_write (cs : List Command) : (write cs).Holds (cs.filterMap Command.line?) := by
  induction cs using List.reverseRecOn with
  | nil => exact holds_empty
  | append_singleton cs c ih =>
    rw [write_snoc, List.filterMap_append]
    have hline : [c].filterMap Command.line? = c.line?.toList := by
      cases h : c.line? <;> simp [h]
    exact hline ▸ holds_apply ih c

/-- A label stands for the place at which it was last placed. -/
theorem target_write : (write cs).target l = .ok t ↔ LastPlaced cs l t := by
  induction cs using List.reverseRecOn with
  | nil =>
    refine iff_of_false (fun h => by cases h) ?_
    rintro ⟨before, after, h, -⟩
    simp at h
  | append_singleton cs c ih =>
    rw [write_snoc, target_apply, size_labels_write]
    by_cases hc : c = .place l
    · subst hc
      rw [lastPlaced_snoc_place]
      by_cases hl : l.number.toNat < made cs
      · rw [if_pos ⟨rfl, hl⟩, Except.ok.injEq, and_iff_right hl, eq_comm]
      · -- A label that is not made is nowhere, and cannot be placed.
        rw [if_neg fun h => hl h.2, target_eq_ok_iff,
          Array.getElem?_eq_none (by rw [size_labels_write]; exact Nat.le_of_not_lt hl)]
        exact iff_of_false (fun h => by cases h) fun h => hl h.1
    · rw [if_neg fun h => hc h.1, lastPlaced_snoc_of_ne hc]
      exact ih

/-! ### Finished code -/

theorem resolve_eq_ok_iff {line : Line} {i : Instr} :
    a.resolve line = .ok i ↔ line.Becomes (fun l t => a.target l = .ok t) i := by
  cases line with
  | instr j =>
    constructor
    · rintro ⟨⟩
      exact .instr i
    · rintro ⟨⟩
      rfl
  | jump l =>
    rw [resolve, bind_eq_ok_iff]
    constructor
    · rintro ⟨t, ht, ⟨⟩⟩
      exact .jump ht
    · rintro ⟨⟩
      exact ⟨_, ‹_›, rfl⟩
  | branch scrutinee payload labels =>
    rw [resolve, bind_eq_ok_iff]
    constructor
    · rintro ⟨ts, hts, ⟨⟩⟩
      exact .branch _ _ (mapM_eq_ok_iff.mp hts)
    · rintro ⟨⟩
      exact ⟨_, mapM_eq_ok_iff.mpr ‹_›, rfl⟩

/-- A line can be resolved if all its labels can. -/
theorem exists_resolve_iff {line : Line} :
    (∃ i, a.resolve line = .ok i) ↔ ∀ l ∈ line.labels, ∃ t, a.target l = .ok t := by
  cases line with
  | instr i => exact iff_of_true ⟨i, rfl⟩ fun l hl => absurd hl List.not_mem_nil
  | jump l =>
    simp only [resolve, bind_eq_ok_iff, Line.labels, List.forall_mem_singleton]
    constructor
    · rintro ⟨_, t, ht, -⟩
      exact ⟨t, ht⟩
    · rintro ⟨t, ht⟩
      exact ⟨_, t, ht, rfl⟩
  | branch scrutinee payload labels =>
    simp only [resolve, bind_eq_ok_iff, Line.labels, ← exists_mapM_eq_ok_iff]
    constructor
    · rintro ⟨_, ts, hts, -⟩
      exact ⟨ts, hts⟩
    · rintro ⟨ts, hts⟩
      exact ⟨_, ts, hts, rfl⟩

theorem Holds.finish_eq_ok_iff {lines : List Line} (h : a.Holds lines) {code : Array Instr} :
    a.finish = .ok code ↔ lines.mapM a.resolve = .ok code.toList := by
  rw [h.finish_eq, bind_eq_ok_iff]
  constructor
  · rintro ⟨found, hfound, ⟨⟩⟩
    exact hfound
  · intro hfound
    exact ⟨_, hfound, rfl⟩

/-- **Labels resolve to where they were last placed**, whatever is done with an assembler. Labels
are numbered as they are made. A label can be placed if it has been made, and nothing happens if
it has not. The program can be finished if every label that it branches to was placed, at
whatever time. Then it has the lines in order, each with the last place of every label and
otherwise as it was added. -/
theorem labels_resolve (cs : List Command) :
    (write cs).nextLabel = ⟨(made cs).toUInt32⟩ ∧
    (∀ l, ((write cs).place l = .error ⟨⟩ ↔ made cs ≤ l.number.toNat) ∧
      (made cs ≤ l.number.toNat → write (cs ++ [.place l]) = write cs)) ∧
    ((∃ code, (write cs).finish = .ok code) ↔
      ∀ line ∈ cs.filterMap Command.line?, ∀ l ∈ line.labels, Placed cs l) ∧
    ∀ code, (write cs).finish = .ok code →
      List.Forall₂ (Line.Becomes (LastPlaced cs)) (cs.filterMap Command.line?) code.toList := by
  refine ⟨?_, fun l => ?_, ?_, fun code h => ?_⟩
  · rw [nextLabel, size_labels_write]
  · rw [← size_labels_write]
    by_cases hl : l.number.toNat < (write cs).labels.size
    · rw [place_of_made hl]
      exact ⟨iff_of_false (fun h => by cases h) (Nat.not_le_of_lt hl),
        fun h => absurd hl (Nat.not_lt_of_le h)⟩
    · rw [write_snoc, Command.apply, place_of_unmade hl]
      exact ⟨iff_of_true rfl (Nat.le_of_not_lt hl), fun _ => rfl⟩
  · have hplaced (l : Label) : Placed cs l ↔ ∃ t, (write cs).target l = .ok t := by
      simp only [placed_iff, target_write]
    simp only [hplaced, ← exists_resolve_iff]
    rw [← exists_mapM_eq_ok_iff]
    simp only [(holds_write cs).finish_eq_ok_iff]
    constructor
    · rintro ⟨code, h⟩
      exact ⟨_, h⟩
    · rintro ⟨code, h⟩
      exact ⟨code.toArray, h⟩
  · rw [(holds_write cs).finish_eq_ok_iff, mapM_eq_ok_iff] at h
    simpa only [resolve_eq_ok_iff, target_write] using h

/-- The first label is placed twice, and branched to before, between and behind its places.
The second one is placed when all branches to it are written, the third one is not made. -/
def loop : List Command :=
  [.label, .label, .jump ⟨0⟩, .place ⟨0⟩, .emit .nop, .jump ⟨1⟩, .place ⟨0⟩, .place ⟨2⟩,
    .branch 0 1 [⟨0⟩, ⟨1⟩], .place ⟨1⟩, .emit (.ret 1)]

theorem labels_resolve_loop :
    (write loop).place ⟨2⟩ = .error ⟨⟩ ∧ write (loop ++ [.place ⟨2⟩]) = write loop ∧
    (write loop).finish = .ok #[.jmp 3, .nop, .jmp 4, .branch 0 1 #[3, 4], .ret 1] ∧
    List.Forall₂ (Line.Becomes (LastPlaced loop)) (loop.filterMap Command.line?)
      [.jmp 3, .nop, .jmp 4, .branch 0 1 #[3, 4], .ret 1] := by
  obtain ⟨-, hplace, -, hcode⟩ := labels_resolve loop
  have hmade : made loop ≤ 2 := by decide
  have hfinish : (write loop).finish =
      .ok #[.jmp 3, .nop, .jmp 4, .branch 0 1 #[3, 4], .ret 1] := rfl
  exact ⟨(hplace ⟨2⟩).1.mpr hmade, (hplace ⟨2⟩).2 hmade, hfinish, hcode _ hfinish⟩

end Assembler

end ValueMachine
