import ValueMachine.Proofs.Code.Rendering
import ValueMachine.Proofs.Eval.Chunks
import ValueMachine.Proofs.Operation

/-! A listing determines its function.

A listing is a text of lines: one with the signature, one for each instruction, and one for
each block in front of the line of its first instruction. No part of a line holds a line break,
not even a note on a constant, whatever the text that it names; so the lines can be told apart
(`Store.codeLines_inj`). They show where the blocks start, and a branch target by the number of
its block; this says where it goes, as a block starts at every target of verified code
(`Store.code_eq_of_lines`). -/
namespace ValueMachine

/-! ### Blocks -/

/-- A block has the number at which its start stands among the starts. -/
theorem BlockNumbers.ofStarts_eq_some_iff {starts : List Nat} (h : starts.Nodup) {place k : Nat} :
    (ofStarts starts)[place]? = some k ↔ starts[k]? = some place := by
  have hfirst : starts.zipIdx.map Prod.fst = starts := List.zipIdx_map_fst 0 starts
  have hdistinct : starts.zipIdx.Pairwise fun a b => (a.1 == b.1) = false := by
    have hpair := h
    rw [← hfirst, List.Nodup, List.pairwise_map] at hpair
    exact hpair.imp fun hne => beq_false_of_ne hne
  have hfound {place k : Nat} (hk : starts[k]? = some place) :
      (ofStarts starts)[place]? = some k :=
    Std.HashMap.getElem?_ofList_of_mem (beq_self_eq_true place) hdistinct
      (List.mem_zipIdx_iff_getElem?.mpr hk)
  refine ⟨fun hk => ?_, hfound⟩
  by_cases hmem : place ∈ starts
  · obtain ⟨n, hn⟩ := List.mem_iff_getElem?.mp hmem
    cases hk.symm.trans (hfound hn)
    exact hn
  · have hnone : (ofStarts starts)[place]? = none :=
      Std.HashMap.getElem?_ofList_of_contains_eq_false (by rw [hfirst]; simpa using hmem)
    cases hk.symm.trans hnone

namespace Body

variable {code : Array Instr}

theorem nodup_blockStarts (code : Array Instr) : (blockStarts code).Nodup :=
  List.nodup_range.filter _

variable {b : Body} {shapes : ShapeTable} {values : Nat}

/-- The blocks of a body. -/
def blocks (b : Body) : BlockNumbers := .ofStarts (blockStarts b.code)

theorem blocks_eq_some_iff {place k : Nat} :
    b.blocks[place]? = some k ↔ (blockStarts b.code)[k]? = some place :=
  BlockNumbers.ofStarts_eq_some_iff (nodup_blockStarts b.code)

theorem lt_of_blocks {place k : Nat} (h : b.blocks[place]? = some k) : place < b.code.size :=
  List.mem_range.mp (List.mem_of_mem_filter (List.mem_of_getElem? (blocks_eq_some_iff.mp h)))

/-- A block starts at every target of verified code. -/
theorem Verified.labelled (h : b.Verified shapes values) :
    ∀ i ∈ b.code.toList, i.Labelled b.blocks := by
  intro i hi target ht
  have hi := Array.mem_toList_iff.mp hi
  obtain ⟨place, hplace⟩ := Array.mem_iff_getElem?.mp hi
  obtain ⟨-, -, htargets, -⟩ := h.instrs place i hplace
  obtain ⟨k, hk⟩ := List.mem_iff_getElem?.mp (target_mem_blockStarts hi ht (htargets target ht))
  exact ⟨k, blocks_eq_some_iff.mpr hk⟩

end Body

/-! ### Notes -/

namespace Store

variable {s : Store}

theorem brief_unbroken (s : Store) (a : Addr) : Unbroken (s.brief a).toList := by
  unfold brief
  cases s.value? a with
  | none => decide
  | some v =>
    cases v with
    | flex x => exact .append_text (by decide) x.render_unbroken
    | char c => exact Quoted.char_unbroken c
    | text t => exact Quoted.text_unbroken t
    | tuple items =>
      dsimp only
      split
      · decide
      · simp [Unbroken, Value.kind, Kind.label]
    | function f captures =>
      dsimp only
      split <;> simp [Unbroken, FuncId.label]
    | _ => simp [Unbroken, ShapeId.label, Addr.label, Value.kind, Kind.label]

theorem brief_ne_outOfRange {a : Addr} {v : Value} (h : s.value? a = some v) :
    s.brief a ≠ "<out of range>" := by
  intro heq
  have hhead : (s.brief a).toList.head? = some '<' := by rw [heq]; rfl
  unfold brief at hhead
  rw [h] at hhead
  cases v with
  | char c => simp [Quoted.char] at hhead
  | text t => simp [Quoted.text] at hhead
  | tuple items =>
    dsimp only at hhead
    split at hhead <;> simp [Value.kind, Kind.label] at hhead
  | function f captures =>
    dsimp only at hhead
    split at hhead <;> simp [FuncId.label] at hhead
  | _ => simp [ShapeId.label, Value.kind, Kind.label] at hhead

/-- What is added to the line of an instruction. -/
def note (s : Store) : Instr → String
  | .const _ a => " ; " ++ s.brief a
  | _ => ""

theorem note_unbroken (s : Store) (i : Instr) : Unbroken (s.note i).toList := by
  cases i with
  | const dst a => exact .append_text (by decide) (s.brief_unbroken a)
  | _ => exact .nil

theorem outside_note (s : Store) (i : Instr) : Outside Opcode.isMnemonicChar (s.note i).toList := by
  cases i with
  | const dst a =>
    rw [note, String.toList_append]
    exact .cons rfl
  | _ => exact .nil

end Store

/-! ### Lines -/

theorem sixDigits_isDigit (n : Nat) : ∀ c ∈ (sixDigits n).toList, c.isDigit = true := by
  intro c hc
  rw [sixDigits, String.toList_append, String.toList_ofList] at hc
  rcases List.mem_append.mp hc with hc | hc
  · rw [List.eq_of_mem_replicate hc]
    rfl
  · exact isDigit_of_mem_number hc

/-- The line of a place does not look like that of a block. -/
theorem sixDigits_start (n : Nat) : ∃ c rest, (sixDigits n).toList = c :: rest ∧ c ≠ '@' := by
  cases hdigits : (sixDigits n).toList with
  | nil =>
    rw [sixDigits, String.toList_append, List.append_eq_nil_iff, Nat.toString_eq_repr,
      Nat.toList_repr] at hdigits
    exact absurd hdigits.2 Nat.toDigits_ne_nil
  | cons c rest =>
    refine ⟨c, rest, rfl, ?_⟩
    rintro rfl
    exact absurd (sixDigits_isDigit n '@' (by rw [hdigits]; exact List.mem_cons_self)) (by decide)

/-- The line in front of the first instruction of a block. -/
def blockLine (k : Nat) : String := "  @L" ++ toString k ++ ":"

theorem blockLine_inj {k k' : Nat} (h : blockLine k = blockLine k') : k = k' := by
  have hline := congrArg String.toList h
  simp only [blockLine, String.toList_append, List.append_assoc,
    List.append_cancel_left_eq] at hline
  exact (number_cut (.cons rfl) (.cons rfl) hline).1

namespace Store

variable {s s' : Store} {blocks blocks' : BlockNumbers} {place : Nat} {i j : Instr}
  {code code' : List Instr}

def instrLine (s : Store) (blocks : BlockNumbers) (place : Nat) (i : Instr) : String :=
  "  " ++ sixDigits place ++ ": " ++ i.renderWith blocks ++ s.note i

theorem instrLine_ne (s : Store) (blocks : BlockNumbers) (place : Nat) (i : Instr) (k : Nat) :
    s.instrLine blocks place i ≠ blockLine k := by
  intro h
  obtain ⟨c, rest, hdigits, hc⟩ := sixDigits_start place
  have hline := congrArg String.toList h
  simp [instrLine, blockLine, hdigits] at hline
  exact hc hline.1

theorem instrLine_inj (hi : i.Labelled blocks) (hj : j.Labelled blocks')
    (h : s.instrLine blocks place i = s'.instrLine blocks' place j) :
    Instr.LookAlike blocks blocks' i j := by
  have hline := congrArg String.toList h
  simp only [instrLine, String.toList_append, List.append_assoc,
    List.append_cancel_left_eq] at hline
  exact (Instr.renderWith_cut hi hj (s.outside_note i) (s'.outside_note j) hline).1

/-- The lines of code that stands at a place, those of blocks included. -/
def codeLines (s : Store) (blocks : BlockNumbers) (code : List Instr) (place : Nat) :
    List String :=
  (code.zipIdx place).flatMap fun (i, place) =>
    (blocks[place]?).toList.map blockLine ++ [s.instrLine blocks place i]

theorem codeLines_cons (s : Store) (blocks : BlockNumbers) (i : Instr) (code : List Instr)
    (place : Nat) : s.codeLines blocks (i :: code) place =
      (blocks[place]?).toList.map blockLine ++
        s.instrLine blocks place i :: s.codeLines blocks code (place + 1) := by
  simp [codeLines, List.zipIdx_cons]

theorem listingLine_eq (s : Store) (blocks : BlockNumbers) (place : Nat) (i : Instr) :
    s.listingLine blocks place i =
      unlines ((blocks[place]?).toList.map blockLine ++ [s.instrLine blocks place i]) := by
  apply String.toList_inj.mp
  unfold listingLine
  cases blocks[place]? <;> cases i <;> simp [unlines, blockLine, instrLine, note]

theorem join_listingLine (s : Store) (blocks : BlockNumbers) (code : List Instr) (place : Nat) :
    String.join ((code.zipIdx place).map fun (i, place) => s.listingLine blocks place i) =
      unlines (s.codeLines blocks code place) := by
  induction code generalizing place with
  | nil => rfl
  | cons i code ih =>
    rw [codeLines_cons, List.append_cons, unlines_append, ← ih, ← listingLine_eq,
      List.zipIdx_cons, List.map_cons, String.join_cons]

theorem lines_cut {lines lines' : List String}
    (h : (blocks[place]?).toList.map blockLine ++ s.instrLine blocks place i :: lines =
      (blocks'[place]?).toList.map blockLine ++ s'.instrLine blocks' place j :: lines') :
    blocks[place]? = blocks'[place]? ∧
      s.instrLine blocks place i = s'.instrLine blocks' place j ∧ lines = lines' := by
  cases hb : blocks[place]? with
  | none =>
    cases hb' : blocks'[place]? with
    | none =>
      rw [hb, hb'] at h
      exact ⟨rfl, List.cons_eq_cons.mp h⟩
    | some k' =>
      rw [hb, hb'] at h
      exact absurd (List.cons_eq_cons.mp h).1 (instrLine_ne _ _ _ _ _)
  | some k =>
    cases hb' : blocks'[place]? with
    | none =>
      rw [hb, hb'] at h
      exact absurd (List.cons_eq_cons.mp h).1.symm (instrLine_ne _ _ _ _ _)
    | some k' =>
      rw [hb, hb'] at h
      obtain ⟨hblock, hmore⟩ := List.cons_eq_cons.mp h
      exact ⟨congrArg some (blockLine_inj hblock), List.cons_eq_cons.mp hmore⟩

/-- Code that is listed in the same lines looks alike, and its blocks start at the same
places. -/
theorem codeLines_inj (hcode : ∀ i ∈ code, i.Labelled blocks)
    (hcode' : ∀ j ∈ code', j.Labelled blocks')
    (h : s.codeLines blocks code place = s'.codeLines blocks' code' place) :
    List.Forall₂ (Instr.LookAlike blocks blocks') code code' ∧
      ∀ n < code.length, blocks[place + n]? = blocks'[place + n]? := by
  induction code generalizing code' place with
  | nil =>
    cases code' with
    | nil => exact ⟨.nil, nofun⟩
    | cons j code' => rw [codeLines_cons] at h; simp [codeLines] at h
  | cons i code ih =>
    cases code' with
    | nil => rw [codeLines_cons] at h; simp [codeLines] at h
    | cons j code' =>
      rw [codeLines_cons, codeLines_cons] at h
      obtain ⟨hi, hcode⟩ := List.forall_mem_cons.mp hcode
      obtain ⟨hj, hcode'⟩ := List.forall_mem_cons.mp hcode'
      obtain ⟨hblock, hline, hlines⟩ := lines_cut h
      obtain ⟨hall, hblocks⟩ := ih hcode hcode' hlines
      refine ⟨.cons (instrLine_inj hi hj hline) hall, fun n hn => ?_⟩
      cases n with
      | zero => exact hblock
      | succ n =>
        have hmore := hblocks n (Nat.lt_of_succ_lt_succ hn)
        rwa [Nat.add_assoc, Nat.add_comm 1 n] at hmore

/-- Verified code is determined by the lines in which it is listed. -/
theorem code_eq_of_lines {b b' : Body} {shapes shapes' : ShapeTable} {values values' : Nat}
    (hb : b.Verified shapes values) (hb' : b'.Verified shapes' values')
    (h : s.codeLines b.blocks b.code.toList 0 = s'.codeLines b'.blocks b'.code.toList 0) :
    b.code = b'.code := by
  obtain ⟨hall, hblocks⟩ := codeLines_inj hb.labelled hb'.labelled h
  have hsize : b.code.size = b'.code.size := by simpa using hall.length_eq
  refine Array.toList_inj.mp (eq_of_forall₂ hall fun i hi j hj hsame => hsame.eq ?_)
  intro target ht target' ht' heq
  obtain ⟨k, hk⟩ := hb.labelled i hi target ht
  obtain ⟨k', hk'⟩ := hb'.labelled j hj target' ht'
  -- The block of the other target has the same number on this side, where it has one start.
  have hother : b.blocks[target'.toNat]? = some k' := by
    have hlt : target'.toNat < b.code.toList.length := by
      rw [Array.length_toList, hsize]
      exact Body.lt_of_blocks hk'
    have hsame := hblocks target'.toNat hlt
    rwa [Nat.zero_add, hk'] at hsame
  rw [hk, hk', Option.getD_some, Option.getD_some] at heq
  subst heq
  have hstart := Body.blocks_eq_some_iff.mp hk
  rw [Body.blocks_eq_some_iff.mp hother] at hstart
  exact (UInt32.toNat_inj.mp (Option.some.inj hstart)).symm

/-- The name of a function, the shapes of its parameters and of its result, and the number of
its registers. -/
def signature (f : FuncId) (b : Body) : String :=
  "func " ++ f.label ++ "(" ++ Shape.labels b.params ++ ") -> " ++ b.result.label ++
    " regs=" ++ toString b.registers.toNat

/-- The first line of a listing. -/
def headLine (f : FuncId) (b : Body) : String := signature f b ++ ":"

/-- The lines of a listing. -/
def listingLines (s : Store) (f : FuncId) (b : Body) : List String :=
  headLine f b :: s.codeLines b.blocks b.code.toList 0

theorem listingOf_eq (s : Store) (f : FuncId) (b : Body) :
    s.listingOf f b = unlines (s.listingLines f b) := by
  have hcode := s.join_listingLine b.blocks b.code.toList 0
  have hlisting : s.listingOf f b = signature f b ++ ":\n" ++ String.join (b.code.toList.zipIdx.map
      fun (i, place) => s.listingLine b.blocks place i) := rfl
  have hbreak : signature f b ++ ":\n" = headLine f b ++ "\n" := by
    rw [headLine, String.append_assoc]
    rfl
  rw [hlisting, hcode, hbreak, listingLines, unlines_cons]

theorem instrLine_unbroken (s : Store) (place : Nat) (hi : i.Labelled blocks) :
    Unbroken (s.instrLine blocks place i).toList := by
  have hdigits : Unbroken (sixDigits place).toList := fun h =>
    absurd (sixDigits_isDigit place _ h) (by decide)
  exact .append_text (.append_text (.append_text (.append_text (by decide) hdigits) (by decide))
    (Instr.renderWith_unbroken hi)) (s.note_unbroken i)

theorem codeLines_unbroken (s : Store) (hcode : ∀ i ∈ code, i.Labelled blocks) (place : Nat) :
    ∀ line ∈ s.codeLines blocks code place, Unbroken line.toList := by
  intro line hline
  obtain ⟨⟨i, place⟩, hi, hline⟩ := List.mem_flatMap.mp hline
  rcases List.mem_append.mp hline with hline | hline
  · obtain ⟨k, -, rfl⟩ := List.mem_map.mp hline
    exact .append_text (.append_text (by decide) (.number k)) (by decide)
  · rw [List.mem_singleton.mp hline]
    exact s.instrLine_unbroken place (hcode i (List.fst_mem_of_mem_zipIdx hi))

theorem labels_eq (ts : List ShapeId) : Shape.labels ts = listed "s" (ts.map ShapeId.index) := by
  rw [Shape.labels, listed, List.map_map]
  rfl

theorem headLine_unbroken (f : FuncId) (b : Body) : Unbroken (headLine f b).toList := by
  have hlabels : Unbroken (Shape.labels b.params).toList := by
    rw [labels_eq]
    exact .listed (by decide) _
  have hf : Unbroken f.label.toList := by simp [Unbroken, FuncId.label]
  have hresult : Unbroken b.result.label.toList := by simp [Unbroken, ShapeId.label]
  unfold Unbroken at *
  simp [headLine, signature, hf, hlabels, hresult]

/-- What a listing holds after the number of its function. -/
def afterNumber (s : Store) (b : Body) : List Char :=
  '(' :: ((listed "s" (b.params.map ShapeId.index)).toList ++
    ')' :: (" -> s".toList ++ ((toString b.result.index).toList ++ (" regs=".toList ++
      ((toString b.registers.toNat).toList ++
        (":\n".toList ++ (unlines (s.codeLines b.blocks b.code.toList 0)).toList))))))

theorem listingOf_toList (s : Store) (f : FuncId) (b : Body) :
    (s.listingOf f b).toList =
      "func f".toList ++ ((toString f.index).toList ++ s.afterNumber b) := by
  rw [listingOf_eq, listingLines, toList_unlines_cons]
  simp [headLine, signature, afterNumber, labels_eq, FuncId.label, ShapeId.label]

/-- What follows the number of a function determines its body. -/
theorem afterNumber_inj {b b' : Body} {shapes shapes' : ShapeTable} {values values' : Nat}
    (hb : b.Verified shapes values) (hb' : b'.Verified shapes' values')
    (h : s.afterNumber b = s'.afterNumber b') : b = b' := by
  obtain ⟨params, result, registers, code⟩ := b
  obtain ⟨params', result', registers', code'⟩ := b'
  obtain ⟨hparams, h⟩ := listed_cut (by decide) (by decide) ⟨'s', [], rfl, by decide⟩
    (List.cons_eq_cons.mp h).2
  simp only [List.append_cancel_left_eq] at h
  obtain ⟨hresult, h⟩ := number_cut (IsMark.outside (by decide)) (IsMark.outside (by decide)) h
  simp only [List.append_cancel_left_eq] at h
  obtain ⟨hregisters, h⟩ := number_cut (IsMark.outside (by decide)) (IsMark.outside (by decide)) h
  simp only [List.append_cancel_left_eq] at h
  obtain rfl : params = params' :=
    List.map_injective_iff.mpr (fun _ _ => ShapeId.eq_of_index) hparams
  obtain rfl := ShapeId.eq_of_index hresult
  obtain rfl := UInt32.toNat_inj.mp hregisters
  have hlines := unlines_inj (s.codeLines_unbroken hb.labelled 0)
    (s'.codeLines_unbroken hb'.labelled 0) h
  obtain rfl : code = code' := code_eq_of_lines hb hb' hlines
  rfl

/-- At which place among its lines an instruction of code that stands at a place is listed. -/
def linePlace (blocks : BlockNumbers) : Nat → Nat → Nat
  | place, 0 => (blocks[place]?).toList.length
  | place, n + 1 => linePlace blocks (place + 1) n + (blocks[place]?).toList.length + 1

theorem linePlace_pos {n k : Nat} (h : blocks[place + n]? = some k) :
    0 < linePlace blocks place n := by
  cases n with
  | zero =>
    rw [Nat.add_zero] at h
    rw [linePlace, h]
    exact Nat.one_pos
  | succ n =>
    rw [linePlace]
    omega

theorem getElem?_linePlace (s : Store) (blocks : BlockNumbers) (place : Nat) {n : Nat}
    (h : code[n]? = some i) :
    (s.codeLines blocks code place)[linePlace blocks place n]? =
      some (s.instrLine blocks (place + n) i) := by
  induction code generalizing place n with
  | nil => cases h
  | cons j code ih =>
    rw [codeLines_cons]
    cases n with
    | zero =>
      cases h
      cases hb : blocks[place]? <;> simp [linePlace, hb]
    | succ n =>
      have hmore := ih (place + 1) h
      rw [Nat.add_assoc, Nat.add_comm 1 n] at hmore
      cases hb : blocks[place]? <;> simpa [linePlace, hb] using hmore

/-- The line of a block is that before the line of its first instruction, and no other. -/
theorem getElem?_blockLine_iff (s : Store) (blocks : BlockNumbers) (code : List Instr)
    (place n k : Nat) :
    (s.codeLines blocks code place)[n]? = some (blockLine k) ↔
      ∃ m < code.length, blocks[place + m]? = some k ∧ linePlace blocks place m = n + 1 := by
  induction code generalizing place n with
  | nil => simp [codeLines]
  | cons i code ih =>
    have hmore := ih (place + 1)
    have hpos (m : Nat) (h : blocks[place + (m + 1)]? = some k) :
        linePlace blocks (place + 1) m ≠ 0 := by
      rw [Nat.add_comm m, ← Nat.add_assoc] at h
      exact Nat.ne_of_gt (linePlace_pos h)
    simp only [Nat.add_assoc, Nat.add_comm 1] at hmore
    rw [codeLines_cons, List.length_cons, Nat.exists_lt_succ_left]
    simp only [linePlace, Nat.add_zero]
    cases hb : blocks[place]? with
    | none =>
      cases n with
      | zero => simpa [instrLine_ne] using fun m _ => hpos m
      | succ n => simpa using hmore n
    | some k' =>
      cases n with
      | zero =>
        have hblock : blockLine k' = blockLine k ↔ k' = k := ⟨blockLine_inj, congrArg blockLine⟩
        simp [hblock]
      | succ n =>
        cases n with
        | zero => simpa [instrLine_ne] using fun m _ => hpos m
        | succ n => simpa using hmore n

end Store

/-! ### Listings -/

/-- How an instruction is shown if blocks start at these places: a branch target as the number
of its block, and everything else as ever. -/
inductive Instr.Shown (starts : List Nat) : Instr → String → Prop
  | jmp {target : UInt32} {k : Nat} (hk : starts[k]? = some target.toNat) :
    Shown starts (.jmp target) ("jmp @L" ++ toString k)
  | branch {scrutinee payload : Reg} {targets : Array UInt32} {ks : List Nat}
    (hks : List.Forall₂ (fun k target => starts[k]? = some (UInt32.toNat target)) ks
      targets.toList) :
    Shown starts (.branch scrutinee payload targets)
      ("match " ++ renderReg scrutinee ++ ", " ++ renderReg payload ++
        ", [" ++ ", ".intercalate (ks.map fun k => "@L" ++ toString k) ++ "]")
  | other {i : Instr} (h : i.targets = []) : Shown starts i i.render

/-- What is added to an instruction: a short form of the value that a constant names. -/
inductive Store.Noted (s : Store) : Instr → String → Prop
  | const (dst : Reg) {a : Addr} {v : Value} (hv : s.value? a = some v)
    (hbrief : s.brief a ≠ "<out of range>") : Noted s (.const dst a) (" ; " ++ s.brief a)
  | other {i : Instr} (h : i.opcode ≠ .const) : Noted s i ""

/-- The lines of a text that lists a body. Each instruction has a line, and the line of a block
is the one before that of the instruction at its start. -/
structure Store.IsListing (s : Store) (b : Body) (t : String) (lines : List String)
    (linePlace : Nat → Nat) : Prop where
  text : t = unlines lines
  unbroken : ∀ line ∈ lines, Unbroken line.toList
  instr : ∀ {place : Nat} {i : Instr}, b.code[place]? = some i → ∃ shown note,
    lines[linePlace place]? = some ("  " ++ sixDigits place ++ ": " ++ shown ++ note) ∧
      i.Shown (Body.blockStarts b.code) shown ∧ s.Noted i note
  block : ∀ {n k : Nat}, lines[n]? = some ("  @L" ++ toString k ++ ":") ↔
    ∃ place, (Body.blockStarts b.code)[k]? = some place ∧ linePlace place = n + 1

/-- Two texts that differ at most in the number of the function on their first line. -/
def SameButNumber (t t' : String) : Prop :=
  ∃ d d' rest : List Char, (∀ c ∈ d, c.isDigit = true) ∧ (∀ c ∈ d', c.isDigit = true) ∧
    t.toList = "func f".toList ++ (d ++ rest) ∧ t'.toList = "func f".toList ++ (d' ++ rest)

theorem Instr.shown_of_labelled {b : Body} {i : Instr} (h : i.Labelled b.blocks) :
    i.Shown (Body.blockStarts b.code) (i.renderWith b.blocks) := by
  cases i with
  | jmp target =>
    obtain ⟨k, hk⟩ := h target List.mem_cons_self
    have htext : (jmp target).renderWith b.blocks = "jmp @L" ++ toString k :=
      String.toList_inj.mp (by
        simp [renderWith, operands, renderTarget, opcode, Opcode.mnemonic, hk])
    rw [htext]
    exact .jmp (Body.blocks_eq_some_iff.mp hk)
  | branch scrutinee payload targets =>
    let ks := targets.toList.map fun target => (b.blocks[target.toNat]?).getD 0
    have hks : List.Forall₂
        (fun k target => (Body.blockStarts b.code)[k]? = some (UInt32.toNat target)) ks
        targets.toList := by
      rw [List.forall₂_map_left_iff, List.forall₂_same]
      intro target ht
      obtain ⟨k, hk⟩ := h target ht
      rw [hk]
      exact Body.blocks_eq_some_iff.mp hk
    have htargets : targets.toList.map (renderTarget b.blocks) =
        ks.map fun k => "@L" ++ toString k := by
      rw [List.map_map]
      refine List.map_congr_left fun target ht => ?_
      obtain ⟨k, hk⟩ := h target ht
      simp [renderTarget, hk]
    have htext : (branch scrutinee payload targets).renderWith b.blocks =
        "match " ++ renderReg scrutinee ++ ", " ++ renderReg payload ++
          ", [" ++ ", ".intercalate (ks.map fun k => "@L" ++ toString k) ++ "]" :=
      String.toList_inj.mp (by simp [renderWith, operands, opcode, Opcode.mnemonic, htargets])
    rw [htext]
    exact .branch hks
  | _ => exact .other rfl

namespace Store

variable {s s' : Store}

theorem noted_of_verified {b : Body} (hb : b.Verified s.shapes s.size) {place : Nat} {i : Instr}
    (hi : b.code[place]? = some i) : s.Noted i (s.note i) := by
  cases i with
  | const dst a =>
    obtain ⟨-, -, -, ha⟩ := hb.instrs place _ hi
    obtain ⟨v, hv⟩ := holds_iff.mpr ha
    exact .const dst hv (brief_ne_outOfRange hv)
  | _ => exact .other nofun

theorem listingLines_unbroken {b : Body} {shapes : ShapeTable} {values : Nat} (s : Store)
    (f : FuncId) (hb : b.Verified shapes values) :
    ∀ line ∈ s.listingLines f b, Unbroken line.toList :=
  List.forall_mem_cons.mpr ⟨headLine_unbroken f b, s.codeLines_unbroken hb.labelled 0⟩

theorem headLine_ne (f : FuncId) (b : Body) (k : Nat) : headLine f b ≠ blockLine k := by
  intro h
  have hline := congrArg String.toList h
  simp [headLine, signature, blockLine] at hline

theorem isListing_listingOf {b : Body} (f : FuncId) (hb : b.Verified s.shapes s.size) :
    s.IsListing b (s.listingOf f b) (s.listingLines f b) fun place =>
      linePlace b.blocks 0 place + 1 where
  text := s.listingOf_eq f b
  unbroken := s.listingLines_unbroken f hb
  instr {place i} hi := by
    have hline := s.getElem?_linePlace b.blocks 0
      (Array.getElem?_toList.trans hi)
    rw [Nat.zero_add] at hline
    have hlabelled := hb.labelled i (Array.mem_toList_iff.mpr (Array.mem_of_getElem? hi))
    exact ⟨i.renderWith b.blocks, s.note i, hline, Instr.shown_of_labelled hlabelled,
      noted_of_verified hb hi⟩
  block {n k} := by
    have hline (n : Nat) := s.getElem?_blockLine_iff b.blocks b.code.toList 0 n k
    simp only [Nat.zero_add, Array.length_toList] at hline
    cases n with
    | zero =>
      refine iff_of_false (fun h => headLine_ne f b k (Option.some.inj h)) ?_
      rintro ⟨place, hplace, hline⟩
      have hblock : b.blocks[0 + place]? = some k := by
        rw [Nat.zero_add]
        exact Body.blocks_eq_some_iff.mpr hplace
      exact Nat.ne_of_gt (linePlace_pos hblock) (Nat.succ.inj hline)
    | succ n =>
      refine (hline n).trans ?_
      constructor
      · rintro ⟨place, -, hblock, hplace⟩
        exact ⟨place, Body.blocks_eq_some_iff.mp hblock, congrArg (· + 1) hplace⟩
      · rintro ⟨place, hstart, hplace⟩
        have hblock := Body.blocks_eq_some_iff.mpr hstart
        exact ⟨place, Body.lt_of_blocks hblock, hblock, Nat.succ.inj hplace⟩

/-- Only the number of the function may be changed in a listing without a change of its body. -/
theorem body_eq_of_sameButNumber {f f' : FuncId} {b b' : Body} {shapes shapes' : ShapeTable}
    {values values' : Nat} (hb : b.Verified shapes values) (hb' : b'.Verified shapes' values')
    (h : SameButNumber (s.listingOf f b) (s'.listingOf f' b')) : b = b' := by
  obtain ⟨d, d', rest, hd, hd', ht, ht'⟩ := h
  -- The digits end where the parameters begin.
  have hafter {s : Store} {f : FuncId} {b : Body} {d : List Char}
      (hd : ∀ c ∈ d, c.isDigit = true)
      (ht : (s.listingOf f b).toList = "func f".toList ++ (d ++ rest)) :
      s.afterNumber b = rest.dropWhile Char.isDigit := by
    rw [listingOf_toList, List.append_cancel_left_eq] at ht
    have hdrop := congrArg (List.dropWhile Char.isDigit) ht
    rw [List.dropWhile_append_of_pos fun _ => isDigit_of_mem_number,
      List.dropWhile_append_of_pos hd] at hdrop
    rw [← hdrop]
    rfl
  exact afterNumber_inj hb hb' ((hafter hd ht).trans (hafter hd' ht').symm)

/-- **A listing determines its function.** Whatever is registered in a store can be listed. The
lines of the listing are those of the instructions, in which branch targets are shown by the
numbers of their blocks, and a line for each block right before that of its first instruction.
Where two listings, of one store or of two, differ at most in the number of the function, the
bodies are the same. -/
theorem listing_determines (hs : Reachable s) {f : FuncId} {b : Body} (hb : s.body f = .ok b) :
    ∃ t, s.listing f = .ok t ∧ (∃ lines linePlace, s.IsListing b t lines linePlace) ∧
      ∀ {s' : Store} {f' : FuncId} {b' : Body} {t' : String}, Reachable s' →
        s'.body f' = .ok b' → s'.listing f' = .ok t' → SameButNumber t t' → b = b' := by
  have hlisting {s : Store} {f : FuncId} {b : Body} (hb : s.body f = .ok b) :
      s.listing f = .ok (s.listingOf f b) := by
    rw [listing, hb]
    rfl
  have hverified {s : Store} {f : FuncId} {b : Body} (hs : Reachable s) (hb : s.body f = .ok b) :
      b.Verified s.shapes s.size := hs.wellFormed.verified' (body_eq_ok_iff.mp hb)
  refine ⟨s.listingOf f b, hlisting hb, ⟨_, _, isListing_listingOf f (hverified hs hb)⟩, ?_⟩
  intro s' f' b' t' hs' hb' ht' hsame
  cases ht'.symm.trans (hlisting hb')
  exact body_eq_of_sameButNumber (hverified hs hb) (hverified hs' hb') hsame

end Store

/-- A function that branches on a truth, and back from one of the branches. -/
def Body.fork : Body :=
  ⟨[ShapeId.truth], ShapeId.unit, 2, #[.arg 0 0, .branch 0 1 #[2, 3], .ret 1, .jmp 2]⟩

namespace Store

/-- The first store with the function. -/
def withFork : Store :=
  ⟨initial.values.insert (.function ⟨0⟩ #[]), initial.shapes, #[Body.fork]⟩

theorem register_fork : (Operation.register Body.fork).apply .initial = .withFork :=
  register_initial (by decide)

/-- The function has three blocks, and is told from all others by its listing. -/
theorem listing_determines_fork : Body.blockStarts Body.fork.code = [0, 2, 3] ∧
    ∃ t, withFork.listing ⟨0⟩ = .ok t ∧
      (∃ lines linePlace, withFork.IsListing Body.fork t lines linePlace) ∧
      ∀ {s' : Store} {f' : FuncId} {b' : Body} {t' : String}, Reachable s' →
        s'.body f' = .ok b' → s'.listing f' = .ok t' → SameButNumber t t' → Body.fork = b' :=
  have hs : Reachable .withFork := register_fork ▸ .step (.register Body.fork) .initial
  ⟨by decide, listing_determines hs rfl⟩

end Store

end ValueMachine
