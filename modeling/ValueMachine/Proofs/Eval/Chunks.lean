import Mathlib.Algebra.Group.Nat.Defs
import Mathlib.Data.List.Perm.Subperm
import ValueMachine.Eval.Composed

/-! How a body is divided into chunks.

The chunks of a body start at its first place, at every place that is branched to, and
at more places between these. Each chunk holds the code from its start to the start of
the next one, with every target replaced by the number of the chunk that starts there
(`Chunk.At`). What remains of a chunk at some place in it is `Chunk.Within`; this is
all that the run of a chunk needs to know about the division. -/
namespace ValueMachine

/-- The list divides so many places into stretches, of which it holds the starts. -/
structure Divides (n : Nat) (starts : List Nat) : Prop where
  first : starts[0]? = some 0
  sorted : starts.Pairwise (· < ·)
  lt : ∀ x ∈ starts, x < n

theorem Divides.exists_cons {n : Nat} {starts : List Nat} (h : Divides n starts) :
    ∃ more, starts = 0 :: more := by
  cases starts with
  | nil => cases h.first
  | cons start more =>
    cases h.first
    exact ⟨more, rfl⟩

/-! ### Basic blocks -/

namespace Body

/-- Marks a place that is branched to. -/
def mark (marks : Array Bool) (target : UInt32) : Array Bool :=
  marks.setIfInBounds target.toNat true

theorem mark_getElem? {marks : Array Bool} {place : Nat} (h : marks[place]? = some true)
    (target : UInt32) : (mark marks target)[place]? = some true := by
  unfold mark
  obtain ⟨hlt, -⟩ := Array.getElem?_eq_some_iff.mp h
  rw [Array.getElem?_setIfInBounds]
  split
  · next he => rw [he, if_pos hlt]
  · exact h

theorem mark_self {marks : Array Bool} {target : UInt32} (h : target.toNat < marks.size) :
    (mark marks target)[target.toNat]? = some true := by
  unfold mark
  simp [h]

theorem foldl_mark_kept {marks : Array Bool} {place : Nat} (h : marks[place]? = some true)
    (targets : List UInt32) : (targets.foldl mark marks)[place]? = some true := by
  induction targets generalizing marks with
  | nil => exact h
  | cons target targets ih => exact ih (mark_getElem? h target)

theorem foldl_mark_mem {marks : Array Bool} {targets : List UInt32} {target : UInt32}
    (hm : target ∈ targets) (h : target.toNat < marks.size) :
    (targets.foldl mark marks)[target.toNat]? = some true := by
  induction targets generalizing marks with
  | nil => cases hm
  | cons first targets ih =>
    rcases List.mem_cons.mp hm with rfl | hm
    · exact foldl_mark_kept (mark_self h) targets
    · exact ih hm (by simpa [mark] using h)

theorem branched_eq (code : Array Instr) :
    branched code = (code.toList.flatMap Instr.targets).foldl mark
      (Array.replicate code.size false) := by
  rw [List.foldl_flatMap, branched, ← Array.foldl_toList]
  rfl

/-- Every place that is branched to is marked. -/
theorem branched_of_target {code : Array Instr} {i : Instr} {target : UInt32} (hi : i ∈ code)
    (ht : target ∈ i.targets) (hlt : target.toNat < code.size) :
    (branched code).getD target.toNat false = true := by
  have hm : target ∈ code.toList.flatMap Instr.targets :=
    List.mem_flatMap.mpr ⟨i, Array.mem_toList_iff.mpr hi, ht⟩
  have hsize : target.toNat < (Array.replicate code.size false).size := by simpa using hlt
  have hmark := foldl_mark_mem hm hsize
  rw [branched_eq, Array.getD_eq_getD_getElem?, hmark]
  rfl

theorem blockStarts_divides {code : Array Instr} (h : 0 < code.size) :
    Divides code.size (blockStarts code) := by
  have hzero (marks : Array Bool) : startsBlock code marks 0 = true := rfl
  refine ⟨?_, List.pairwise_lt_range.filter _, fun x hx => ?_⟩
  · unfold blockStarts
    rw [show code.size = (code.size - 1) + 1 by omega, List.range_succ_eq_map]
    simp [hzero]
  · exact List.mem_range.mp (List.mem_of_mem_filter hx)

theorem target_mem_blockStarts {code : Array Instr} {i : Instr} {target : UInt32} (hi : i ∈ code)
    (ht : target ∈ i.targets) (hlt : target.toNat < code.size) :
    target.toNat ∈ blockStarts code := by
  refine List.mem_filter.mpr ⟨List.mem_range.mpr hlt, ?_⟩
  unfold startsBlock
  rw [branched_of_target hi ht hlt, Bool.or_true, Bool.true_or]

end Body

/-! ### Stretches -/

namespace Chunk

/-- A stretch reaches from its start to the start of the next one, or to the end. -/
theorem stretches_getElem? (code : Array Instr) (starts : List Nat) (number : Nat) :
    (stretches code starts)[number]? =
      (starts[number]?).map fun start => (start, (starts[number + 1]?).getD code.size) := by
  unfold stretches
  rw [List.zip, List.getElem?_zipWith]
  cases hstart : starts[number]? with
  | none => rfl
  | some start =>
    obtain ⟨hlt, -⟩ := List.getElem?_eq_some_iff.mp hstart
    by_cases hnext : number + 1 < starts.length
    · have hd : number < (starts.drop 1).length := by simp; omega
      rw [List.getElem?_append_left hd, List.getElem?_drop, Nat.add_comm 1 number,
        List.getElem?_eq_getElem hnext]
      rfl
    · have hd : (starts.drop 1).length = number := by simp; omega
      rw [List.getElem?_append_right (Nat.le_of_eq hd), hd, Nat.sub_self,
        List.getElem?_eq_none (Nat.le_of_not_lt hnext)]
      rfl

theorem stretches_cons (code : Array Instr) (x y : Nat) (starts : List Nat) :
    stretches code (x :: y :: starts) = (x, y) :: stretches code (y :: starts) := rfl

/-- Cutting a stretch gives places in it, the first one among them. -/
theorem cut_cons {start stop : Nat} (h : start < stop) :
    ∃ more, cut start stop = start :: more ∧ (start :: more).Pairwise (· < ·) ∧
      ∀ x ∈ more, x < stop := by
  obtain ⟨n, hn⟩ : ∃ n, (stop - start + maxLength - 1) / maxLength = n + 1 :=
    Nat.exists_eq_succ_of_ne_zero (by unfold maxLength; omega)
  have hcut : cut start stop = start :: (List.range n).map fun k => start + (k + 1) * maxLength := by
    unfold cut
    rw [hn, List.range_succ_eq_map, List.map_cons, List.map_map]
    simp [Function.comp_def]
  refine ⟨_, hcut, ?_, ?_⟩
  · rw [← hcut]
    refine List.pairwise_map.mpr (List.pairwise_lt_range.imp fun {j k} h => ?_)
    unfold maxLength
    omega
  · intro x hx
    obtain ⟨k, hk, rfl⟩ := List.mem_map.mp hx
    have hk := List.mem_range.mp hk
    unfold maxLength at hn ⊢
    omega

/-- The starts of a division of the code, with the cuts between them. -/
theorem cuts_divides {code : Array Instr} {start : Nat} {starts : List Nat}
    (hs : (start :: starts).Pairwise (· < ·)) (hlt : ∀ x ∈ start :: starts, x < code.size) :
    ∃ more, (stretches code (start :: starts)).flatMap (fun (start, stop) => cut start stop) =
        start :: more ∧
      (start :: more).Pairwise (· < ·) ∧ (∀ x ∈ more, x < code.size) ∧
      starts ⊆ more := by
  induction starts generalizing start with
  | nil =>
    obtain ⟨more, hcut, hsorted, hmore⟩ := cut_cons (hlt start List.mem_cons_self)
    exact ⟨more, by simp [stretches, hcut], hsorted, hmore, List.nil_subset _⟩
  | cons next starts ih =>
    obtain ⟨hnext, hs'⟩ := List.pairwise_cons.mp hs
    obtain ⟨hstart, hlt'⟩ := List.forall_mem_cons.mp hlt
    obtain ⟨rest, hrest, hsorted, hbound, hsub⟩ := ih hs' hlt'
    obtain ⟨more, hcut, hsorted', hmore⟩ := cut_cons (hnext next List.mem_cons_self)
    refine ⟨more ++ next :: rest, ?_, ?_, ?_, ?_⟩
    · rw [stretches_cons, List.flatMap_cons, hrest]
      simp [hcut]
    · rw [← List.cons_append, List.pairwise_append]
      refine ⟨hsorted', hsorted, fun x hx y hy => ?_⟩
      have hxn : x < next := by
        rcases List.mem_cons.mp hx with rfl | hx
        · exact hnext next List.mem_cons_self
        · exact hmore x hx
      rcases List.mem_cons.mp hy with rfl | hy
      · exact hxn
      · exact Nat.lt_trans hxn ((List.pairwise_cons.mp hsorted).1 y hy)
    · intro x hx
      rcases List.mem_append.mp hx with hx | hx
      · exact Nat.lt_trans (hmore x hx) (hlt' next List.mem_cons_self)
      · rcases List.mem_cons.mp hx with rfl | hx
        · exact hlt' x List.mem_cons_self
        · exact hbound x hx
    · intro x hx
      refine List.mem_append_right _ ?_
      rcases List.mem_cons.mp hx with rfl | hx
      · exact List.mem_cons_self
      · exact List.mem_cons_of_mem _ (hsub hx)

/-- The starts of the chunks divide the code, and the starts of blocks are among them. -/
theorem starts_divides {code : Array Instr} (h : 0 < code.size) :
    Divides code.size (starts code) ∧ Body.blockStarts code ⊆ starts code := by
  have hb := Body.blockStarts_divides h
  unfold starts
  obtain ⟨blocks, hblocks⟩ := hb.exists_cons
  rw [hblocks] at hb ⊢
  obtain ⟨more, hmore, hsorted, hlt, hsub⟩ := cuts_divides hb.sorted hb.lt
  rw [hmore]
  exact ⟨⟨rfl, hsorted, List.forall_mem_cons.mpr ⟨h, hlt⟩⟩, List.cons_subset_cons 0 hsub⟩

/-! ### Numbers -/

/-- The place at which a stretch starts is given the number of the stretch. -/
theorem numbers_start {code : Array Instr} {start x : Nat} {starts : List Nat} {n number : Nat}
    (hs : (start :: starts).Pairwise (· < ·)) (hlt : ∀ x ∈ start :: starts, x < code.size)
    (hx : (start :: starts)[number]? = some x) :
    (((stretches code (start :: starts)).zipIdx n).flatMap fun ((start, stop), number) =>
      List.replicate (stop - start) number)[x - start]? = some (n + number) := by
  induction starts generalizing start n number with
  | nil =>
    cases number with
    | zero =>
      cases hx
      have hpos := hlt x List.mem_cons_self
      simp [stretches, List.getElem?_replicate]
      omega
    | succ number => cases hx
  | cons next starts ih =>
    obtain ⟨hnext, hs'⟩ := List.pairwise_cons.mp hs
    obtain ⟨hstart, hlt'⟩ := List.forall_mem_cons.mp hlt
    have hgap := hnext next List.mem_cons_self
    rw [stretches_cons, List.zipIdx_cons, List.flatMap_cons]
    cases number with
    | zero =>
      cases hx
      rw [List.getElem?_append_left (by simp; omega), List.getElem?_replicate, if_pos (by omega)]
      rfl
    | succ number =>
      have hx : (next :: starts)[number]? = some x := hx
      have hle : next ≤ x := by
        rcases List.mem_cons.mp (List.mem_of_getElem? hx) with rfl | hm
        · exact Nat.le_refl x
        · exact Nat.le_of_lt ((List.pairwise_cons.mp hs').1 x hm)
      rw [List.getElem?_append_right (by simp; omega), List.length_replicate,
        show x - start - (next - start) = x - next by omega, ih hs' hlt' hx]
      congr 1
      omega

/-- The number that stands for a target. -/
def number (code : Array Instr) (target : UInt32) : UInt32 :=
  ((numbers (stretches code (starts code))).getD target.toNat 0).toUInt32

theorem ofCode_getElem? (code : Array Instr) (k : Nat) :
    (ofCode code)[k]? = ((starts code)[k]?).map fun start =>
      ⟨start, (code.extract start (((starts code)[k + 1]?).getD code.size)).toList.map
        (·.retarget (number code))⟩ := by
  have hof : ofCode code = ((stretches code (starts code)).map fun (start, stop) =>
      ⟨start, (code.extract start stop).toList.map (·.retarget (number code))⟩).toArray := rfl
  rw [hof, List.getElem?_toArray, List.getElem?_map, stretches_getElem?, Option.map_map]
  rfl

/-- The chunk with the number starts at the place. -/
def At (code : Array Instr) (number place : Nat) : Prop :=
  ∃ c, (ofCode code)[number]? = some c ∧ c.start = place

theorem at_iff {code : Array Instr} {number place : Nat} :
    At code number place ↔ (starts code)[number]? = some place := by
  unfold At
  rw [ofCode_getElem?]
  constructor
  · rintro ⟨c, hc, rfl⟩
    obtain ⟨start, hstart, rfl⟩ := Option.map_eq_some_iff.mp hc
    exact hstart
  · intro h
    exact ⟨_, by rw [h]; rfl, rfl⟩

theorem at_zero {code : Array Instr} (h : 0 < code.size) : At code 0 0 :=
  at_iff.mpr (starts_divides h).1.first

/-- The number of a target is that of a chunk which starts there. -/
theorem at_target {code : Array Instr} {i : Instr} {target : UInt32} (hi : i ∈ code)
    (ht : target ∈ i.targets) (hlt : target.toNat < code.size) (hsize : code.size < 2 ^ 32) :
    At code (number code target).toNat target.toNat := by
  have hpos : 0 < code.size := Nat.zero_lt_of_lt hlt
  obtain ⟨hd, hsub⟩ := starts_divides hpos
  obtain ⟨k, hk⟩ := List.mem_iff_getElem?.mp (hsub (Body.target_mem_blockStarts hi ht hlt))
  have hnumber : (numbers (stretches code (starts code))).getD target.toNat 0 = k := by
    obtain ⟨more, hmore⟩ := hd.exists_cons
    rw [hmore] at hd hk
    have hfound := numbers_start (n := 0) hd.sorted hd.lt hk
    rw [Nat.sub_zero, Nat.zero_add] at hfound
    rw [hmore, numbers, Array.getD_eq_getD_getElem?, List.getElem?_toArray]
    exact congrArg (Option.getD · 0) hfound
  have hlength : (starts code).length ≤ code.size := by
    have hnodup : (starts code).Nodup := hd.sorted.imp Nat.ne_of_lt
    have hrange : starts code ⊆ List.range code.size := fun x hx => List.mem_range.mpr (hd.lt x hx)
    simpa using (hnodup.subperm hrange).length_le
  have hkl : k < (starts code).length := (List.getElem?_eq_some_iff.mp hk).1
  have hk32 : k < 2 ^ 32 := by omega
  rw [at_iff, number, hnumber, UInt32.toNat_ofNat_of_lt' hk32]
  exact hk

/-- The instructions are those of the code from one place to another, with their targets
replaced. -/
def Spells (code : Array Instr) (stop : Nat) : List Instr → Nat → Prop
  | [], place => place = stop
  | i :: rest, place => (∃ j, code[place]? = some j ∧ i = j.retarget (number code)) ∧
      Spells code stop rest (place + 1)

theorem spells_extract (code : Array Instr) {start stop : Nat} (h : start ≤ stop)
    (hstop : stop ≤ code.size) :
    Spells code stop ((code.extract start stop).toList.map (·.retarget (number code))) start := by
  obtain ⟨n, rfl⟩ := Nat.exists_eq_add_of_le h
  induction n generalizing start with
  | zero =>
    rw [Nat.add_zero, Array.extract_empty_of_stop_le_start (Nat.le_refl _)]
    rfl
  | succ n ih =>
    have hlt : start < code.size := by omega
    have hcons : (code.extract start (start + (n + 1))).toList =
        code[start] :: (code.extract (start + 1) (start + 1 + n)).toList := by
      rw [Array.toList_extract, Array.toList_extract, List.extract_eq_take_drop,
        List.extract_eq_take_drop, List.drop_eq_getElem_cons (by simpa using hlt),
        show start + (n + 1) - start = n + 1 by omega, show start + 1 + n - (start + 1) = n by omega]
      rfl
    rw [hcons, Nat.add_comm n 1, ← Nat.add_assoc]
    refine ⟨⟨code[start], Array.getElem?_eq_getElem hlt, rfl⟩, ih (Nat.le_add_right _ _) ?_⟩
    omega

/-- The instructions are what remains of the chunk at a place. -/
structure Within (code : Array Instr) (number : Nat) (rest : List Instr) (place : Nat) : Prop where
  place_lt : place < code.size
  spells : ∃ stop, Spells code stop rest place ∧ (stop = code.size ∨ At code (number + 1) stop)

theorem Within.ofChunk {code : Array Instr} {number : Nat} {c : Chunk}
    (hpos : 0 < code.size) (h : (ofCode code)[number]? = some c) :
    Within code number c.code c.start ∧ c.code ≠ [] := by
  have hd := (starts_divides hpos).1
  rw [ofCode_getElem?] at h
  obtain ⟨start, hstart, rfl⟩ := Option.map_eq_some_iff.mp h
  have hlt := hd.lt start (List.mem_of_getElem? hstart)
  obtain ⟨stop, hstop, hle, hnext⟩ : ∃ stop, ((starts code)[number + 1]?).getD code.size = stop ∧
      start < stop ∧ stop ≤ code.size ∧ (stop = code.size ∨ At code (number + 1) stop) := by
    cases hn : (starts code)[number + 1]? with
    | none => exact ⟨_, rfl, hlt, Nat.le_refl _, .inl rfl⟩
    | some next =>
      obtain ⟨hi, rfl⟩ := List.getElem?_eq_some_iff.mp hstart
      obtain ⟨hj, rfl⟩ := List.getElem?_eq_some_iff.mp hn
      have hnext := hd.lt _ (List.getElem_mem hj)
      refine ⟨_, rfl, ?_, Nat.le_of_lt hnext, .inr (at_iff.mpr hn)⟩
      exact List.pairwise_iff_getElem.mp hd.sorted number (number + 1) hi hj (Nat.lt_succ_self _)
  rw [hstop]
  refine ⟨⟨hlt, stop, spells_extract code (Nat.le_of_lt hle) hnext.1, hnext.2⟩, ?_⟩
  refine List.ne_nil_of_length_pos ?_
  simp
  omega

theorem Within.head {code : Array Instr} {number place : Nat} {i : Instr} {rest : List Instr}
    (h : Within code number (i :: rest) place) :
    ∃ j, code[place]? = some j ∧ i = j.retarget (Chunk.number code) := by
  obtain ⟨stop, hspells, -⟩ := h.spells
  exact hspells.1

theorem Within.next {code : Array Instr} {number place : Nat} {i : Instr} {rest : List Instr}
    (h : Within code number (i :: rest) place) (hlt : place + 1 < code.size) :
    Within code number rest (place + 1) := by
  obtain ⟨stop, hspells, hstop⟩ := h.spells
  exact ⟨hlt, stop, hspells.2, hstop⟩

/-- Past the last instruction of a chunk stands the next chunk. -/
theorem Within.fall {code : Array Instr} {number place : Nat} (h : Within code number [] place) :
    At code (number + 1) place := by
  obtain ⟨stop, rfl, rfl | hstop⟩ := h.spells
  · exact absurd h.place_lt (Nat.lt_irrefl _)
  · exact hstop

end Chunk

end ValueMachine
