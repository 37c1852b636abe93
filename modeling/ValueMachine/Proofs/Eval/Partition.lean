import Mathlib.Data.List.Range
import ValueMachine.Proofs.Eval.Chunks
import ValueMachine.Proofs.Store.Verification

/-! Chunks partition a verified body.

Starts that divide the places of a body put each place into one stretch (`Divides.covers`).
The stretches of a body are no longer than a chunk may be, because the cuts between two starts
of blocks are that far apart (`Chunk.starts_spaced`). A block starts at every target and behind
every terminator, so a branch leads to the first instruction of a chunk, a terminator is the
last one of its chunk, and the last chunk of a verified body ends with one
(`Body.verified_partition`). -/
namespace ValueMachine

/-! ### Stretches and places -/

namespace Divides

variable {n : Nat} {starts : List Nat}

/-- The place lies in the stretch with the number, between its start and the next one. -/
def Covers (n : Nat) (starts : List Nat) (number place : Nat) : Prop :=
  ∃ start, starts[number]? = some start ∧ start ≤ place ∧ place < (starts[number + 1]?).getD n

theorem exists_covers_of_le {start : Nat} {starts : List Nat} {place : Nat} (h : start ≤ place)
    (hp : place < n) : ∃ number, Covers n (start :: starts) number place := by
  induction starts generalizing start with
  | nil => exact ⟨0, start, rfl, h, hp⟩
  | cons next starts ih =>
    rcases Nat.lt_or_ge place next with hlt | hge
    · exact ⟨0, start, rfl, h, hlt⟩
    · obtain ⟨number, hcovers⟩ := ih hge
      exact ⟨number + 1, hcovers⟩

theorem exists_covers (h : Divides n starts) {place : Nat} (hp : place < n) :
    ∃ number, Covers n starts number place := by
  obtain ⟨more, rfl⟩ := h.exists_cons
  exact exists_covers_of_le (Nat.zero_le place) hp

theorem not_covers_of_lt (h : Divides n starts) {k l place : Nat} (hkl : k < l)
    (hk : Covers n starts k place) : ¬Covers n starts l place := by
  rintro ⟨stop, hstop, hle, -⟩
  obtain ⟨start, hstart, -, hlt⟩ := hk
  obtain ⟨hll, rfl⟩ := List.getElem?_eq_some_iff.mp hstop
  rw [List.getElem?_eq_getElem (show k + 1 < starts.length by omega), Option.getD_some] at hlt
  have hsorted : starts[k + 1] ≤ starts[l] := by
    rcases Nat.lt_or_eq_of_le hkl with hlt | rfl
    · exact Nat.le_of_lt (List.pairwise_iff_getElem.mp h.sorted _ _ _ hll hlt)
    · exact Nat.le_refl _
  omega

/-- Each place lies in one stretch. -/
theorem covers (h : Divides n starts) {place : Nat} (hp : place < n) :
    ∃! number, Covers n starts number place := by
  obtain ⟨number, hcovers⟩ := h.exists_covers hp
  refine ⟨number, hcovers, fun other hother => ?_⟩
  rcases Nat.lt_trichotomy other number with hlt | heq | hlt
  · exact absurd hcovers (h.not_covers_of_lt hlt hother)
  · exact heq
  · exact absurd hother (h.not_covers_of_lt hlt hcovers)

end Divides

/-! ### Blocks and cuts -/

theorem Body.behind_mem_blockStarts {code : Array Instr} {place : Nat} {i : Instr}
    (hi : code[place]? = some i) (ht : i.isTerminator = true) (hlt : place + 1 < code.size) :
    place + 1 ∈ blockStarts code := by
  refine List.mem_filter.mpr ⟨List.mem_range.mpr hlt, ?_⟩
  have hbehind : (code[place + 1 - 1]?).any (·.isTerminator) = true := by
    rw [Nat.add_sub_cancel, hi]
    exact ht
  unfold startsBlock
  rw [hbehind, Bool.or_true]

theorem Instr.isTerminator_retarget (f : UInt32 → UInt32) (i : Instr) :
    (i.retarget f).isTerminator = i.isTerminator := by
  cases i <;> rfl

namespace Chunk

/-- The second place is no further from the first than a chunk may be long. -/
def Near (place next : Nat) : Prop := next ≤ place + maxLength

theorem cut_spaced (start stop : Nat) : (cut start stop ++ [stop]).IsChain Near := by
  refine List.isChain_append.mpr ⟨?_, .singleton stop, fun x hx y hy => ?_⟩
  · refine (List.isChain_map _).mpr ((List.isChain_range _ _).mpr fun k _ => ?_)
    show start + (k + 1) * 16 ≤ start + k * 16 + 16
    omega
  · cases hy
    unfold cut at hx
    rw [List.getLast?_map, List.getLast?_range] at hx
    split at hx
    · cases hx
    · cases hx
      show stop ≤ start + ((stop - start + 16 - 1) / 16 - 1) * 16 + 16
      omega

theorem cuts_spaced {code : Array Instr} {start : Nat} {starts : List Nat}
    (hs : (start :: starts).Pairwise (· < ·)) (hlt : ∀ x ∈ start :: starts, x < code.size) :
    ((stretches code (start :: starts)).flatMap (fun (start, stop) => cut start stop) ++
      [code.size]).IsChain Near := by
  induction starts generalizing start with
  | nil => simpa [stretches] using cut_spaced start code.size
  | cons next starts ih =>
    obtain ⟨-, hs'⟩ := List.pairwise_cons.mp hs
    obtain ⟨-, hlt'⟩ := List.forall_mem_cons.mp hlt
    obtain ⟨more, hmore, -⟩ := cuts_divides hs' hlt'
    have hrest := ih hs' hlt'
    rw [hmore] at hrest
    rw [stretches_cons, List.flatMap_cons, hmore, List.append_assoc]
    exact List.isChain_split.mpr ⟨cut_spaced start next, hrest⟩

/-- No start is further from the next one, or from the end, than a chunk may be long. -/
theorem starts_spaced {code : Array Instr} (h : 0 < code.size) :
    (starts code ++ [code.size]).IsChain Near := by
  have hb := Body.blockStarts_divides h
  unfold starts
  obtain ⟨blocks, hblocks⟩ := hb.exists_cons
  rw [hblocks] at hb ⊢
  exact cuts_spaced hb.sorted hb.lt

/-! ### Chunks -/

/-- The place behind the last instruction of a chunk. -/
def stop (c : Chunk) : Nat := c.start + c.code.length

/-- The chunk holds the instruction at a place. -/
def Holds (c : Chunk) (place : Nat) : Prop := c.start ≤ place ∧ place < c.stop

/-- A chunk with a number is the code from its start to the next one, with other targets. -/
theorem of_getElem? {code : Array Instr} (h : 0 < code.size) {k : Nat} {c : Chunk}
    (hc : (ofCode code)[k]? = some c) :
    (starts code)[k]? = some c.start ∧ ((starts code)[k + 1]?).getD code.size = c.stop ∧
      c.start < c.stop ∧ c.stop ≤ c.start + maxLength ∧ c.stop ≤ code.size ∧
      c.code = (code.extract c.start c.stop).toList.map (·.retarget (number code)) := by
  have hd := (starts_divides h).1
  rw [ofCode_getElem?] at hc
  obtain ⟨start, hstart, rfl⟩ := Option.map_eq_some_iff.mp hc
  obtain ⟨hk, rfl⟩ := List.getElem?_eq_some_iff.mp hstart
  have hnear : Near _ _ := List.isChain_iff_getElem.mp (starts_spaced h) k (by simpa using hk)
  rw [List.getElem_append_left hk] at hnear
  unfold Near at hnear
  obtain ⟨stop, hstop, hlt, hle, hspace⟩ : ∃ stop,
      ((starts code)[k + 1]?).getD code.size = stop ∧ (starts code)[k] < stop ∧
        stop ≤ code.size ∧ stop ≤ (starts code)[k] + maxLength := by
    rcases Nat.lt_or_ge (k + 1) (starts code).length with hnext | hlast
    · rw [List.getElem_append_left hnext] at hnear
      refine ⟨(starts code)[k + 1], ?_, ?_, ?_, hnear⟩
      · rw [List.getElem?_eq_getElem hnext, Option.getD_some]
      · exact List.pairwise_iff_getElem.mp hd.sorted _ _ _ _ (Nat.lt_succ_self k)
      · exact Nat.le_of_lt (hd.lt _ (List.getElem_mem hnext))
    · rw [List.getElem_append_right hlast] at hnear
      refine ⟨code.size, ?_, hd.lt _ (List.getElem_mem hk), Nat.le_refl _, by simpa using hnear⟩
      rw [List.getElem?_eq_none hlast, Option.getD_none]
  rw [hstop]
  have hlength : Chunk.stop ⟨(starts code)[k], (code.extract (starts code)[k] stop).toList.map
      (·.retarget (number code))⟩ = stop := by
    simp [Chunk.stop]
    omega
  rw [hlength]
  exact ⟨hstart, rfl, hlt, hspace, hle, rfl⟩

section Division

variable {code : Array Instr}

theorem holds_iff (h : 0 < code.size) {k place : Nat} :
    (∃ c : Chunk, (ofCode code)[k]? = some c ∧ c.Holds place) ↔
      Divides.Covers code.size (starts code) k place := by
  constructor
  · rintro ⟨c, hc, hstart, hstop⟩
    obtain ⟨hk, hnext, -⟩ := of_getElem? h hc
    exact ⟨c.start, hk, hstart, hnext ▸ hstop⟩
  · rintro ⟨start, hk, hstart, hstop⟩
    obtain ⟨c, hc, rfl⟩ := at_iff.mpr hk
    exact ⟨c, hc, hstart, (of_getElem? h hc).2.1 ▸ hstop⟩

/-- Each place lies in one chunk. -/
theorem exists_unique_holds (h : 0 < code.size) {place : Nat} (hp : place < code.size) :
    ∃! k : Nat, ∃ c : Chunk, (ofCode code)[k]? = some c ∧ c.Holds place := by
  simpa only [holds_iff h] using (starts_divides h).1.covers hp

/-- No chunk starts within another one. -/
theorem start_not_mem (h : 0 < code.size) {c : Chunk} {k place : Nat}
    (hc : (ofCode code)[k]? = some c) (hstart : c.start < place) (hstop : place < c.stop) :
    place ∉ starts code := by
  intro hmem
  obtain ⟨l, hl⟩ := List.mem_iff_getElem?.mp hmem
  obtain ⟨c', hc', rfl⟩ := at_iff.mpr hl
  obtain ⟨-, -, hlt, -, hle, -⟩ := of_getElem? h hc'
  have hone : l = k := (exists_unique_holds h (Nat.lt_of_lt_of_le hlt hle)).unique
    ⟨c', hc', Nat.le_refl _, hlt⟩ ⟨c, hc, Nat.le_of_lt hstart, hstop⟩
  rw [hone, hc] at hc'
  cases hc'
  exact Nat.lt_irrefl _ hstart

theorem getElem?_code (h : 0 < code.size) {c : Chunk} {k n : Nat} {i : Instr}
    (hc : (ofCode code)[k]? = some c) (hi : c.code[n]? = some i) :
    ∃ j, code[c.start + n]? = some j ∧ i = j.retarget (number code) := by
  obtain ⟨hn, -⟩ := List.getElem?_eq_some_iff.mp hi
  rw [(of_getElem? h hc).2.2.2.2.2, List.getElem?_map, Option.map_eq_some_iff] at hi
  obtain ⟨j, hj, rfl⟩ := hi
  refine ⟨j, ?_, rfl⟩
  rw [Array.getElem?_toList, Array.getElem?_extract] at hj
  split at hj
  · exact hj
  · cases hj

/-- A terminator is the last instruction of its chunk. -/
theorem last_of_terminator (h : 0 < code.size) {c : Chunk} {k n : Nat} {i : Instr}
    (hc : (ofCode code)[k]? = some c) (hi : c.code[n]? = some i) (ht : i.isTerminator = true) :
    n + 1 = c.code.length := by
  obtain ⟨-, -, -, -, hle, -⟩ := of_getElem? h hc
  obtain ⟨j, hj, rfl⟩ := getElem?_code h hc hi
  rw [Instr.isTerminator_retarget] at ht
  obtain ⟨hn, -⟩ := List.getElem?_eq_some_iff.mp hi
  by_contra hne
  have hstop : c.start + n + 1 < c.stop := by
    unfold Chunk.stop
    omega
  have hstart := (starts_divides h).2 (Body.behind_mem_blockStarts hj ht (by omega))
  exact start_not_mem h hc (by omega) hstop hstart

/-- Where the code goes on behind a chunk the next one starts. -/
theorem at_stop (h : 0 < code.size) {c : Chunk} {k : Nat} (hc : (ofCode code)[k]? = some c)
    (hlt : c.stop < code.size) : At code (k + 1) c.stop := by
  obtain ⟨-, hnext, -⟩ := of_getElem? h hc
  refine at_iff.mpr ?_
  cases hs : (starts code)[k + 1]? with
  | some start =>
    rw [hs] at hnext
    exact congrArg some hnext
  | none =>
    rw [hs, Option.getD_none] at hnext
    omega

/-- The stretches that starts divide the code into are the whole code. -/
theorem flatMap_stretches (code : Array Instr) {start : Nat} {starts : List Nat}
    (hs : (start :: starts).Pairwise (· < ·)) :
    ((stretches code (start :: starts)).flatMap fun (start, stop) =>
      (code.extract start stop).toList) = code.toList.drop start := by
  induction starts generalizing start with
  | nil => simp [stretches, List.extract_eq_take_drop, List.take_of_length_le]
  | cons next starts ih =>
    obtain ⟨hnext, hs'⟩ := List.pairwise_cons.mp hs
    have hle : start ≤ next := Nat.le_of_lt (hnext next List.mem_cons_self)
    have hdrop : code.toList.drop next = (code.toList.drop start).drop (next - start) := by
      rw [List.drop_drop, Nat.add_sub_cancel' hle]
    rw [stretches_cons, List.flatMap_cons, ih hs', hdrop]
    show (code.extract start next).toList ++ _ = _
    rw [Array.toList_extract, List.extract_eq_take_drop, List.take_append_drop]

theorem flatMap_code (h : 0 < code.size) :
    (ofCode code).toList.flatMap (·.code) = code.toList.map (·.retarget (number code)) := by
  have hd := (starts_divides h).1
  obtain ⟨more, hmore⟩ := hd.exists_cons
  have hwhole := flatMap_stretches code (hmore ▸ hd.sorted)
  rw [List.drop_zero, ← hmore] at hwhole
  rw [← hwhole, List.map_flatMap]
  exact List.flatMap_map (fun (start, stop) =>
    Chunk.mk start ((code.extract start stop).toList.map (Instr.retarget (number code)))) _ _

/-- How the chunks of a body divide it. -/
structure Partition (code : Array Instr) : Prop where
  /-- The starts ascend from the first place. -/
  divides : Divides code.size (starts code)
  /-- Every start is that of the chunk with its number. -/
  start : (ofCode code).toList.map (·.start) = starts code
  /-- No chunk is empty, and none is too long. -/
  length : ∀ c ∈ ofCode code, 0 < c.code.length ∧ c.code.length ≤ maxLength
  /-- One after the other, the chunks are the whole code. -/
  whole : (ofCode code).toList.flatMap (·.code) = code.toList.map (·.retarget (number code))
  /-- Each place lies in one chunk. -/
  covers : ∀ place < code.size, ∃! k : Nat, ∃ c : Chunk, (ofCode code)[k]? = some c ∧ c.Holds place
  /-- The number of a target is that of a chunk which starts there. -/
  target : ∀ i ∈ code, ∀ target ∈ i.targets, At code (number code target).toNat target.toNat
  /-- A chunk starts behind every terminator but the last. -/
  behind : ∀ place i, code[place]? = some i → i.isTerminator = true → place + 1 < code.size →
    place + 1 ∈ starts code
  /-- A terminator is the last instruction of its chunk. -/
  last : ∀ c ∈ ofCode code, ∀ n i, c.code[n]? = some i → i.isTerminator = true →
    n + 1 = c.code.length
  /-- A chunk that does not end with a terminator is followed by another one. -/
  next : ∀ k c i, (ofCode code)[k]? = some c → c.code.getLast? = some i →
    i.isTerminator = false → At code (k + 1) c.stop

end Division

end Chunk

/-- The chunks of a verified body partition it. -/
theorem Body.verified_partition {b : Body} {shapes : ShapeTable} {values : Nat}
    (h : b.verify shapes values = .ok ()) : Chunk.Partition b.code := by
  have hv := Body.verify_eq_ok_iff.mp h
  have hpos := hv.code_pos
  obtain ⟨hd, hsub⟩ := Chunk.starts_divides hpos
  refine ⟨hd, ?start, ?length, Chunk.flatMap_code hpos,
    fun place hp => Chunk.exists_unique_holds hpos hp, ?target,
    fun place i hi ht hlt => hsub (behind_mem_blockStarts hi ht hlt), ?last, ?next⟩
  case start =>
    refine List.ext_getElem? fun k => ?_
    rw [List.getElem?_map, Array.getElem?_toList, Chunk.ofCode_getElem?, Option.map_map]
    exact Option.map_id_apply
  case length =>
    intro c hc
    obtain ⟨k, hk⟩ := Array.mem_iff_getElem?.mp hc
    obtain ⟨-, -, hlt, hle, -, -⟩ := Chunk.of_getElem? hpos hk
    unfold Chunk.stop at hlt hle
    omega
  case target =>
    intro i hi target ht
    obtain ⟨place, hplace⟩ := Array.mem_iff_getElem?.mp hi
    exact Chunk.at_target hi ht ((hv.instrs place i hplace).2.2.1 target ht) hv.size_lt
  case last =>
    intro c hc n i hi ht
    obtain ⟨k, hk⟩ := Array.mem_iff_getElem?.mp hc
    exact Chunk.last_of_terminator hpos hk hi ht
  case next =>
    intro k c i hk hi ht
    rw [List.getLast?_eq_getElem?] at hi
    obtain ⟨hn, -⟩ := List.getElem?_eq_some_iff.mp hi
    obtain ⟨j, hj, rfl⟩ := Chunk.getElem?_code hpos hk hi
    rw [Instr.isTerminator_retarget] at ht
    refine Chunk.at_stop hpos hk ?_
    have hmore := hv.next_lt hj ht
    unfold Chunk.stop
    omega

/-- Seventeen instructions to the first terminator, behind which a branch leads back. -/
def Body.round : Body :=
  ⟨[], ⟨0⟩, 1, (Array.replicate 16 Instr.nop).push (.jmp 18) |>.push (.ret 0) |>.push (.jmp 17)⟩

theorem Body.round_partition :
    Body.round.verify ShapeTable.initial 0 = .ok () ∧
      Chunk.starts Body.round.code = [0, 16, 17, 18] ∧ Chunk.Partition Body.round.code := by
  have hv : Body.round.verify ShapeTable.initial 0 = .ok () := by decide
  exact ⟨hv, by decide, Body.verified_partition hv⟩

end ValueMachine
