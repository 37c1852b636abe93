import ValueMachine.Proofs.Eval.Soundness
import ValueMachine.Proofs.Operation
import ValueMachine.Proofs.Store.Unfolding

/-! Equal places are equal values.

Only the fields of a value are looked at when it is stored. In a store that can be
reached this is enough: two places are one exactly if their values are equal all the
way down (`Store.WellFormed.eq_iff_tree?_eq`). So a comparison of places decides
equality, evidence of equality is there for equal values only, and a value is found
exactly where it is. -/
namespace ValueMachine

namespace Store

/-- The abstract value has a place, or there is a free one. -/
def HasRoom (s : Store) (v : Value) : Prop := (∃ a, s.find? v = some a) ∨ s.size < maxValues

variable {s : Store} {a b : Addr}

theorem place_of_no_room {v : Value} (h : ¬s.HasRoom v) : place v s = .error .exhausted s := by
  obtain ⟨hf, hlt⟩ := not_or.mp h
  exact place_of_full (Option.eq_none_iff_forall_ne_some.mpr fun a ha => hf ⟨a, ha⟩) hlt

theorem place_eq_ok_iff (h : s.WellFormed) {v : Value} :
    (∃ x t, place v s = .ok x t ∧ t.value? x = some v) ↔ s.HasRoom v := by
  have hends := place_ends h v
  constructor
  · rintro ⟨x, t, hp, -⟩
    by_contra hroom
    rw [place_of_no_room hroom] at hp
    cases hp
  · rintro (⟨x, hx⟩ | hlt)
    · rw [place_of_known hx] at hends ⊢
      exact ⟨x, s, rfl, hends⟩
    · cases hf : s.find? v with
      | some x => exact ⟨x, s, place_of_known hf, (h.find?_eq_some_iff.mp hf).1⟩
      | none =>
        rw [place_of_new hf hlt] at hends ⊢
        exact ⟨_, _, rfl, hends⟩

/-- Evidence of equality is stored if the places are one, and refused otherwise. -/
theorem identity_eq (ha : s.Holds a) (hb : s.Holds b) : identity a b s =
    if a = b then place (.identity a) s else .error (.mismatch (.notEqual a b)) s := by
  have hask {x : Addr} (hx : s.Holds x) : ask (fun s => discard (s.resolve x)) s = .ok () s := by
    obtain ⟨v, hv⟩ := hx
    exact ask_eq_ok_iff.mpr ⟨discard_eq_ok_iff.mpr ⟨v, lift_resolve_eq_ok_iff.mpr hv⟩, rfl⟩
  unfold identity
  rw [run_bind_of_ok (hask ha), run_bind_of_ok (hask hb)]
  split
  · exact intern_of_valid rfl ⟨List.forall_mem_singleton.mpr ha, trivial⟩
  · rfl

namespace WellFormed

theorem eq_iff_tree?_eq (h : s.WellFormed) (ha : s.Holds a) : a = b ↔ s.tree? a = s.tree? b := by
  constructor
  · rintro rfl
    rfl
  · intro hab
    obtain ⟨x, hx⟩ := h.holds_iff_tree?.mp ha
    exact Twins.eq h ⟨x, hx, hab ▸ hx⟩

theorem value_of_identity (h : s.WellFormed) (ha : s.Holds a) (hb : s.Holds b) {x : Addr} {t : Store}
    (hi : identity a b s = .ok x t) : t.value? x = some (.identity a) := by
  rw [identity_eq ha hb] at hi
  split at hi
  · exact (place_ends h _).of_ok hi
  · cases hi

/-- Evidence of equality can be had for equal values only, and for these if there is room. -/
theorem identity_iff (h : s.WellFormed) (ha : s.Holds a) (hb : s.Holds b) :
    ((∃ x t, identity a b s = .ok x t ∧ t.value? x = some (.identity a)) ↔
      s.tree? a = s.tree? b ∧ s.HasRoom (.identity a)) ∧
    (s.tree? a ≠ s.tree? b → identity a b s = .error (.mismatch (.notEqual a b)) s) := by
  rw [identity_eq ha hb, ← h.eq_iff_tree?_eq ha, ne_eq, ← h.eq_iff_tree?_eq ha]
  by_cases hab : a = b
  · rw [if_pos hab, and_iff_right hab]
    exact ⟨place_eq_ok_iff h, fun hne => absurd hab hne⟩
  · rw [if_neg hab]
    exact ⟨iff_of_false (fun ⟨_, _, he, _⟩ => by cases he) fun he => hab he.1, fun _ => rfl⟩

end WellFormed

end Store

/-! ### Work on two values -/

namespace Work

variable {s : Store} {regs : Regs} {ra rb : Reg} {a b : Addr}

theorem readReg_of_some (hra : regs[ra.toNat]? = some (some a)) : readReg regs ra s = .ok a s := by
  unfold readReg
  rw [hra]
  rfl

/-- What is read of two registers is what they hold. -/
theorem read_both {α : Type} {f : Addr → Addr → Work α}
    (hra : regs[ra.toNat]? = some (some a)) (hrb : regs[rb.toNat]? = some (some b)) :
    (do
      let x ← readReg regs ra
      let y ← readReg regs rb
      f x y : Work α) s = f a b s := by
  rw [run_bind_of_ok (readReg_of_some hra), run_bind_of_ok (readReg_of_some hrb)]

/-- What two addresses are resolved to is what the store holds there. -/
theorem value_both {α : Type} {v w : Value} {f : Value → Value → Work α}
    (ha : s.value? a = some v) (hb : s.value? b = some w) :
    (do
      let v ← value a
      let w ← value b
      f v w : Work α) s = f v w s := by
  rw [run_bind_of_ok (value_eq_ok_iff.mpr ⟨ha, rfl⟩),
    run_bind_of_ok (value_eq_ok_iff.mpr ⟨hb, rfl⟩)]

end Work

/-! ### Instructions -/

namespace Instr

open Work

variable {s : Store} {act : Activation} {regs : Regs} {dst ra rb : Reg} {a b : Addr}

/-- A comparison of registers compares the places in them. -/
theorem exec_eq (hra : regs[ra.toNat]? = some (some a)) (hrb : regs[rb.toNat]? = some (some b))
    (ha : s.Holds a) (hb : s.Holds b) :
    (cmp .eq dst ra rb).exec act regs s = .ok (regs.set dst (Addr.truth (a == b)), .next) s := by
  obtain ⟨v, hv⟩ := ha
  obtain ⟨w, hw⟩ := hb
  have hcompare : Work.compare .eq a b s = .ok (a == b) s := value_both hv hw
  exact run_bind_of_ok ((read_both hra hrb).trans (run_bind_of_ok hcompare))

/-- Evidence of equality is asked of the store. -/
theorem exec_refl (hra : regs[ra.toNat]? = some (some a)) (hrb : regs[rb.toNat]? = some (some b)) :
    (refl dst ra rb).exec act regs s = match Store.identity a b s with
      | .ok x t => .ok (regs.set dst x, .next) t
      | .error e t => .error (Halt.ofStoreError e) t := by
  show (into regs dst _) s = _
  cases hi : Store.identity a b s with
  | ok x t => exact run_bind_of_ok ((read_both hra hrb).trans (by rw [lift_eq, hi]))
  | error e t => exact run_bind_of_error ((read_both hra hrb).trans (by rw [lift_eq, hi]))

/-- The instruction for evidence of equality succeeds where the store gives evidence. -/
theorem exec_refl_iff (h : s.WellFormed) (hra : regs[ra.toNat]? = some (some a))
    (hrb : regs[rb.toNat]? = some (some b)) (ha : s.Holds a) (hb : s.Holds b) :
    ((∃ x t, (refl dst ra rb).exec act regs s = .ok (regs.set dst x, .next) t ∧
        t.value? x = some (.identity a)) ↔
      s.tree? a = s.tree? b ∧ s.HasRoom (.identity a)) ∧
    (s.tree? a ≠ s.tree? b → (refl dst ra rb).exec act regs s =
      .error (.fault (.mismatch (.notEqual a b))) s) := by
  obtain ⟨hiff, hne⟩ := h.identity_iff ha hb
  rw [exec_refl hra hrb]
  refine ⟨hiff.symm.trans ?_ |>.symm, fun h => by rw [hne h]; rfl⟩
  constructor
  · rintro ⟨x, t, hi, hx⟩
    exact ⟨x, t, by rw [hi], hx⟩
  · rintro ⟨x, t, he, -⟩
    cases hi : Store.identity a b s with
    | ok y u => exact ⟨y, u, rfl, h.value_of_identity ha hb hi⟩
    | error e u => simp [hi] at he

end Instr

/-- **Equality of places is equality all the way down.** -/
theorem Store.equality_is_deep {s : Store} (h : Reachable s) :
    -- Values unfold to trees.
    WellFounded s.Child ∧
    (∀ a, s.tree? a = do
      let v ← s.value? a
      if v.isAbstract then return .abstract v.stem (← v.children.mapM s.tree?)
      else return .concrete a v) ∧
    (∀ a, s.Holds a ↔ ∃ x, s.tree? a = some x) ∧
    (∀ a b, s.Holds a → s.Holds b →
      (a = b ↔ s.tree? a = s.tree? b) ∧
      -- Evidence of equality.
      ((∃ x t, identity a b s = .ok x t ∧ t.value? x = some (.identity a)) ↔
        s.tree? a = s.tree? b ∧ s.HasRoom (.identity a)) ∧
      (s.tree? a ≠ s.tree? b → identity a b s = .error (.mismatch (.notEqual a b)) s) ∧
      -- The instructions on two registers.
      ∀ (act : Activation) (regs : Regs) (dst ra rb : Reg), regs[ra.toNat]? = some (some a) →
        regs[rb.toNat]? = some (some b) →
        (∃ holds, (Instr.cmp .eq dst ra rb).exec act regs s =
            .ok (regs.set dst (Addr.truth holds), .next) s ∧
          (holds = true ↔ s.tree? a = s.tree? b)) ∧
        ((∃ x t, (Instr.refl dst ra rb).exec act regs s = .ok (regs.set dst x, .next) t ∧
            t.value? x = some (.identity a)) ↔
          s.tree? a = s.tree? b ∧ s.HasRoom (.identity a)) ∧
        (s.tree? a ≠ s.tree? b → (Instr.refl dst ra rb).exec act regs s =
          .error (.fault (.mismatch (.notEqual a b))) s)) ∧
    (∀ v a, s.find? v = some a ↔ v.isAbstract = true ∧ s.value? a = some v) := by
  have hs := h.wellFormed
  refine ⟨hs.child_wellFounded, hs.tree?_eq, fun a => hs.holds_iff_tree?, fun a b ha hb => ?_,
    fun v a => hs.find?_eq_some_iff.trans and_comm⟩
  obtain ⟨hiff, hne⟩ := hs.identity_iff ha hb
  refine ⟨hs.eq_iff_tree?_eq ha, hiff, hne, fun act regs dst ra rb hra hrb => ?_⟩
  refine ⟨⟨a == b, Instr.exec_eq hra hrb ha hb, ?_⟩, Instr.exec_refl_iff hs hra hrb ha hb⟩
  rw [beq_iff_eq]
  exact hs.eq_iff_tree?_eq ha

/-- The two truth values are not equal, and this is what their comparison answers. -/
theorem Store.truths_differ : initial.tree? Addr.proved ≠ initial.tree? Addr.disproved ∧
    (Instr.cmp .eq 0 0 1).exec .unit #[some Addr.proved, some Addr.disproved] initial =
      .ok (#[some Addr.disproved, some Addr.disproved], .next) initial := by
  obtain ⟨-, -, -, hequal, -⟩ := equality_is_deep .initial
  obtain ⟨heq, -, -, hinstr⟩ := hequal Addr.proved Addr.disproved
    (Work.truth_holds wellFormed_initial true) (Work.truth_holds wellFormed_initial false)
  have hne : initial.tree? Addr.proved ≠ initial.tree? Addr.disproved :=
    fun h => absurd (heq.mpr h) (by decide)
  obtain ⟨⟨holds, hexec, hiff⟩, -⟩ :=
    hinstr .unit #[some Addr.proved, some Addr.disproved] 0 0 1 rfl rfl
  cases holds with
  | true => exact absurd (hiff.mp rfl) hne
  | false => exact ⟨hne, hexec⟩

end ValueMachine
