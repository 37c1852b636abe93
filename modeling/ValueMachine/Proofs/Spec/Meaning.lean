import ValueMachine.Proofs.Spec.Repetition

/-! What a verdict tells.

Of values that are gone through, a verdict tells that all of them are established, or why
the first that is not is rejected (`Checked.Tells`). Both stay true in every later store
and with more steps. -/
namespace ValueMachine

variable {e : Executor} {s t : Store} {steps n : Nat} {predicate proof x a : Addr}
  {reason : ProofInvalid}

/-! ### Verdicts on one thing after the other -/

/-- What a verdict on the items, one after the other, tells: all of them are good, or the
first that is not is bad for the reason. -/
def Checked.Tells {α : Type} (good : α → Prop) (bad : α → ProofInvalid → Prop) (items : List α) :
    Checked → Prop
  | proved => ∀ x ∈ items, good x
  | disproved reason => ∃ before x after, items = before ++ x :: after ∧
      (∀ y ∈ before, good y) ∧ bad x reason
  | inconclusive => False

namespace Checked.Tells

variable {α : Type} {good : α → Prop} {bad : α → ProofInvalid → Prop} {xs ys : List α} {c : Checked}

/-- The items before may be added if they are good. -/
theorem append (hx : ∀ x ∈ xs, good x) (h : c.Tells good bad ys) : c.Tells good bad (xs ++ ys) := by
  cases c with
  | proved => exact List.forall_mem_append.mpr ⟨hx, h⟩
  | disproved reason =>
    obtain ⟨before, y, after, rfl, hbefore, hy⟩ := h
    exact ⟨xs ++ before, y, after, (List.append_assoc ..).symm,
      List.forall_mem_append.mpr ⟨hx, hbefore⟩, hy⟩
  | inconclusive => exact h

theorem cons {x : α} (hx : good x) (h : c.Tells good bad ys) : c.Tells good bad (x :: ys) :=
  append (List.forall_mem_singleton.mpr hx) h

/-- After one that is bad there may be any others. -/
theorem stop (h : (disproved reason).Tells good bad xs) (ys : List α) :
    (disproved reason).Tells good bad (xs ++ ys) := by
  obtain ⟨before, x, after, rfl, hbefore, hx⟩ := h
  exact ⟨before, x, after ++ ys, List.append_assoc .., hbefore, hx⟩

theorem head {x : α} (hx : bad x reason) (ys : List α) :
    (disproved reason).Tells good bad (x :: ys) :=
  ⟨[], x, ys, rfl, fun _ h => absurd h List.not_mem_nil, hx⟩

/-- The verdict is `proved` exactly if all items have a property that the good ones have
and the bad ones lack. -/
theorem proved_iff (h : c.Tells good bad xs) {P : α → Prop} (hgood : ∀ x, good x → P x)
    (hbad : ∀ x reason, bad x reason → ¬P x) : c.verdict = .proved ↔ ∀ x ∈ xs, P x := by
  cases c with
  | proved => exact iff_of_true rfl fun x hx => hgood x (h x hx)
  | disproved reason =>
    obtain ⟨before, x, after, rfl, -, hx⟩ := h
    refine iff_of_false (fun hv => by cases hv) fun hall => ?_
    exact hbad x reason hx (hall x (List.mem_append_right _ List.mem_cons_self))
  | inconclusive => exact h.elim

end Checked.Tells

/-! ### Evidence -/

/-- The value is `proved`, or the identity of `proved`. -/
def Store.IsEvidence (s : Store) (a : Addr) : Prop :=
  a = Addr.proved ∨ s.value? a = some (.identity Addr.proved)

theorem Store.isEvidence_of_extends (hst : s.Extends t) (ha : s.Holds a) :
    t.IsEvidence a ↔ s.IsEvidence a := by
  obtain ⟨v, hv⟩ := ha
  rw [IsEvidence, IsEvidence, hst.value? hv, hv]

/-- This is what a check looks for. -/
theorem Check.isEvidence_iff : isEvidence s a = true ↔ s.IsEvidence a := by
  simp only [isEvidence, Store.IsEvidence, Bool.or_eq_true, decide_eq_true_eq]

theorem Check.isEvidence_of_extends (hst : s.Extends t) (ha : s.Holds a) :
    isEvidence t a = isEvidence s a := by
  rw [Bool.eq_iff_iff, isEvidence_iff, isEvidence_iff, Store.isEvidence_of_extends hst ha]

namespace Executor

/-! ### Values that are established or rejected -/

/-- With so many steps, the predicate holds of the value and the proof gives evidence. -/
def Establishes (e : Executor) (steps : Nat) (predicate proof x : Addr) (s : Store) : Prop :=
  e.Succeeds steps predicate x s Addr.proved ∧
    ∃ given, e.Succeeds steps proof x s given ∧ s.IsEvidence given

/-- The same with so many steps or more, where the evidence is known. -/
def Supports (e : Executor) (steps : Nat) (predicate proof x : Addr) (s : Store)
    (given : Addr) : Prop :=
  e.Yields steps predicate x s (.value Addr.proved) ∧ e.Yields steps proof x s (.value given) ∧
    s.IsEvidence given

/-- Why the predicate does not hold of the value. -/
def Refutes (e : Executor) (steps : Nat) (predicate x : Addr) (s : Store) : ProofInvalid → Prop
  | .predicateDisproved place =>
    place = x ∧ ∃ a, e.Yields steps predicate x s (.value a) ∧ a ≠ Addr.proved
  | .predicateFailed place message => place = x ∧ e.Yields steps predicate x s (.failed message)
  | _ => False

/-- Why the proof gives no evidence at the value. -/
def Lacks (e : Executor) (steps : Nat) (proof x : Addr) (s : Store) : ProofInvalid → Prop
  | .evidenceMismatch place given =>
    place = x ∧ e.Yields steps proof x s (.value given) ∧ ¬s.IsEvidence given
  | .proofFailed place message => place = x ∧ e.Yields steps proof x s (.failed message)
  | _ => False

/-- Why the value is not established. The predicate is looked at first. -/
def Rejects (e : Executor) (steps : Nat) (predicate proof x : Addr) (s : Store)
    (reason : ProofInvalid) : Prop :=
  e.Refutes steps predicate x s reason ∨
    e.Yields steps predicate x s (.value Addr.proved) ∧ e.Lacks steps proof x s reason

theorem Supports.mono {given : Addr} (h : e.Supports steps predicate proof x s given)
    (he : e.Serves s) (hst : s.Extends t) (ht : t.WellFormed) :
    e.Supports steps predicate proof x t given := by
  obtain ⟨hp, hg, hev⟩ := h
  obtain ⟨o, ho, -⟩ := hg.outcome
  exact ⟨hp.mono he hst ht, hg.mono he hst ht, (Store.isEvidence_of_extends hst ho.2).mpr hev⟩

theorem Supports.establishes {given : Addr} (h : e.Supports steps predicate proof x s given)
    (hn : steps ≤ n) : e.Establishes n predicate proof x s :=
  ⟨h.1.gives hn, given, h.2.1.gives hn, h.2.2⟩

/-- What is refuted does not hold, whatever steps are spent on it. -/
theorem Refutes.not_succeeds (h : e.Refutes steps predicate x s reason) (hn : steps ≤ n) :
    ¬e.Succeeds n predicate x s Addr.proved := by
  intro hs
  cases reason with
  | predicateDisproved place =>
    obtain ⟨-, a, ha, hne⟩ := h
    cases (ha.gives hn).unique (b := .value Addr.proved) hs
    exact hne rfl
  | predicateFailed place message =>
    cases (h.2.gives hn).unique (b := .value Addr.proved) hs
  | _ => exact h

theorem Lacks.not_succeeds (h : e.Lacks steps proof x s reason) (hn : steps ≤ n) {given : Addr}
    (hs : e.Succeeds n proof x s given) : ¬s.IsEvidence given := by
  cases reason with
  | evidenceMismatch place a =>
    obtain ⟨-, ha, hev⟩ := h
    cases (ha.gives hn).unique (b := .value given) hs
    exact hev
  | proofFailed place message =>
    cases (h.2.gives hn).unique (b := .value given) hs
  | _ => exact h.elim

theorem Rejects.not_establishes (h : e.Rejects steps predicate proof x s reason) (hn : steps ≤ n) :
    ¬e.Establishes n predicate proof x s := by
  rintro ⟨hp, given, hg, hev⟩
  rcases h with h | ⟨-, h⟩
  · exact h.not_succeeds hn hp
  · exact h.not_succeeds hn hg hev

/-- What a verdict on a witness with evidence tells. -/
def TellsWitness (e : Executor) (steps : Nat) (domain : ShapeId) (predicate proof : Addr)
    (s : Store) : Checked → Prop
  | .proved => ∃ witness given, s.value? proof = some (.tuple #[witness, given]) ∧
      s.fits witness domain = true ∧
      e.Yields steps predicate witness s (.value Addr.proved) ∧ s.IsEvidence given
  | .disproved reason =>
    reason = .proofShape proof .tuple ∧
        (∀ witness given, s.value? proof ≠ some (.tuple #[witness, given])) ∨
      ∃ witness given, s.value? proof = some (.tuple #[witness, given]) ∧
        (reason = .witnessNonconforming witness domain ∧ s.fits witness domain = false ∨
          s.fits witness domain = true ∧ e.Refutes steps predicate witness s reason ∨
          s.fits witness domain = true ∧
            e.Yields steps predicate witness s (.value Addr.proved) ∧
            reason = .evidenceMismatch witness given ∧ ¬s.IsEvidence given)
  | .inconclusive => False

end Executor

namespace Check

variable (he : e.Serves s)
include he

/-! ### Single values -/

theorem refutation?_settles (hp : s.Holds predicate) (hx : s.Holds x) :
    Settles steps (refutation? e predicate x) s fun r t =>
      match r with
      | none => e.Yields steps predicate x t (.value Addr.proved)
      | some reason => e.Refutes steps predicate x t reason := by
  refine (apply_settles he hp hx).bind fun a t hst ht ha => ?_
  cases a with
  | value truth =>
    show Settles steps (ite _ _ _) t _
    split
    · next h => exact .pure ht (h ▸ ha)
    · next h => exact .pure ht ⟨rfl, truth, ha, h⟩
  | failed message => exact .pure ht ⟨rfl, ha⟩

theorem evidence_settles (hp : s.Holds proof) (hx : s.Holds x) :
    Settles steps (evidence e proof x) s fun r t =>
      match r with
      | .ok given => e.Yields steps proof x t (.value given) ∧ t.IsEvidence given
      | .error reason => e.Lacks steps proof x t reason := by
  refine (apply_settles he hp hx).bind fun a t hst ht ha => ?_
  cases a with
  | value given =>
    obtain ⟨o, ho, -⟩ := ha.outcome
    refine .ask_bind fun b hb => ⟨fun u _ htu => ?_, ?_⟩
    · rw [isEvidence_of_extends htu ho.2]
      exact hb
    · cases hb
      split
      · next h => exact .pure ht ⟨ha, isEvidence_iff.mp h⟩
      · next h => exact .pure ht ⟨rfl, ha, mt isEvidence_iff.mpr h⟩
  | failed message => exact .pure ht ⟨rfl, ha⟩

/-! ### Some value -/

omit he in
theorem witnessOf?_eq_some_iff {v : Value} {witness given : Addr} :
    witnessOf? v = some (witness, given) ↔ v = .tuple #[witness, given] := by
  cases v with
  | tuple items =>
    unfold witnessOf?
    rw [Value.tuple.injEq, ← Array.toList_inj]
    dsimp only
    split
    · next h => simp [h]
    · next h =>
      refine iff_of_false (fun hn => by cases hn) fun hl => ?_
      exact h _ _ hl
  | _ => exact iff_of_false (fun h => by cases h) fun h => by cases h

omit he in
theorem conforms_eq_ok {domain : ShapeId} {b : Bool} (h : s.conforms a domain = .ok b) :
    s.fits a domain = b := by
  obtain ⟨_, -, h⟩ := bind_eq_ok_iff.mp h
  obtain ⟨_, -, h⟩ := bind_eq_ok_iff.mp h
  exact Except.ok.inj h

theorem checkExistential_settles {domain : ShapeId} (hd : s.Knows domain) (hp : s.Holds predicate) :
    Settles steps (checkExistential e domain predicate proof) s fun c t =>
      e.TellsWitness steps domain predicate proof t c := by
  have hs := he.sound
  refine .value_bind fun v hv => ?_
  split
  · next witness given hw =>
    obtain rfl := witnessOf?_eq_some_iff.mp hw
    have hwitness : s.Holds witness := hs.holds_of_child hv List.mem_cons_self
    have hgiven : s.Holds given := hs.holds_of_child hv (List.mem_cons_of_mem _ List.mem_cons_self)
    refine .ask_bind fun b hb => ⟨fun t ht hst => ?_, ?_⟩
    · exact (Store.conforms_lasts hs hwitness hd t ht hst).trans hb
    · have hfits := conforms_eq_ok hb
      cases b with
      | false => exact .pure hs (.inr ⟨witness, given, hv, .inl ⟨rfl, hfits⟩⟩)
      | true =>
        refine (refutation?_settles he hp hwitness).bind fun r t hst ht hr => ?_
        have hv := hst.value? hv
        have hfits := Store.fits_mono hst hfits
        cases r with
        | some reason => exact .pure ht (.inr ⟨witness, given, hv, .inr (.inl ⟨hfits, hr⟩)⟩)
        | none =>
          refine .ask_bind fun b hb => ⟨fun u _ htu => ?_, ?_⟩
          · rw [isEvidence_of_extends htu (hgiven.mono hst)]
            exact hb
          · cases hb
            split
            · next h =>
              exact .pure ht ⟨witness, given, hv, hfits, hr, isEvidence_iff.mp h⟩
            · next h =>
              exact .pure ht (.inr ⟨witness, given, hv,
                .inr (.inr ⟨hfits, hr, rfl, mt isEvidence_iff.mpr h⟩)⟩)
  · next hn =>
    refine .pure hs (.inl ⟨rfl, fun witness given hw => ?_⟩)
    cases hv.symm.trans hw
    cases hn.symm.trans (witnessOf?_eq_some_iff.mpr rfl)

/-! ### Every value of a small domain -/

theorem checkEach_settles (hp : s.Holds predicate) (hg : s.Holds proof) {values : List Addr}
    (hv : ∀ x ∈ values, s.Holds x) :
    Settles steps (checkEach e predicate proof values) s fun c t =>
      c.Tells (fun x => ∃ given, e.Supports steps predicate proof x t given)
        (fun x => e.Rejects steps predicate proof x t) values := by
  induction values generalizing s with
  | nil => exact .pure he.sound fun _ h => absurd h List.not_mem_nil
  | cons x rest ih =>
    obtain ⟨hx, hrest⟩ := List.forall_mem_cons.mp hv
    refine (refutation?_settles he hp hx).bind fun r t hst ht hr => ?_
    cases r with
    | some reason => exact .pure ht (.head (.inl hr) rest)
    | none =>
      have het := he.mono hst ht
      refine (evidence_settles het (hg.mono hst) (hx.mono hst)).bind fun r' u htu hu hr' => ?_
      have hr := hr.mono het htu hu
      cases r' with
      | error reason => exact .pure hu (.head (.inr ⟨hr, hr'⟩) rest)
      | ok given =>
        have hsu := hst.trans htu
        have heu := het.mono htu hu
        refine (ih heu (hp.mono hsu) (hg.mono hsu) fun x hx => (hrest x hx).mono hsu).imp
          fun c w huw hw hc => .cons ⟨given, ?_⟩ hc
        exact Executor.Supports.mono ⟨hr, hr'⟩ heu huw hw

end Check

end ValueMachine
