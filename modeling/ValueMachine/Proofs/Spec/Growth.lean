import ValueMachine.Proofs.Eval.Growth
import ValueMachine.Spec.Checker

/-! What a check of a proof does to its state.

A check changes the store by evaluations and by interning abstract values, so it
follows every relation between stores that an evaluation follows, and it has never
more fuel than before. -/
namespace ValueMachine

open Store (Interns)

/-- The state of a check after that of another: the stores are related and there is no
more fuel. -/
structure Budget.Later (R : Store → Store → Prop) (b b' : Budget) : Prop where
  store : R b.store b'.store
  fuel : b'.fuel ≤ b.fuel

instance (R : Store → Store → Prop) [IsPreorder Store R] : IsPreorder Budget (Budget.Later R) where
  refl _ := ⟨refl_of R _, Nat.le_refl _⟩
  trans _ _ _ h h' := ⟨trans_of R h.store h'.store, Nat.le_trans h'.fuel h.fuel⟩

variable {R : Store → Store → Prop} [IsPreorder Store R] {α : Type}

namespace Check

omit [IsPreorder Store R] in
theorem lift_eq {op : StoreM α} {s : Store} {fuel : Nat} :
    (liftM op : Check α) ⟨s, fuel⟩ = match op s with
      | .ok x s => .ok x ⟨s, fuel⟩
      | .error e s => .error (CheckError.ofStoreError e) ⟨s, fuel⟩ := rfl

omit [IsPreorder Store R] in
theorem lift_follows {op : StoreM α} (h : Follows R op) :
    Follows (Budget.Later R) (liftM op : Check α) := by
  intro ⟨s, fuel⟩
  rw [lift_eq]
  cases hr : op s with
  | ok x s' => exact ⟨h.of_ok hr, Nat.le_refl _⟩
  | error e s' => exact ⟨h.of_error hr, Nat.le_refl _⟩

theorem ask_follows (question : Store → Except StoreError α) :
    Follows (Budget.Later R) (Check.ask question) := lift_follows (Store.ask_follows question)

section
variable (hi : Interns R) (hs : ∀ x, Follows R (Store.shape x)) (e : Executor)
include hi hs

theorem evaluate_follows (func arg : Addr) :
    Follows (Budget.Later R) (evaluate e func arg) := by
  intro ⟨store, fuel⟩
  have he := e.evaluate_follows hi hs func arg
  unfold evaluate Executor.evaluateWith
  dsimp only
  split
  · next hr => exact ⟨(he.of_ok hr).store, (he.of_ok hr).fuel⟩
  · next hr => exact ⟨(he.of_error hr).store, (he.of_error hr).fuel⟩

theorem apply_follows (func arg : Addr) : Follows (Budget.Later R) (apply e func arg) := by
  refine .bind (evaluate_follows hi hs e func arg) fun _ => .bind (ask_follows _) fun o => ?_
  cases o with
  | ok value => exact .pure _
  | err text => exact .bind (ask_follows _) fun _ => .pure _

theorem refutation?_follows (predicate x : Addr) :
    Follows (Budget.Later R) (refutation? e predicate x) := by
  refine .bind (apply_follows hi hs e predicate x) fun a => ?_
  cases a with
  | value truth =>
    show Follows _ (ite _ _ _)
    split <;> exact .pure _
  | failed message => exact .pure _

theorem evidence_follows (proof x : Addr) : Follows (Budget.Later R) (evidence e proof x) := by
  refine .bind (apply_follows hi hs e proof x) fun a => ?_
  cases a with
  | value a =>
    refine .bind (ask_follows _) fun b => ?_
    split <;> exact .pure _
  | failed message => exact .pure _

theorem checkExistential_follows (domain : ShapeId) (predicate proof : Addr) :
    Follows (Budget.Later R) (checkExistential e domain predicate proof) := by
  refine .bind (ask_follows _) fun v => ?_
  split
  · refine .bind (ask_follows _) fun b => ?_
    split
    · exact .pure _
    · refine .bind (refutation?_follows hi hs e predicate _) fun r => ?_
      cases r with
      | some reason => exact .pure _
      | none =>
        refine .bind (ask_follows _) fun b => ?_
        split <;> exact .pure _
  · exact .pure _

theorem checkEach_follows (predicate proof : Addr) (values : List Addr) :
    Follows (Budget.Later R) (checkEach e predicate proof values) := by
  induction values with
  | nil => exact .pure _
  | cons x rest ih =>
    refine .bind (refutation?_follows hi hs e predicate x) fun r => ?_
    cases r with
    | some reason => exact .pure _
    | none =>
      refine .bind (evidence_follows hi hs e proof x) fun a => ?_
      cases a with
      | error reason => exact .pure _
      | ok _ => exact ih

variable (ind : Induction)

theorem expected_follows (proven : Proven) (list : Addr) :
    Follows (Budget.Later R) (expected e ind proven list) := by
  refine .bind (ask_follows _) fun v => ?_
  cases v with
  | cons elem head tail =>
    dsimp only
    split
    · exact .pure _
    · refine .bind (lift_follows (hi _ rfl)) fun pair =>
        .bind (apply_follows hi hs e ind.step pair) fun a => ?_
      cases a with
      | value a => exact .pure _
      | failed message => exact .pure _
  | _ => exact .pure _

theorem checkList_follows (proven : Proven) (list : Addr) :
    Follows (Budget.Later R) (checkList e ind proven list) := by
  refine .bind (refutation?_follows hi hs e ind.predicate list) fun r => ?_
  cases r with
  | some reason => exact .pure _
  | none =>
    refine .bind (evidence_follows hi hs e ind.proof list) fun a => ?_
    cases a with
    | error reason => exact .pure _
    | ok given =>
      refine .bind (expected_follows hi hs e ind proven list) fun w => ?_
      cases w with
      | error early => exact .pure _
      | ok wanted =>
        show Follows _ (ite _ _ _)
        split <;> exact .pure _

theorem checkLevel_follows (last : Bool) (lists longer : List Addr) (proven : Proven) :
    Follows (Budget.Later R) (checkLevel e ind last lists longer proven) := by
  induction lists generalizing longer proven with
  | nil => exact .pure _
  | cons list rest ih =>
    refine .bind (checkList_follows hi hs e ind proven list) fun a => ?_
    cases a with
    | error early => exact .pure _
    | ok given =>
      dsimp only
      split
      · exact .bind (.pure _) fun next => ih _ _
      · exact .bind (.mapM (fun head => lift_follows (Store.cons_follows hi head list)) _)
          fun next => ih _ _

theorem checkLevels_follows (more : Nat) (lists : List Addr) (proven : Proven) :
    Follows (Budget.Later R) (checkLevels e ind more lists proven) := by
  induction more generalizing lists proven with
  | zero =>
    cases lists with
    | nil => exact .pure _
    | cons list rest =>
      unfold checkLevels
      refine .bind (checkLevel_follows hi hs e ind _ _ _ _) fun r => ?_
      cases r <;> exact .pure _
  | succ more ih =>
    cases lists with
    | nil => exact .pure _
    | cons list rest =>
      unfold checkLevels
      refine .bind (checkLevel_follows hi hs e ind _ _ _ _) fun r => ?_
      cases r with
      | error early => exact .pure _
      | ok next => exact ih _ _

variable (config : CheckConfig)

theorem checkInduction_follows (elem : ShapeId) (predicate proof base step : Addr) :
    Follows (Budget.Later R) (checkInduction e config elem predicate proof base step) := by
  refine .bind (lift_follows (Store.enumerate_follows hi _ _)) fun r => ?_
  cases r with
  | none => exact .pure _
  | some elems =>
    show Follows _ (ite _ _ _)
    split
    · exact .pure _
    · exact .bind (lift_follows (hi _ rfl)) fun _ => checkLevels_follows hi hs e _ _ _ _

theorem checkUniversal_follows (domain : ShapeId) (predicate proof : Addr) :
    Follows (Budget.Later R) (checkUniversal e config domain predicate proof) := by
  refine .bind (ask_follows _) fun v => ?_
  cases v with
  | function f captures =>
    refine .bind (ask_follows _) fun body => ?_
    show Follows _ (ite _ _ _)
    split
    · exact .pure _
    · refine .bind (lift_follows (Store.enumerate_follows hi _ _)) fun r => ?_
      cases r with
      | some values => exact checkEach_follows hi hs e _ _ _
      | none =>
        refine .bind (ask_follows _) fun i => ?_
        cases i with
        | none => exact .pure _
        | some i => exact checkInduction_follows hi hs e config _ _ _ _ _
  | _ => exact .pure _

/-- A check by either executor, of anything, to any end. -/
theorem check_follows (spec proof : Addr) :
    Follows (Budget.Later R) (check e config spec proof) := by
  refine .bind (.map _ (ask_follows _)) fun _ => .bind (ask_follows _) fun v => ?_
  cases v with
  | existential domain predicate => exact checkExistential_follows hi hs e _ _ _
  | universal domain predicate => exact checkUniversal_follows hi hs e config _ _ _
  | _ => exact .throw _

end

end Check

/-- A checker changes the store as the check does, or not at all. -/
theorem Checker.check_follows (hi : Interns R) (hs : ∀ x, Follows R (Store.shape x)) (c : Checker)
    (spec proof : Addr) (steps : Nat) (s : Store) : R s (c.check spec proof steps s).2.1 := by
  have hc := Check.check_follows hi hs c.executor c.config spec proof
  unfold Checker.check
  split
  · exact refl_of R s
  · dsimp only
    split
    · next hr => exact (hc.of_ok hr).store
    · next hr => exact (hc.of_error hr).store

end ValueMachine
