import ValueMachine.Proofs.Spec.Verdict

/-! What a check costs.

All runs of a check draw on one budget, and nothing else does. So a check has a bill: the
instructions that its applications execute, one after the other. A check is `Priced` by
its bill if it uses as many units as the bill has entries, does the same with that many or
more, and is cut short with fewer. Prices add up, since a part of a check gets what the
parts before it have left; and the parts that only ask the store or add to it are free. -/
namespace ValueMachine

variable {α β : Type}

namespace Check

/-- What a check ends with for want of steps. -/
abbrev cut : CheckError := .eval .stepBudgetExceeded

/-- The sites of the instructions that a check executes on a budget, in order. -/
abbrev Bill := Budget → List Site

namespace Bill

def free : Bill := fun _ => []

/-- The bill of what follows a check that succeeds. -/
def after (op : Check α) (next : α → Bill) : Bill := fun b =>
  match op b with
  | .ok x b => next x b
  | .error _ _ => []

/-- The bill of a check with its own bill and of what follows it. -/
def andThen (own : Bill) (op : Check α) (next : α → Bill) : Bill := fun b =>
  own b ++ after op next b

end Bill

/-- The check costs what is on the bill, to the step. -/
structure Priced (op : Check α) (bill : Bill) : Prop where
  spent : ∀ b, (op b).state.fuel + (bill b).length = b.fuel
  enough : ∀ b, (op b).answer ≠ .error cut → ∀ fuel, (bill b).length ≤ fuel →
    op ⟨b.store, fuel⟩ = (op b).leaving ⟨(op b).state.store, fuel - (bill b).length⟩
  little : ∀ b, ∀ fuel < (bill b).length, (op ⟨b.store, fuel⟩).answer = .error cut

namespace Priced

variable {op : Check α} {next : α → Check β} {bill : Bill}

/-- What neither uses the budget nor looks at it is free. -/
theorem of_unmetered {r : Store → EStateM.Result CheckError Store α}
    (h : ∀ s fuel, op ⟨s, fuel⟩ = (r s).leaving ⟨(r s).state, fuel⟩) : Priced op .free where
  spent b := by
    rw [show op b = _ from h b.store b.fuel, EStateM.Result.state_leaving]
    rfl
  enough b _ fuel _ := by
    rw [show op b = _ from h b.store b.fuel, h]
    cases r b.store <;> rfl
  little _ _ hlt := absurd hlt (Nat.not_lt_zero _)

theorem pure (x : α) : Priced (Pure.pure x) .free :=
  of_unmetered (r := .ok x) fun _ _ => rfl

theorem throw (err : CheckError) : Priced (throwThe CheckError err : Check α) .free :=
  of_unmetered (r := .error err) fun _ _ => rfl

theorem lift (op : StoreM α) : Priced (liftM op : Check α) .free := by
  let unpaid (s : Store) : EStateM.Result CheckError Budget α := (liftM op : Check α) ⟨s, 0⟩
  refine of_unmetered (r := fun s => (unpaid s).leaving (unpaid s).state.store) fun s fuel => ?_
  show _ = ((unpaid s).leaving (unpaid s).state.store).leaving _
  unfold unpaid
  rw [lift_eq, lift_eq]
  cases op s <;> rfl

theorem ask (question : Store → Except StoreError α) : Priced (Check.ask question) .free :=
  lift (Store.ask question)

/-- The second part pays with what the first has left. -/
theorem bind {rest : α → Bill} (h : Priced op bill) (hn : ∀ x, Priced (next x) (rest x)) :
    Priced (op >>= next) (bill.andThen op rest) where
  spent b := by
    have hspent := h.spent b
    unfold Bill.andThen Bill.after
    rw [List.length_append]
    cases hx : op b with
    | ok x b' =>
      rw [hx] at hspent
      rw [run_bind_of_ok hx]
      have hrest := (hn x).spent b'
      dsimp only [EStateM.Result.state_ok] at hspent ⊢
      omega
    | error err b' =>
      rw [hx] at hspent
      rw [run_bind_of_error hx]
      exact hspent
  enough b := by
    have hsame := h.enough b
    unfold Bill.andThen Bill.after
    rw [List.length_append]
    cases hx : op b with
    | ok x b' =>
      rw [hx] at hsame
      rw [run_bind_of_ok hx]
      intro hr fuel hle
      dsimp only at hle ⊢
      rw [run_bind_of_ok (hsame (by simp) fuel (by omega)), Nat.sub_add_eq]
      exact (hn x).enough b' hr _ (by omega)
    | error err b' =>
      rw [hx] at hsame
      rw [run_bind_of_error hx]
      intro hr fuel hle
      have hother : err ≠ cut := fun he => hr (congrArg Except.error he)
      exact run_bind_of_error (hsame (fun he => hother (Except.error.inj he)) fuel hle)
  little b fuel := by
    have hsame := h.enough b
    have hcut := h.little b fuel
    unfold Bill.andThen Bill.after
    rw [List.length_append]
    intro hlt
    by_cases hown : fuel < (bill b).length
    · cases hy : op ⟨b.store, fuel⟩ with
      | ok y b' =>
        rw [hy] at hcut
        cases hcut hown
      | error err b' =>
        rw [hy] at hcut
        rw [run_bind_of_error hy]
        exact congrArg Except.error (Except.error.inj (hcut hown))
    · cases hx : op b with
      | ok x b' =>
        rw [hx] at hsame hlt
        dsimp only at hlt
        rw [run_bind_of_ok (hsame (by simp) fuel (by omega))]
        exact (hn x).little b' _ (by omega)
      | error err b' =>
        rw [hx] at hlt
        exact absurd hlt hown

/-- What follows a free part costs what it costs by itself. -/
theorem after {rest : α → Bill} (h : Priced op .free) (hn : ∀ x, Priced (next x) (rest x)) :
    Priced (op >>= next) (.after op rest) := h.bind hn

/-- The parts that follow may be free. -/
theorem bind_free (h : Priced op bill) (hn : ∀ x, Priced (next x) .free) :
    Priced (op >>= next) bill := by
  have hbill : bill.andThen op (fun _ => .free) = bill := by
    funext b
    unfold Bill.andThen Bill.after
    cases op b <;> exact List.append_nil _
  exact hbill ▸ h.bind hn

theorem map (f : α → β) (h : Priced op bill) : Priced (f <$> op) bill := by
  rw [map_eq_pure_bind]
  exact h.bind_free fun x => .pure (f x)

theorem mapM {f : α → Check β} (h : ∀ x, Priced (f x) .free) (xs : List α) :
    Priced (xs.mapM f) .free := by
  induction xs with
  | nil => exact .pure _
  | cons x xs ih =>
    rw [List.mapM_cons]
    exact (h x).bind_free fun _ => ih.bind_free fun _ => .pure _

end Priced

/-! ### The bills -/

section Bills
variable (e : Executor)

/-- The bill of the application of a function. -/
def applied (func arg : Addr) : Bill := fun b => e.executed b.fuel func arg b.store

/-- The bill of `checkExistential`: the predicate is applied to the witness. -/
def existentialBill (domain : ShapeId) (predicate proof : Addr) : Bill :=
  .after (ask fun s => s.resolve proof) fun v =>
    match witnessOf? v with
    | some (witness, _) =>
      .after (ask fun s => s.conforms witness domain) fun fits =>
        if !fits then .free else applied e predicate witness
    | none => .free

/-- The bill of `checkEach`: at every value first the predicate, then the proof. -/
def eachBill (predicate proof : Addr) : List Addr → Bill
  | [] => .free
  | x :: rest =>
    (applied e predicate x).andThen (refutation? e predicate x) fun
      | some _ => .free
      | none =>
        (applied e proof x).andThen (evidence e proof x) fun
          | .error _ => .free
          | .ok _ => eachBill predicate proof rest

/-- The bill of `expected`: the step is applied to a head and the evidence for a tail. -/
def expectedBill (ind : Induction) (proven : Proven) (list : Addr) : Bill :=
  .after (ask fun s => s.resolve list) fun
    | .cons _ head tail =>
      match proven[tail]? with
      | none => .free
      | some previous =>
        .after (liftM (Store.tuple [head, previous])) fun pair => applied e ind.step pair
    | _ => .free

/-- The bill of `checkList`: the predicate, the proof and the step. -/
def listBill (ind : Induction) (proven : Proven) (list : Addr) : Bill :=
  (applied e ind.predicate list).andThen (refutation? e ind.predicate list) fun
    | some _ => .free
    | none =>
      (applied e ind.proof list).andThen (evidence e ind.proof list) fun
        | .error _ => .free
        | .ok _ => expectedBill e ind proven list

/-- The lists that are one longer than a list, unless it has the last length. -/
def longer (ind : Induction) (last : Bool) (list : Addr) : Check (List Addr) :=
  if last then return [] else ind.elems.mapM fun head => Store.cons head list

def levelBill (ind : Induction) (last : Bool) : List Addr → Proven → Bill
  | [], _ => .free
  | list :: rest, proven =>
    (listBill e ind proven list).andThen (checkList e ind proven list) fun
      | .error _ => .free
      | .ok given =>
        .after (longer ind last list) fun _ => levelBill ind last rest (proven.insert list given)

def levelsBill (ind : Induction) : Nat → List Addr → Proven → Bill
  | _, [], _ => .free
  | more, lists, proven =>
    (levelBill e ind (more == 0) lists proven).andThen
      (checkLevel e ind (more == 0) lists [] proven) fun
      | .error _ => .free
      | .ok (longer, proven) =>
        match more with
        | 0 => .free
        | more + 1 => levelsBill ind more longer proven

variable (config : CheckConfig)

def inductionBill (elem : ShapeId) (predicate proof base step : Addr) : Bill :=
  .after (liftM (Store.enumerate elem config.maxDomain)) fun
    | none => .free
    | some elems =>
      if config.maxDomain < listCount elems.length config.inductionDepth then .free
      else
        .after (liftM (Store.nil elem)) fun empty =>
          levelsBill e ⟨predicate, proof, base, step, elems⟩ config.inductionDepth [empty] ∅

def universalBill (domain : ShapeId) (predicate proof : Addr) : Bill :=
  .after (ask fun s => s.resolve proof) fun
    | .function f captures =>
      .after (ask fun s => s.body f) fun body =>
        if body.params ≠ [domain] then .free
        else
          .after (liftM (Store.enumerate domain config.maxDomain)) fun
            | some values => eachBill e predicate proof values
            | none =>
              .after (ask fun s => .ok (inductionOf? s domain captures.toList)) fun
                | some (elem, base, step) => inductionBill e config elem predicate proof base step
                | none => .free
    | _ => .free

/-- The sites of the instructions that a check executes on a budget, in order: those of
every application of a predicate, of a proof and of a step that it makes. -/
def executed (spec proof : Addr) : Bill :=
  .after (discard <| ask fun s => s.resolve proof) fun _ =>
    .after (ask fun s => s.resolve spec) fun
      | .existential domain predicate => existentialBill e domain predicate proof
      | .universal domain predicate => universalBill e config domain predicate proof
      | _ => .free

end Bills

/-! ### The prices -/

section Prices
variable {e : Executor} (he : e.Composed)
include he

omit he in
theorem evaluate_eq (func arg : Addr) (s : Store) (fuel : Nat) :
    evaluate e func arg ⟨s, fuel⟩ =
      match (e.evaluateWith fuel func arg s).answer with
      | .ok o => .ok o ⟨(e.evaluateWith fuel func arg s).state.store,
          (e.evaluateWith fuel func arg s).state.fuel⟩
      | .error err => .error (.eval err) ⟨(e.evaluateWith fuel func arg s).state.store,
          (e.evaluateWith fuel func arg s).state.fuel⟩ := by
  unfold evaluate
  dsimp only
  cases e.evaluateWith fuel func arg s <;> rfl

/-- An application costs what the evaluation executes. -/
theorem evaluate_priced (func arg : Addr) : Priced (evaluate e func arg) (applied e func arg) where
  spent := by
    rintro ⟨s, fuel⟩
    have hspent := e.spent_eq fuel func arg s
    rw [evaluate_eq]
    cases hx : e.evaluateWith fuel func arg s <;> rw [hx] at hspent <;> exact hspent
  enough := by
    rintro ⟨s, steps⟩ hr fuel hle
    have hother : (e.evaluateWith steps func arg s).answer ≠ .error .stepBudgetExceeded := by
      intro hcut
      rw [evaluate_eq, hcut] at hr
      exact hr rfl
    obtain ⟨ha, hstore, hfuel⟩ := Executor.enough_fuel he hother hle
    rw [evaluate_eq, evaluate_eq, ha, hstore, hfuel]
    cases (e.evaluateWith steps func arg s).answer <;> rfl
  little := by
    rintro ⟨s, steps⟩ fuel hlt
    rw [evaluate_eq, (Executor.little_fuel he hlt).1]
    rfl

theorem apply_priced (func arg : Addr) : Priced (apply e func arg) (applied e func arg) := by
  refine (evaluate_priced he func arg).bind_free fun _ => (Priced.ask _).bind_free fun o => ?_
  cases o with
  | ok value => exact .pure _
  | err text => exact (Priced.ask _).bind_free fun _ => .pure _

theorem refutation?_priced (predicate x : Addr) :
    Priced (refutation? e predicate x) (applied e predicate x) := by
  refine (apply_priced he predicate x).bind_free fun a => ?_
  cases a with
  | value truth =>
    show Priced (ite _ _ _) _
    split <;> exact .pure _
  | failed message => exact .pure _

theorem evidence_priced (proof x : Addr) : Priced (evidence e proof x) (applied e proof x) := by
  refine (apply_priced he proof x).bind_free fun a => ?_
  cases a with
  | value a =>
    refine (Priced.ask _).bind_free fun b => ?_
    split <;> exact .pure _
  | failed message => exact .pure _

theorem checkExistential_priced (domain : ShapeId) (predicate proof : Addr) :
    Priced (checkExistential e domain predicate proof)
      (existentialBill e domain predicate proof) := by
  refine (Priced.ask _).after fun v => ?_
  cases witnessOf? v with
  | none => exact .pure _
  | some pair =>
    refine (Priced.ask _).after fun fits => ?_
    cases fits with
    | false => exact .pure _
    | true =>
      refine (refutation?_priced he predicate pair.1).bind_free fun r => ?_
      cases r with
      | some reason => exact .pure _
      | none =>
        refine (Priced.ask _).bind_free fun b => ?_
        split <;> exact .pure _

theorem checkEach_priced (predicate proof : Addr) (values : List Addr) :
    Priced (checkEach e predicate proof values) (eachBill e predicate proof values) := by
  induction values with
  | nil => exact .pure _
  | cons x rest ih =>
    refine (refutation?_priced he predicate x).bind fun r => ?_
    cases r with
    | some reason => exact .pure _
    | none =>
      refine (evidence_priced he proof x).bind fun a => ?_
      cases a with
      | error reason => exact .pure _
      | ok given => exact ih

variable (ind : Induction)

theorem expected_priced (proven : Proven) (list : Addr) :
    Priced (expected e ind proven list) (expectedBill e ind proven list) := by
  refine (Priced.ask _).after fun v => ?_
  cases v with
  | cons elem head tail =>
    dsimp only
    cases proven[tail]? with
    | none => exact .pure _
    | some previous =>
      refine (Priced.lift _).after fun pair => (apply_priced he ind.step pair).bind_free fun a => ?_
      cases a <;> exact .pure _
  | _ => exact .pure _

theorem checkList_priced (proven : Proven) (list : Addr) :
    Priced (checkList e ind proven list) (listBill e ind proven list) := by
  refine (refutation?_priced he ind.predicate list).bind fun r => ?_
  cases r with
  | some reason => exact .pure _
  | none =>
    refine (evidence_priced he ind.proof list).bind fun a => ?_
    cases a with
    | error reason => exact .pure _
    | ok given =>
      refine (expected_priced he ind proven list).bind_free fun w => ?_
      cases w with
      | error early => exact .pure _
      | ok wanted =>
        show Priced (ite _ _ _) _
        split <;> exact .pure _

theorem checkLevel_priced (last : Bool) (lists collected : List Addr) (proven : Proven) :
    Priced (checkLevel e ind last lists collected proven) (levelBill e ind last lists proven) := by
  induction lists generalizing collected proven with
  | nil => exact .pure _
  | cons list rest ih =>
    refine (checkList_priced he ind proven list).bind fun a => ?_
    cases a with
    | error early => exact .pure _
    | ok given =>
      cases last with
      | true => exact (Priced.pure _).after fun next => ih _ _
      | false => exact (Priced.mapM (fun head => .lift _) _).after fun next => ih _ _

theorem checkLevels_priced (more : Nat) (lists : List Addr) (proven : Proven) :
    Priced (checkLevels e ind more lists proven) (levelsBill e ind more lists proven) := by
  induction more generalizing lists proven with
  | zero =>
    cases lists with
    | nil => exact .pure _
    | cons list rest =>
      unfold checkLevels levelsBill
      refine (checkLevel_priced he ind _ _ _ _).bind fun r => ?_
      cases r <;> exact .pure _
  | succ more ih =>
    cases lists with
    | nil => exact .pure _
    | cons list rest =>
      unfold checkLevels levelsBill
      refine (checkLevel_priced he ind _ _ _ _).bind fun r => ?_
      cases r with
      | error early => exact .pure _
      | ok next => exact ih _ _

variable (config : CheckConfig)

theorem checkInduction_priced (elem : ShapeId) (predicate proof base step : Addr) :
    Priced (checkInduction e config elem predicate proof base step)
      (inductionBill e config elem predicate proof base step) := by
  refine (Priced.lift _).after fun r => ?_
  cases r with
  | none => exact .pure _
  | some elems =>
    dsimp only
    split
    · exact .pure _
    · exact (Priced.lift _).after fun _ => checkLevels_priced he _ _ _ _

theorem checkUniversal_priced (domain : ShapeId) (predicate proof : Addr) :
    Priced (checkUniversal e config domain predicate proof)
      (universalBill e config domain predicate proof) := by
  refine (Priced.ask _).after fun v => ?_
  cases v with
  | function f captures =>
    refine (Priced.ask _).after fun body => ?_
    show Priced (ite _ _ _) (ite _ _ _)
    split
    · exact .pure _
    · refine (Priced.lift _).after fun r => ?_
      cases r with
      | some values => exact checkEach_priced he _ _ _
      | none =>
        refine (Priced.ask _).after fun i => ?_
        cases i with
        | none => exact .pure _
        | some i => exact checkInduction_priced he config _ _ _ _ _
  | _ => exact .pure _

/-- A check costs what its applications execute. -/
theorem check_priced (spec proof : Addr) :
    Priced (check e config spec proof) (executed e config spec proof) := by
  refine ((Priced.ask _).map _).after fun _ => (Priced.ask _).after fun v => ?_
  cases v with
  | existential domain predicate => exact checkExistential_priced he _ _ _
  | universal domain predicate => exact checkUniversal_priced he config _ _ _
  | _ => exact .throw _

end Prices

end Check

namespace Checker

variable {c : Checker} {s : Store} {spec proof : Addr}

theorem answer_of_missing (h : c.cache[(spec, proof)]? = none) (steps : Nat) :
    (c.check spec proof steps s).1 =
      (Check.check c.executor c.config spec proof ⟨s, steps⟩).answer := by
  rw [check_of_missing h]
  cases Check.check c.executor c.config spec proof ⟨s, steps⟩ <;> rfl

/-- **A check has one exact price**: the number of instructions that all its applications
execute. With that many steps or more it comes to the same answer, and leaves the same store
and the same memory; with fewer it is cut short, and nothing is remembered. -/
theorem exact_price (he : c.executor.Composed) (hc : c.cache.isEmpty = true) {budget : Nat}
    (h : (c.check spec proof budget s).1 ≠ .error (.eval .stepBudgetExceeded)) :
    ∃ price ≤ budget,
      price = (Check.executed c.executor c.config spec proof ⟨s, budget⟩).length ∧
      (∀ steps, price ≤ steps → c.check spec proof steps s = c.check spec proof budget s) ∧
      ∀ steps < price,
        (c.check spec proof steps s).1 = .error (.eval .stepBudgetExceeded) ∧
          (c.check spec proof steps s).2.2.cache = c.cache := by
  have hmissing : c.cache[(spec, proof)]? = none := Std.HashMap.getElem?_of_isEmpty hc
  have hpriced := Check.check_priced he c.config spec proof
  have hspent := hpriced.spent ⟨s, budget⟩
  rw [answer_of_missing hmissing] at h
  refine ⟨_, Nat.le.intro ((Nat.add_comm _ _).trans hspent), rfl, fun steps hle => ?_,
    fun steps hlt => ?_⟩
  · rw [check_of_missing hmissing, check_of_missing hmissing, hpriced.enough _ h steps hle]
    cases Check.check c.executor c.config spec proof ⟨s, budget⟩ <;> rfl
  · have hcut := hpriced.little ⟨s, budget⟩ steps hlt
    refine ⟨(answer_of_missing hmissing steps).trans hcut, ?_⟩
    rw [check_of_missing hmissing]
    cases hr : Check.check c.executor c.config spec proof ⟨s, steps⟩ with
    | ok checked b =>
      rw [hr] at hcut
      cases hcut
    | error err b => rfl

/-- To find the statement proved costs the two instructions of its predicate. -/
theorem exact_price_statement :
    ((new (.machine .standard) .standard).check ⟨5⟩ ⟨4⟩ 1 Store.withStatement).1 =
        .error (.eval .stepBudgetExceeded) ∧
      ∀ steps, 2 ≤ steps →
        ((new (.machine .standard) .standard).check ⟨5⟩ ⟨4⟩ steps Store.withStatement).1 =
          .ok .proved := by
  have hmissing :
      (new (.machine .standard) .standard).cache[((⟨5⟩ : Addr), (⟨4⟩ : Addr))]? = none :=
    Std.HashMap.getElem?_empty
  have hproved : ((new (.machine .standard) .standard).check ⟨5⟩ ⟨4⟩ 2 Store.withStatement).1 =
      .ok .proved := congrArg Prod.fst (check_of_ok hmissing Store.check_statement)
  have hspent := (Check.check_priced (.machine .standard) .standard ⟨5⟩ ⟨4⟩).spent
    ⟨Store.withStatement, 2⟩
  rw [Store.check_statement, EStateM.Result.state_ok, Nat.zero_add] at hspent
  have hanswered : ((new (.machine .standard) .standard).check ⟨5⟩ ⟨4⟩ 2 Store.withStatement).1 ≠
      .error (.eval .stepBudgetExceeded) := by
    rw [hproved]
    exact fun h => by cases h
  obtain ⟨price, -, hprice, henough, hlittle⟩ :=
    exact_price (.machine .standard) Std.HashMap.isEmpty_empty hanswered
  have htwo : price = 2 := hprice.trans hspent
  subst htwo
  exact ⟨(hlittle 1 (by decide)).1, fun steps hle => by rw [henough steps hle, hproved]⟩

end Checker

end ValueMachine
