import ValueMachine.Proofs.Spec.Induction

/-! What proved means.

A check of a proof gives a verdict that tells what has been found out (`Check.check_settles`).
So the verdict is `proved` exactly if the statement is proved in the sense that is
documented (`Executor.Proves`), in the store that the check leaves and for any steps from
the budget on (`Checker.verdict_proved_iff`). -/
namespace ValueMachine

open Check

variable {e : Executor} {s t : Store} {steps n : Nat} {config : CheckConfig} {domain elem : ShapeId}
  {spec predicate proof : Addr}

namespace Executor

/-- What a verdict on an induction tells. -/
def TellsInduction (e : Executor) (steps : Nat) (config : CheckConfig) (elem : ShapeId)
    (predicate proof base step : Addr) (s : Store) (c : Checked) : Prop :=
  (c = .inconclusive ∧ ∀ n, s.cardinality elem = some n → n ≤ config.maxDomain →
      config.maxDomain < listCount n config.inductionDepth) ∨
    ∃ elems, s.Enumerates elem config.maxDomain (some elems) ∧
      listCount elems.length config.inductionDepth ≤ config.maxDomain ∧
      let ind : Induction := ⟨predicate, proof, base, step, elems⟩
      c.Tells (ind.Covered e steps elem s) (ind.Rejects e steps s elem)
        (Induction.visits elems config.inductionDepth [[]])

/-- What a verdict on a statement about every value tells. -/
def TellsUniversal (e : Executor) (steps : Nat) (config : CheckConfig) (domain : ShapeId)
    (predicate proof : Addr) (s : Store) (c : Checked) : Prop :=
  (c = .disproved (.proofShape proof .function) ∧
      ∀ f captures, s.value? proof ≠ some (.function f captures)) ∨
    ∃ f captures body, s.value? proof = some (.function f captures) ∧ s.body? f = some body ∧
      (c = .disproved (.proofSignature proof domain) ∧ body.params ≠ [domain] ∨
        body.params = [domain] ∧
          ((∃ values, s.Enumerates domain config.maxDomain (some values) ∧
              c.Tells (fun x => ∃ given, e.Supports steps predicate proof x s given)
                (fun x => e.Rejects steps predicate proof x s) values) ∨
            s.Enumerates domain config.maxDomain none ∧
              (c = .inconclusive ∧ inductionOf? s domain captures.toList = none ∨
                ∃ elem base step, inductionOf? s domain captures.toList = some (elem, base, step) ∧
                  e.TellsInduction steps config elem predicate proof base step s c)))

end Executor

namespace Check

theorem arity?_of_extends (hs : s.WellFormed) (hst : s.Extends t) {a : Addr} (ha : s.Holds a) :
    arity? t a = arity? s a := by
  obtain ⟨v, hv⟩ := ha
  unfold arity?
  rw [hst.value? hv, hv]
  cases v with
  | function f captures =>
    obtain ⟨-, -, body, hb⟩ := hs.valid' hv
    dsimp only
    rw [hb, hst.body? hb]
  | _ => rfl

theorem inductionOf?_eq_some_iff {captures : List Addr} {base step : Addr} :
    inductionOf? s domain captures = some (elem, base, step) ↔
      captures = [base, step] ∧ s.shape? domain = some (.list elem) ∧ arity? s step = some 2 := by
  unfold inductionOf?
  constructor
  · intro h
    split at h
    · split at h
      · next hs =>
        split at h
        · next ha =>
          cases h
          exact ⟨rfl, hs, ha⟩
        · cases h
      · cases h
    · cases h
  · rintro ⟨rfl, hs, ha⟩
    dsimp only
    rw [hs]
    exact if_pos ha

theorem inductionOf?_of_extends (hs : s.WellFormed) (hst : s.Extends t) (hd : s.Knows domain)
    {captures : List Addr} (hc : ∀ a ∈ captures, s.Holds a) :
    inductionOf? t domain captures = inductionOf? s domain captures := by
  obtain ⟨x, hx⟩ := Store.knows_iff.mp hd
  unfold inductionOf?
  split
  · rw [hst.shape? hx, hx]
    cases x with
    | list elem =>
      dsimp only
      rw [arity?_of_extends hs hst (hc _ (List.mem_cons_of_mem _ List.mem_cons_self))]
    | _ => rfl
  · rfl

section
variable (he : e.Serves s)
include he

theorem checkInduction_settles (hd : s.Knows elem) (hp : s.Holds predicate) (hg : s.Holds proof)
    {base step : Addr} (hstep : s.Holds step) :
    Settles steps (checkInduction e config elem predicate proof base step) s fun c t =>
      e.TellsInduction steps config elem predicate proof base step t c := by
  refine (Settles.lift_lasting (Store.enumerate_settles he.sound hd _)).bind
    fun r t hst ht hr => ?_
  cases r with
  | none =>
    refine .pure ht (.inl ⟨rfl, fun n hn hle => ?_⟩)
    exact absurd (hr t ht (.refl t) n hn) (Nat.not_lt.mpr hle)
  | some elems =>
    show Settles steps (ite _ _ _) t _
    split
    · next hmany =>
      refine .pure ht (.inl ⟨rfl, fun n hn _ => ?_⟩)
      cases (hr t ht (.refl t)).2.1.symm.trans hn
      exact hmany
    · next hfew =>
      have het := he.mono hst ht
      have hnil := Store.nil_settles ht (hd.mono hst)
      refine Settles.bind (.lift hnil) fun empty u htu hu hempty => ?_
      have hsu := hst.trans htu
      have heu := het.mono htu hu
      have hheld : Induction.Held ⟨predicate, proof, base, step, elems⟩ u :=
        ⟨hp.mono hsu, hg.mono hsu, hstep.mono hsu, (hr u hu htu).2.2.holds⟩
      refine (checkLevels_settles heu hheld (.cons hempty .nil) fun head rest h => ?_).imp
        fun c v huv hv hc => .inr ⟨elems, hr v hv (htu.trans huv), Nat.le_of_not_lt hfew, hc⟩
      simp at h

theorem checkUniversal_settles (hd : s.Knows domain) (hp : s.Holds predicate) :
    Settles steps (checkUniversal e config domain predicate proof) s fun c t =>
      e.TellsUniversal steps config domain predicate proof t c := by
  have hs := he.sound
  refine .value_bind fun v hv => ?_
  have hproof : s.Holds proof := ⟨v, hv⟩
  cases v with
  | function f captures =>
    refine .ask_bind fun body hb => ?_
    have hb : s.body? f = some body := Store.lift_body_eq_ok_iff.mp hb
    refine ⟨fun t _ hst => Store.lift_body_eq_ok_iff.mpr (hst.body? hb), ?_⟩
    show Settles steps (ite _ _ _) s _
    split
    · next hparams => exact .pure hs (.inr ⟨f, captures, body, hv, hb, .inl ⟨rfl, hparams⟩⟩)
    · next hparams =>
      have hparams := not_not.mp hparams
      refine (Settles.lift_lasting (Store.enumerate_settles hs hd _)).bind fun r t hst ht hr => ?_
      have het := he.mono hst ht
      cases r with
      | some values =>
        refine (checkEach_settles het (hp.mono hst) (hproof.mono hst)
          (hr t ht (.refl t)).2.2.holds).imp fun c u htu hu hc => .inr ⟨f, captures, body,
            (hst.trans htu).value? hv, (hst.trans htu).body? hb, .inr ⟨hparams, .inl ?_⟩⟩
        exact ⟨values, hr u hu htu, hc⟩
      | none =>
        have hcaptures (a : Addr) (ha : a ∈ captures.toList) : t.Holds a :=
          (hs.holds_of_child hv ha).mono hst
        have hsame {u : Store} (htu : t.Extends u) :=
          inductionOf?_of_extends ht htu (hd.mono hst) hcaptures
        refine .ask_bind fun i hi => ⟨fun u _ htu => (congrArg Except.ok (hsame htu)).trans hi, ?_⟩
        have hi := Except.ok.inj hi
        have hv := hst.value? hv
        have hb := hst.body? hb
        have hnone := hr t ht (.refl t)
        cases i with
        | none =>
          exact .pure ht (.inr ⟨f, captures, body, hv, hb,
            .inr ⟨hparams, .inr ⟨hnone, .inl ⟨rfl, hi⟩⟩⟩⟩)
        | some found =>
          obtain ⟨elem, base, step⟩ := found
          obtain ⟨hlist, hshape, -⟩ := inductionOf?_eq_some_iff.mp hi
          have hstep : t.Holds step := hcaptures step (by simp [hlist])
          have helem : t.Knows elem := ht.knows_of_child hshape List.mem_cons_self
          refine (checkInduction_settles het helem (hp.mono hst) (hproof.mono hst) hstep).imp
            fun c u htu hu hc => .inr ⟨f, captures, body, htu.value? hv, htu.body? hb,
              .inr ⟨hparams, .inr ⟨hr u hu htu, .inr ⟨elem, base, step, ?_, hc⟩⟩⟩⟩
          rw [hsame htu, hi]
  | _ => exact .pure hs (.inl ⟨rfl, fun _ _ h => by cases hv.symm.trans h⟩)

/-- A check that has a verdict has it again in every later store, for the same price. The
verdict tells what holds of the statement. -/
theorem check_settles : Settles steps (check e config spec proof) s fun c t =>
    (∃ domain predicate, t.value? spec = some (.existential domain predicate) ∧
      e.TellsWitness steps domain predicate proof t c) ∨
    ∃ domain predicate, t.value? spec = some (.universal domain predicate) ∧
      e.TellsUniversal steps config domain predicate proof t c := by
  have hs := he.sound
  refine Settles.bind (P := fun _ _ => True) ?_ fun _ t hst ht _ => ?_
  · have hdiscard : (discard (ask fun s => s.resolve proof) : Check Unit) =
        ask (fun s => s.resolve proof) >>= fun _ => pure () :=
      map_eq_pure_bind (fun _ => ()) (ask fun s => s.resolve proof)
    rw [hdiscard]
    exact .value_bind fun _ _ => .pure hs trivial
  · refine .value_bind fun v hv => ?_
    have het := he.mono hst ht
    cases v with
    | existential domain predicate =>
      have hp : t.Holds predicate := ht.holds_of_child hv List.mem_cons_self
      have hd : t.Knows domain := ht.named _ _ hv domain List.mem_cons_self
      exact (checkExistential_settles het hd hp).imp fun c u htu _ hc =>
        .inl ⟨domain, predicate, htu.value? hv, hc⟩
    | universal domain predicate =>
      have hp : t.Holds predicate := ht.holds_of_child hv List.mem_cons_self
      have hd : t.Knows domain := ht.named _ _ hv domain List.mem_cons_self
      exact (checkUniversal_settles het hd hp).imp fun c u htu _ hc =>
        .inr ⟨domain, predicate, htu.value? hv, hc⟩
    | _ => exact .throw _

end

end Check

namespace Executor

/-! ### Statements that are proved -/

/-- The proof is an induction with the base and the step: there are few elements and few
lists over them, and each is covered. -/
def ProvesByInduction (e : Executor) (config : CheckConfig) (steps : Nat) (elem : ShapeId)
    (predicate proof base step : Addr) (s : Store) : Prop :=
  ∃ elems, s.Enumerates elem config.maxDomain (some elems) ∧
    min (∑ k ∈ Finset.range (config.inductionDepth + 1), elems.length ^ k) Store.maxCount ≤
      config.maxDomain ∧
    ∀ items : List Addr, items.length ≤ config.inductionDepth → (∀ x ∈ items, x ∈ elems) →
      ∃ list given, (⟨predicate, proof, base, step, elems⟩ : Induction).Covers
        (e.Gives steps · · s) s elem items list given

/-- With so many steps for each application, the proof proves the statement.

* Some value: the proof is a pair of a witness of the domain, for which the predicate
  holds, and evidence.
* Every value: the proof is a function of the domain. If the domain is small enough, the
  predicate holds of every member and the proof gives evidence for it. Otherwise the domain
  is lists, and the proof has captured a base and a step, and is an induction. -/
def Proves (e : Executor) (config : CheckConfig) (steps : Nat) (proof : Addr) (s : Store) :
    Value → Prop
  | .existential domain predicate =>
    ∃ witness given, s.value? proof = some (.tuple #[witness, given]) ∧
      s.fits witness domain = true ∧ e.Succeeds steps predicate witness s Addr.proved ∧
      s.IsEvidence given
  | .universal domain predicate =>
    ∃ f captures body, s.value? proof = some (.function f captures) ∧ s.body? f = some body ∧
      body.params = [domain] ∧
      ((∃ n ≤ config.maxDomain, s.cardinality domain = some n) →
        ∀ x, s.Member domain x → e.Establishes steps predicate proof x s) ∧
      ((¬∃ n ≤ config.maxDomain, s.cardinality domain = some n) →
        ∃ elem base step, captures = #[base, step] ∧ s.shape? domain = some (.list elem) ∧
          arity? s step = some 2 ∧
          e.ProvesByInduction config steps elem predicate proof base step s)
  | _ => False

variable {c : Checked}

theorem TellsWitness.proved_iff (h : e.TellsWitness steps domain predicate proof s c)
    (hn : steps ≤ n) :
    c.verdict = .proved ↔ e.Proves config n proof s (.existential domain predicate) := by
  cases c with
  | proved =>
    obtain ⟨witness, given, hv, hf, hp, hg⟩ := h
    exact iff_of_true rfl ⟨witness, given, hv, hf, hp.gives hn, hg⟩
  | disproved reason =>
    refine iff_of_false (fun hv => by cases hv) ?_
    rintro ⟨witness, given, hv, hf, hp, hg⟩
    rcases h with ⟨-, hnone⟩ | ⟨witness', given', hv', h⟩
    · exact hnone _ _ hv
    · cases hv.symm.trans hv'
      rcases h with ⟨-, hnf⟩ | ⟨-, href⟩ | ⟨-, -, -, hng⟩
      · cases hf.symm.trans hnf
      · exact href.not_succeeds hn hp
      · exact hng hg
  | inconclusive => exact h.elim

theorem TellsInduction.proved_iff (hs : s.WellFormed) {base step : Addr}
    (h : e.TellsInduction steps config elem predicate proof base step s c) (hn : steps ≤ n) :
    c.verdict = .proved ↔ e.ProvesByInduction config n elem predicate proof base step s := by
  rcases h with ⟨rfl, hmany⟩ | ⟨elems, helems, hfew, htells⟩
  · refine iff_of_false (fun hv => by cases hv) ?_
    rintro ⟨elems, helems, hfew, -⟩
    have := hmany elems.length helems.2.1 helems.1
    rw [listCount_eq] at this
    omega
  · have hiff := htells.proved_iff
      (P := fun items => ∃ list given, (⟨predicate, proof, base, step, elems⟩ : Induction).Covers
        (e.Gives n · · s) s elem items list given)
      (fun items hc => hc.imp fun _ hc => hc.imp fun _ hc => hc.gives hn)
      (fun items reason hr ⟨_, given, hc⟩ => hr.not_covers hs hn given hc)
    rw [hiff]
    constructor
    · intro hall
      rw [listCount_eq] at hfew
      exact ⟨elems, helems, hfew, fun items hl hx =>
        hall items (Induction.mem_visits_nil.mpr ⟨hl, hx⟩)⟩
    · rintro ⟨elems', helems', -, hall⟩ items hitems
      obtain ⟨hl, hx⟩ := Induction.mem_visits_nil.mp hitems
      -- Both lists of elements have all members, so they have the same.
      obtain ⟨list, given, hc⟩ := hall items hl fun x hmem =>
        (helems'.2.2 x).mpr ((helems.2.2 x).mp (hx x hmem))
      exact ⟨list, given, hc.over elems⟩

theorem TellsUniversal.proved_iff (hs : s.WellFormed)
    (h : e.TellsUniversal steps config domain predicate proof s c) (hn : steps ≤ n) :
    c.verdict = .proved ↔ e.Proves config n proof s (.universal domain predicate) := by
  rcases h with ⟨rfl, hnone⟩ | ⟨f, captures, body, hv, hb, h⟩
  · refine iff_of_false (fun hv => by cases hv) ?_
    rintro ⟨f, captures, body, hv, -⟩
    exact hnone _ _ hv
  · rcases h with ⟨rfl, hparams⟩ | ⟨hparams, ⟨values, hvalues, htells⟩ | ⟨hnone, h⟩⟩
    · refine iff_of_false (fun hv => by cases hv) ?_
      rintro ⟨f', captures', body', hv', hb', hparams', -⟩
      cases hv.symm.trans hv'
      cases hb.symm.trans hb'
      exact hparams hparams'
    · have hsmall : ∃ n ≤ config.maxDomain, s.cardinality domain = some n :=
        ⟨values.length, hvalues.1, hvalues.2.1⟩
      have hiff := htells.proved_iff (P := fun x => e.Establishes n predicate proof x s)
        (fun x ⟨_, h⟩ => h.establishes hn) fun x reason h => h.not_establishes hn
      rw [hiff]
      constructor
      · intro hall
        exact ⟨f, captures, body, hv, hb, hparams,
          fun _ x hx => hall x ((hvalues.2.2 x).mpr hx), fun h => absurd hsmall h⟩
      · rintro ⟨_, _, _, -, -, -, hall, -⟩ x hx
        exact hall hsmall x ((hvalues.2.2 x).mp hx)
    · have hlarge : ¬∃ n ≤ config.maxDomain, s.cardinality domain = some n :=
        fun ⟨k, hle, hk⟩ => absurd (hnone k hk) (Nat.not_lt.mpr hle)
      rcases h with ⟨rfl, hi⟩ | ⟨elem, base, step, hi, htells⟩
      · refine iff_of_false (fun hv => by cases hv) ?_
        rintro ⟨f', captures', body', hv', -, -, -, h⟩
        cases hv.symm.trans hv'
        obtain ⟨elem, base, step, rfl, hshape, harity, -⟩ := h hlarge
        cases hi.symm.trans (inductionOf?_eq_some_iff.mpr ⟨rfl, hshape, harity⟩)
      · rw [htells.proved_iff hs hn]
        obtain ⟨hlist, hshape, harity⟩ := inductionOf?_eq_some_iff.mp hi
        have hcaptures : captures = #[base, step] := Array.toList_inj.mp hlist
        constructor
        · exact fun h => ⟨f, captures, body, hv, hb, hparams, fun h' => absurd h' hlarge,
            fun _ => ⟨elem, base, step, hcaptures, hshape, harity, h⟩⟩
        · rintro ⟨f', captures', body', hv', -, -, -, h⟩
          cases hv.symm.trans hv'
          obtain ⟨elem', base', step', rfl, hshape', harity', h⟩ := h hlarge
          cases hi.symm.trans (inductionOf?_eq_some_iff.mpr ⟨rfl, hshape', harity'⟩)
          exact h

end Executor

namespace Checker

variable {c c' : Checker} {s' : Store} {checked : Checked}

theorem check_of_known (h : c.cache[(spec, proof)]? = some checked) :
    c.check spec proof steps s = (.ok checked, s, { c with hits := c.hits + 1 }) := by
  unfold check
  rw [h]

/-- A check that is not answered from memory is made. Only its verdict is remembered. -/
theorem check_of_missing (h : c.cache[(spec, proof)]? = none) :
    c.check spec proof steps s =
      match Check.check c.executor c.config spec proof ⟨s, steps⟩ with
      | .ok checked b => (.ok checked, b.store,
          { c with misses := c.misses + 1, cache := c.cache.insert (spec, proof) checked })
      | .error err b => (.error err, b.store, { c with misses := c.misses + 1 }) := by
  unfold check
  rw [h]
  dsimp only
  cases Check.check c.executor c.config spec proof ⟨s, steps⟩ <;> rfl

theorem check_of_ok (h : c.cache[(spec, proof)]? = none) {b : Budget}
    (hr : Check.check c.executor c.config spec proof ⟨s, steps⟩ = .ok checked b) :
    c.check spec proof steps s = (.ok checked, b.store,
      { c with misses := c.misses + 1, cache := c.cache.insert (spec, proof) checked }) := by
  rw [check_of_missing h, hr]

theorem check_of_error (h : c.cache[(spec, proof)]? = none) {err : CheckError} {b : Budget}
    (hr : Check.check c.executor c.config spec proof ⟨s, steps⟩ = .error err b) :
    c.check spec proof steps s = (.error err, b.store, { c with misses := c.misses + 1 }) := by
  rw [check_of_missing h, hr]

end Checker

/-! ### A statement that is proved -/

/-- A predicate on the empty tuple that always holds. -/
def Body.always : Body := ⟨[ShapeId.unit], ShapeId.truth, 1, #[.const 0 Addr.proved, .ret 0]⟩

namespace Store

variable {s : Store}

/-- The first store with the predicate. -/
def withAlways : Store :=
  ⟨initial.values.insert (.function ⟨0⟩ #[]), initial.shapes, #[Body.always]⟩

/-- The same with a pair of the empty tuple and evidence. -/
def withWitness : Store :=
  { withAlways with values := withAlways.values.insert (.tuple #[Addr.unit, Addr.proved]) }

/-- The same with the statement that the predicate holds of some value. -/
def withStatement : Store :=
  { withWitness with
    values := withWitness.values.insert (.existential ShapeId.unit ⟨3⟩) }

theorem register_always : (Operation.register Body.always).apply .initial = withAlways :=
  register_initial rfl

theorem reachable_always : Reachable withAlways :=
  register_always ▸ .step (.register Body.always) .initial

theorem reachable_witness : Reachable withWitness := by
  refine reachable_of_new reachable_always rfl rfl ?_ (by decide)
  rw [withAlways, Interner.toList_insert, initial_values.1]
  decide

theorem reachable_statement : Reachable withStatement := by
  refine reachable_of_new reachable_witness rfl rfl ?_ (by decide)
  rw [withWitness, Interner.toList_insert, withAlways, Interner.toList_insert, initial_values.1]
  decide

/-- The same with the shape of the outcomes of the predicate. -/
def withAnswers : Store :=
  { withStatement with shapes := initial.shapes.insert (.cotuple #[ShapeId.truth, ShapeId.text]) }

/-- The same with the outcome of the predicate on the empty tuple. -/
def withVerdict : Store :=
  { withAnswers with values := withAnswers.values.insert (.cotuple ⟨5⟩ 0 Addr.proved) }

theorem shape_answers : Outcome.shape ShapeId.truth withStatement = .ok ⟨5⟩ withAnswers :=
  shape_of_new (s := withStatement) (by exact initial_find?_shape_eq_none (by decide)) rfl
    (by decide)

theorem reachable_answers : Reachable withAnswers := by
  have h := reachable_statement.step (.outcomeShape ShapeId.truth)
  rwa [Operation.apply, shape_answers] at h

theorem evaluate_always :
    Check.evaluate (.machine .standard) ⟨3⟩ Addr.unit ⟨withStatement, 2⟩ =
      .ok ⟨6⟩ ⟨withVerdict, 0⟩ := by
  have hnew : Value.cotuple ⟨5⟩ 0 Addr.proved ∉ withAnswers.values.toList := by
    show _ ∉ withStatement.values.toList
    rw [withStatement, Interner.toList_insert, withWitness, Interner.toList_insert, withAlways,
      Interner.toList_insert, initial_values.1]
    decide
  have houtcome : cotuple ⟨5⟩ 0 Addr.proved withAnswers = .ok ⟨6⟩ withVerdict :=
    intern_of_new reachable_answers.wellFormed rfl rfl hnew (by decide)
  have hsettle : Evaluation.settle ⟨5⟩ (.ok Addr.proved) ⟨withAnswers, 0, .start .none⟩ =
      .ok ⟨6⟩ ⟨withVerdict, 0, .start .none⟩ := by
    have h : Evaluation.outcomeOf ⟨5⟩ (.ok Addr.proved) withAnswers =
        .ok (⟨6⟩, none) withVerdict := by
      show (liftM (cotuple ⟨5⟩ 0 Addr.proved) >>= fun a => pure (a, none) :
        EStateM EvalError Store (Addr × Option Fault)) withAnswers = _
      refine run_bind_of_ok ?_
      rw [Evaluation.lift_eq, houtcome]
    exact Evaluation.settle_of_ok h
  have hshape : Outcome.shape (withStatement.resultShape ⟨3⟩) withStatement = .ok ⟨5⟩ withAnswers :=
    shape_answers
  refine evaluate_eq_ok_iff.mpr ⟨⟨withVerdict, 0, .start .none⟩, ?_, rfl⟩
  exact (Evaluation.conduct_of_shape hshape rfl).trans hsettle

theorem check_statement :
    Check.check (.machine .standard) .standard ⟨5⟩ ⟨4⟩ ⟨withStatement, 2⟩ =
      .ok .proved ⟨withVerdict, 0⟩ := by
  have happly : Check.apply (.machine .standard) ⟨3⟩ Addr.unit ⟨withStatement, 2⟩ =
      .ok (.value Addr.proved) ⟨withVerdict, 0⟩ := (run_bind_of_ok evaluate_always).trans rfl
  have hholds : Check.refutation? (.machine .standard) ⟨3⟩ Addr.unit ⟨withStatement, 2⟩ =
      .ok none ⟨withVerdict, 0⟩ := (run_bind_of_ok happly).trans rfl
  show Check.checkExistential (.machine .standard) ShapeId.unit ⟨3⟩ ⟨4⟩ ⟨withStatement, 2⟩ = _
  have hproof : Check.ask (fun s => s.resolve ⟨4⟩) ⟨withStatement, 2⟩ =
      .ok (.tuple #[Addr.unit, Addr.proved]) ⟨withStatement, 2⟩ := rfl
  have hconforms : Check.ask (fun s => s.conforms Addr.unit ShapeId.unit) ⟨withStatement, 2⟩ =
      .ok true ⟨withStatement, 2⟩ := rfl
  rw [Check.checkExistential, run_bind_of_ok hproof]
  show (Check.ask (fun s => s.conforms Addr.unit ShapeId.unit) >>= _ : Check Checked) _ = _
  rw [run_bind_of_ok hconforms]
  exact (run_bind_of_ok hholds).trans rfl

end Store

end ValueMachine
