import ValueMachine.Proofs.Eval.Fuel
import ValueMachine.Proofs.Eval.Repetition
import ValueMachine.Proofs.Store.Enumeration

/-! Checks that are done again.

An application that has been made once yields its answer in every later store, with the
same steps or more, and adds nothing there (`Executor.Yields`). So what a check has found
out stays known while the check makes the store grow, and a check that succeeds `Settles`:
done again on any store that has come of the one it leaves, it succeeds in the same way,
for the same price, and adds nothing. -/
namespace ValueMachine

open Store (Extends Lasts)

variable {e : Executor} {s t : Store} {steps : Nat}

/-! ### Answers of applications -/

/-- An outcome is read in the same way in every later store. -/
theorem Outcome.decode_mono {o : Addr} {x : Outcome} (hst : s.Extends t)
    (h : decode s o = .ok x) : decode t o = .ok x := by
  obtain ⟨v, hv, h⟩ := bind_eq_ok_iff.mp h
  have hv' := Store.lift_resolve_eq_ok_iff.mpr (hst.value? (Store.lift_resolve_eq_ok_iff.mp hv))
  refine bind_eq_ok_iff.mpr ⟨v, hv', ?_⟩
  cases v with
  | cotuple id tag payload =>
    obtain ⟨alternatives, ha, h⟩ := bind_eq_ok_iff.mp h
    have ha' := ShapeTable.lift_alternatives_eq_ok_iff.mpr
      (hst.shape? (ShapeTable.lift_alternatives_eq_ok_iff.mp ha))
    exact bind_eq_ok_iff.mpr ⟨alternatives, ha', h⟩
  | _ => exact h

/-- The outcome reads as a value or as the text of a fault. -/
def Outcome.Reads (s : Store) (o : Addr) : Answer → Prop
  | .value a => decode s o = .ok (.ok a) ∧ s.Holds a
  | .failed message => ∃ text, decode s o = .ok (.err text) ∧ s.value? text = some (.text message)

theorem Outcome.Reads.mono {o : Addr} {a : Answer} (hst : s.Extends t) (h : Reads s o a) :
    Reads t o a := by
  cases a with
  | value x => exact ⟨decode_mono hst h.1, h.2.mono hst⟩
  | failed message => exact h.imp fun _ h => ⟨decode_mono hst h.1, hst.value? h.2⟩

namespace Executor

/-- The executor is one for the store: if it runs a program, this was composed from the
store or from an earlier state of it. -/
structure Serves (e : Executor) (s : Store) : Prop where
  sound : s.WellFormed
  composed : ∃ base, e.For base ∧ base.Extends s

theorem For.serves (he : e.For s) (hs : s.WellFormed) : e.Serves s := ⟨hs, s, he, .refl s⟩

theorem Serves.mono (h : e.Serves s) (hst : s.Extends t) (ht : t.WellFormed) : e.Serves t :=
  ⟨ht, h.composed.imp fun _ hb => ⟨hb.1, hb.2.trans hst⟩⟩

/-- What the application of a function comes to with so many steps: a value or the text of
a fault. -/
def Gives (e : Executor) (steps : Nat) (func arg : Addr) (s : Store) : Answer → Prop
  | .value a => e.Succeeds steps func arg s a
  | .failed message => ∃ text, e.outcome? steps func arg s = some (.err text) ∧
      (e.evaluateWith steps func arg s).state.store.value? text = some (.text message)

/-- With so many steps or more, the application comes to the answer, and the store has
already all that it makes. -/
structure Yields (e : Executor) (steps : Nat) (func arg : Addr) (s : Store) (a : Answer) :
    Prop where
  function : s.Holds func
  argument : s.Holds arg
  outcome : ∃ o, Outcome.Reads s o a ∧
    ∀ n, steps ≤ n → ∃ r, r.store = s ∧ e.evaluateWith n func arg s = .ok o r

variable {func arg : Addr} {a b : Answer}

theorem Gives.unique (h : e.Gives steps func arg s a) (h' : e.Gives steps func arg s b) :
    a = b := by
  cases a with
  | value x =>
    cases b with
    | value y =>
      cases Option.some.inj (Eq.trans h.symm h')
      rfl
    | failed message =>
      obtain ⟨text, h', -⟩ := h'
      cases Option.some.inj (Eq.trans h.symm h')
  | failed message =>
    obtain ⟨text, h, hv⟩ := h
    cases b with
    | value y => cases Option.some.inj (Eq.trans h.symm h')
    | failed message' =>
      obtain ⟨text', h', hv'⟩ := h'
      cases Option.some.inj (h.symm.trans h')
      cases hv.symm.trans hv'
      rfl

namespace Yields

theorem gives (h : e.Yields steps func arg s a) {n : Nat} (hn : steps ≤ n) :
    e.Gives n func arg s a := by
  obtain ⟨o, ho, hr⟩ := h.outcome
  obtain ⟨r, hstay, hr⟩ := hr n hn
  rw [← hstay] at ho
  cases a with
  | value x => exact outcome?_of_ok hr ho.1
  | failed message =>
    obtain ⟨text, hd, hv⟩ := ho
    refine ⟨text, outcome?_of_ok hr hd, ?_⟩
    rw [hr]
    exact hv

/-- What an application comes to is known for good. -/
theorem mono (h : e.Yields steps func arg s a) (he : e.Serves s) (hst : s.Extends t)
    (ht : t.WellFormed) : e.Yields steps func arg t a := by
  obtain ⟨hs, base, hfor, hb⟩ := he
  obtain ⟨hf, ha, o, ho, hruns⟩ := h
  refine ⟨hf.mono hst, ha.mono hst, o, ho.mono hst, fun n hn => ?_⟩
  obtain ⟨r, hstay, hr⟩ := hruns n hn
  have hagain := (evaluateWith_reruns hfor hb hs hf ha n).again t ht
  rw [hr] at hagain
  exact ⟨{ r with store := t }, rfl, hagain (hstay ▸ hst)⟩

end Yields

/-- An evaluation that has an outcome has it again in every later store, with as much fuel
as it has used or more. -/
theorem Serves.evaluate_anew (he : e.Serves s) (hf : s.Holds func) (ha : s.Holds arg) {fuel : Nat}
    {o : Addr} {r : RunState} (hr : e.evaluateWith fuel func arg s = .ok o r) :
    ∃ price, fuel = r.fuel + price ∧ ∀ n (t : Store), t.WellFormed → r.store.Extends t →
      price ≤ n → ∃ u, u.store = t ∧ u.fuel = n - price ∧
        e.evaluateWith n func arg t = .ok o u := by
  obtain ⟨hs, base, hfor, hb⟩ := he
  have hspent := e.spent_eq fuel func arg s
  have henough := @enough_fuel e s hfor.composed fuel func arg
  rw [hr] at hspent henough
  refine ⟨_, hspent.symm, fun n t ht hst hn => ?_⟩
  obtain ⟨hanswer, hstore, hfuel⟩ := henough (fun h => by cases h) hn
  have hagain := (evaluateWith_reruns hfor hb hs hf ha n).again t ht
  cases hu : e.evaluateWith n func arg s with
  | error err u =>
    rw [hu] at hanswer
    cases hanswer
  | ok o' u =>
    rw [hu] at hanswer hstore hfuel hagain
    cases hanswer
    exact ⟨{ u with store := t }, rfl, hfuel, hagain (hstore ▸ hst)⟩

end Executor

namespace Check

/-! ### Checks that succeed -/

variable {α β : Type}

/-- If the check succeeds within the steps, what is said of its value holds of the store
it leaves; and it succeeds again on every store that has come of that one, with the same
value and for the same price, and adds nothing. -/
def Settles (steps : Nat) (op : Check α) (s : Store) (P : α → Store → Prop) : Prop :=
  ∀ fuel x b, fuel ≤ steps → op ⟨s, fuel⟩ = .ok x b →
    s.Extends b.store ∧ b.store.WellFormed ∧ P x b.store ∧ ∃ price, fuel = b.fuel + price ∧
      ∀ (t : Store) (more : Nat), t.WellFormed → b.store.Extends t → price ≤ more →
        op ⟨t, more⟩ = .ok x ⟨t, more - price⟩

theorem ask_eq_ok_iff {question : Store → Except StoreError α} {x : α} {b b' : Budget} :
    ask question b = .ok x b' ↔ question b.store = .ok x ∧ b' = b := by
  obtain ⟨store, fuel⟩ := b
  show (liftM (Store.ask question) : Check α) ⟨store, fuel⟩ = _ ↔ question store = _ ∧ _
  rw [lift_eq]
  unfold Store.ask
  cases question store with
  | ok y => simp [eq_comm]
  | error err => simp

namespace Settles

variable {op : Check α} {next : α → Check β} {P : α → Store → Prop}

theorem imp {Q : α → Store → Prop} (h : Settles steps op s P)
    (hPQ : ∀ x t, s.Extends t → t.WellFormed → P x t → Q x t) : Settles steps op s Q := by
  intro fuel x b hle hx
  obtain ⟨hst, ht, hP, hagain⟩ := h fuel x b hle hx
  exact ⟨hst, ht, hPQ x b.store hst ht hP, hagain⟩

theorem pure (h : s.WellFormed) {x : α} (hx : P x s) : Settles steps (Pure.pure x) s P := by
  rintro fuel y b - hy
  obtain ⟨rfl, rfl⟩ := run_pure_eq_ok_iff.mp hy
  exact ⟨.refl s, h, hx, 0, rfl, fun t more _ _ _ => rfl⟩

theorem throw (error : CheckError) : Settles steps (throwThe CheckError error) s P := by
  rintro fuel y b - hy
  cases hy

/-- A check in two parts settles if the second does wherever the first leads. The prices
add up. -/
theorem bind {Q : β → Store → Prop} (h : Settles steps op s P)
    (hn : ∀ x t, s.Extends t → t.WellFormed → P x t → Settles steps (next x) t Q) :
    Settles steps (op >>= next) s Q := by
  intro fuel y b hle hy
  obtain ⟨x, b₁, hx, hy⟩ := run_bind_eq_ok_iff.mp hy
  obtain ⟨hst, ht, hP, price, hprice, hagain⟩ := h fuel x b₁ hle hx
  obtain ⟨hst', ht', hQ, price', hprice', hagain'⟩ :=
    hn x b₁.store hst ht hP b₁.fuel y b (by omega) hy
  refine ⟨hst.trans hst', ht', hQ, price + price', by omega, fun t more ht hst hmore => ?_⟩
  rw [run_bind_of_ok (hagain t more ht (hst'.trans hst) (by omega)),
    hagain' t (more - price) ht hst (by omega), Nat.sub_sub]

/-- Store operations are free, and what is said of their values lasts. -/
theorem lift_lasting {op : StoreM α} (h : Store.Settles op s P) :
    Settles steps (liftM op : Check α) s fun x t =>
      ∀ u : Store, u.WellFormed → t.Extends u → P x u := by
  rintro fuel x b - hx
  rw [lift_eq] at hx
  cases hr : op s with
  | ok y u =>
    rw [hr] at hx
    cases hx
    obtain ⟨hst, ht, hagain⟩ := h x u hr
    refine ⟨hst, ht, fun v hv huv => (hagain v hv huv).2, 0, rfl, fun t more ht hst _ => ?_⟩
    rw [lift_eq, (hagain t ht hst).1]
    rfl
  | error err u =>
    rw [hr] at hx
    cases hx

theorem lift {op : StoreM α} (h : Store.Settles op s P) : Settles steps (liftM op : Check α) s P :=
  (lift_lasting h).imp fun _ t _ ht hP => hP t ht (.refl t)

/-- A check that asks first settles if the answer is for good and the rest settles. -/
theorem ask_bind {Q : β → Store → Prop} {question : Store → Except StoreError α}
    (hq : ∀ x, question s = .ok x →
      (∀ t : Store, t.WellFormed → s.Extends t → question t = .ok x) ∧
        Settles steps (next x) s Q) : Settles steps (ask question >>= next) s Q := by
  intro fuel y b hle hy
  obtain ⟨x, b₁, hask, hy⟩ := run_bind_eq_ok_iff.mp hy
  obtain ⟨hx, rfl⟩ := ask_eq_ok_iff.mp hask
  obtain ⟨hlasts, hnext⟩ := hq x hx
  obtain ⟨hst, ht, hQ, price, hprice, hagain⟩ := hnext fuel y b hle hy
  refine ⟨hst, ht, hQ, price, hprice, fun t more ht hst' hmore => ?_⟩
  have hask : ask question ⟨t, more⟩ = .ok x ⟨t, more⟩ :=
    ask_eq_ok_iff.mpr ⟨hlasts t ht (hst.trans hst'), rfl⟩
  rw [run_bind_of_ok hask, hagain t more ht hst' hmore]

theorem value_bind {Q : β → Store → Prop} {next : Value → Check β} {a : Addr}
    (hn : ∀ v, s.value? a = some v → Settles steps (next v) s Q) :
    Settles steps (ask (fun s => s.resolve a) >>= next) s Q := by
  refine ask_bind fun v hv => ?_
  have hv := Store.lift_resolve_eq_ok_iff.mp hv
  exact ⟨fun t _ hst => Store.lift_resolve_eq_ok_iff.mpr (hst.value? hv), hn v hv⟩

/-- Checks made one by one, where what is said of their values holds for good. -/
theorem mapM (h : s.WellFormed) {f : β → Check α} {P : β → α → Store → Prop} {xs : List β}
    (hP : ∀ x y (t u : Store), P x y t → t.Extends u → P x y u)
    (hf : ∀ x ∈ xs, ∀ t : Store, s.Extends t → t.WellFormed → Settles steps (f x) t (P x)) :
    Settles steps (xs.mapM f) s fun ys t => List.Forall₂ (fun x y => P x y t) xs ys := by
  induction xs generalizing s with
  | nil => exact .pure h .nil
  | cons x xs ih =>
    obtain ⟨hx, hxs⟩ := List.forall_mem_cons.mp hf
    rw [List.mapM_cons]
    refine (hx s (.refl s) h).bind fun y t hst ht hy => ?_
    refine (ih ht fun x hx u hst' => hxs x hx u (hst.trans hst')).bind fun ys u hst' hu hys => ?_
    exact .pure hu (.cons (hP x y t u hy hst') hys)

end Settles

/-! ### Applications -/

theorem evaluate_eq_ok_iff {func arg : Addr} {fuel : Nat} {o : Addr} {b : Budget} :
    evaluate e func arg ⟨s, fuel⟩ = .ok o b ↔
      ∃ r, e.evaluateWith fuel func arg s = .ok o r ∧ b = ⟨r.store, r.fuel⟩ := by
  unfold evaluate
  dsimp only
  cases e.evaluateWith fuel func arg s with
  | ok o' r => simp [eq_comm]
  | error err r => simp

section
variable (he : e.Serves s)
include he

/-- An evaluation that has an outcome settles. -/
theorem evaluate_settles {func arg : Addr} (hf : s.Holds func) (ha : s.Holds arg) :
    Settles steps (evaluate e func arg) s fun o t =>
      (∃ result, Outcome.Proper t result o) ∧
        ∀ n, steps ≤ n → ∃ r, r.store = t ∧ e.evaluateWith n func arg t = .ok o r := by
  intro fuel o b hle ho
  obtain ⟨r, hr, rfl⟩ := evaluate_eq_ok_iff.mp ho
  obtain ⟨price, hprice, hagain⟩ := he.evaluate_anew hf ha hr
  obtain ⟨hs, base, hfor, hb⟩ := he
  have hruns := Executor.evaluateWith_reruns hfor hb hs hf ha fuel
  have hproper := Executor.evaluate_proper hfor.composed (r := ⟨s, fuel, .start .none⟩) hs func arg
  obtain ⟨hgrown, hsound, -⟩ := hruns
  rw [hr] at hgrown hsound
  refine ⟨hgrown, hsound, ⟨⟨_, hproper.of_ok hr⟩, fun n hn => ?_⟩, price, hprice, ?_⟩
  · obtain ⟨u, hu, -, hn⟩ := hagain n r.store hsound (.refl _) (by omega)
    exact ⟨u, hu, hn⟩
  · intro t more ht hst hmore
    obtain ⟨u, rfl, hfuel, hu⟩ := hagain more t ht hst hmore
    exact evaluate_eq_ok_iff.mpr ⟨u, hu, by rw [hfuel]⟩

/-- An application that has an answer settles. -/
theorem apply_settles {func arg : Addr} (hf : s.Holds func) (ha : s.Holds arg) :
    Settles steps (apply e func arg) s fun a t => e.Yields steps func arg t a := by
  refine (evaluate_settles he hf ha).bind fun o t hst ht ho => ?_
  obtain ⟨⟨result, shape, tag, payload, hv, hshape, ho⟩, hruns⟩ := ho
  refine .ask_bind fun x hx => ⟨fun u _ htu => Outcome.decode_mono htu hx, ?_⟩
  rcases ho with ⟨-, hd, hfits⟩ | ⟨-, hd, report, hreport⟩
  · cases hx.symm.trans hd
    exact .pure ht ⟨hf.mono hst, ha.mono hst, o, ⟨hd, (Store.holds_of_fits hfits).1⟩, hruns⟩
  · cases hx.symm.trans hd
    have htext {u : Store} (htu : t.Extends u) : u.text? payload = some report := by
      unfold Store.text?
      rw [htu.value? hreport]
    refine .ask_bind fun y hy => ⟨fun u _ htu => ?_, ?_⟩
    · rw [htext htu, ← htext (.refl t)]
      exact hy
    · cases hy
      rw [htext (.refl t)]
      exact .pure ht ⟨hf.mono hst, ha.mono hst, o, ⟨payload, hd, hreport⟩, hruns⟩

end

end Check

end ValueMachine
