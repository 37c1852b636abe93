import Mathlib.Algebra.Group.Nat.Defs
import Mathlib.Data.List.Forall2
import Mathlib.Order.Defs.Unbundled

/-! Computations that leave a state.

A computation over a state gives a value or an error, and a state in either case.
Three ways of speaking about it are used throughout. `Ends` says what holds of the
value or the error and of the state that is left. `Follows` says that the state
that is left is related to the state before, whatever the end; for a relation that
can be chained, it is enough that every part follows it. `Agree` says how the ends of
two computations compare; two computations in parts agree if their parts do. -/

namespace EStateM.Result

/-- The state that is left. -/
def state {ε σ α : Type} : EStateM.Result ε σ α → σ
  | .ok _ s => s
  | .error _ s => s

/-- The value or the error, without the state. -/
def answer {ε σ α : Type} : EStateM.Result ε σ α → Except ε α
  | .ok x _ => .ok x
  | .error e _ => .error e

/-- The same end with another state. -/
def leaving {ε σ τ α : Type} (r : EStateM.Result ε σ α) (t : τ) : EStateM.Result ε τ α :=
  match r with
  | .ok x _ => .ok x t
  | .error e _ => .error e t

@[simp] theorem state_ok {ε σ α : Type} (x : α) (s : σ) : (ok x s : Result ε σ α).state = s := rfl

@[simp] theorem state_error {ε σ α : Type} (e : ε) (s : σ) :
    (error e s : Result ε σ α).state = s := rfl

@[simp] theorem answer_ok {ε σ α : Type} (x : α) (s : σ) :
    (ok x s : Result ε σ α).answer = .ok x := rfl

@[simp] theorem answer_error {ε σ α : Type} (e : ε) (s : σ) :
    (error e s : Result ε σ α).answer = .error e := rfl

@[simp] theorem leaving_ok {ε σ τ α : Type} (x : α) (s : σ) (t : τ) :
    (ok x s : Result ε σ α).leaving t = ok x t := rfl

@[simp] theorem leaving_error {ε σ τ α : Type} (e : ε) (s : σ) (t : τ) :
    (error e s : Result ε σ α).leaving t = error e t := rfl

@[simp] theorem answer_leaving {ε σ τ α : Type} (r : EStateM.Result ε σ α) (t : τ) :
    (r.leaving t).answer = r.answer := by
  cases r <;> rfl

@[simp] theorem state_leaving {ε σ τ α : Type} (r : EStateM.Result ε σ α) (t : τ) :
    (r.leaving t).state = t := by
  cases r <;> rfl

end EStateM.Result

namespace ValueMachine

variable {ε ε' σ τ α β γ : Type}

/-! ### Answers -/

section Answers
variable {x : Except ε α}

theorem bind_eq_ok_iff {f : α → Except ε β} {y : β} :
    x >>= f = .ok y ↔ ∃ a, x = .ok a ∧ f a = .ok y := by
  cases x <;> simp [Bind.bind, Except.bind]

theorem bind_eq_error_iff {f : α → Except ε β} {e : ε} :
    x >>= f = .error e ↔ x = .error e ∨ ∃ a, x = .ok a ∧ f a = .error e := by
  cases x <;> simp [Bind.bind, Except.bind]

theorem mapError_eq_error_iff {f : ε → ε'} {e : ε'} :
    x.mapError f = .error e ↔ ∃ cause, x = .error cause ∧ f cause = e := by
  cases x with
  | ok a =>
    show (.ok a : Except ε' α) = .error e ↔ _
    simp
  | error cause =>
    show (.error (f cause) : Except ε' α) = .error e ↔ _
    simp

theorem discard_eq_ok_iff {u : Unit} : discard x = .ok u ↔ ∃ a, x = .ok a := by
  cases x <;> simp [discard, Functor.mapConst, Except.map]

theorem mapError_eq_ok_iff {f : ε → ε'} {a : α} : x.mapError f = .ok a ↔ x = .ok a := by
  cases x with
  | ok b =>
    show (.ok b : Except ε' α) = .ok a ↔ _
    simp
  | error cause =>
    show (.error (f cause) : Except ε' α) = .ok a ↔ _
    simp

theorem forM_eq_ok_iff {f : α → Except ε Unit} {xs : List α} {u : Unit} :
    xs.forM f = .ok u ↔ ∀ x ∈ xs, f x = .ok () := by
  induction xs with
  | nil => exact ⟨fun _ _ h => absurd h List.not_mem_nil, fun _ => rfl⟩
  | cons x xs ih =>
    show (f x >>= fun _ => xs.forM f) = .ok u ↔ _
    rw [bind_eq_ok_iff, List.forall_mem_cons]
    constructor
    · rintro ⟨_, hx, hxs⟩
      exact ⟨hx, ih.mp hxs⟩
    · rintro ⟨hx, hxs⟩
      exact ⟨_, hx, ih.mpr hxs⟩

theorem mapM_eq_ok_iff {f : α → Except ε β} {xs : List α} {ys : List β} :
    xs.mapM f = .ok ys ↔ List.Forall₂ (fun x y => f x = .ok y) xs ys := by
  induction xs generalizing ys with
  | nil => simp [Pure.pure, Except.pure, eq_comm]
  | cons x xs ih =>
    rw [List.mapM_cons, bind_eq_ok_iff]
    constructor
    · rintro ⟨y, hy, h⟩
      obtain ⟨ys, hys, h⟩ := bind_eq_ok_iff.mp h
      cases h
      exact .cons hy (ih.mp hys)
    · intro h
      cases h with
      | cons hy hys => exact ⟨_, hy, bind_eq_ok_iff.mpr ⟨_, ih.mpr hys, rfl⟩⟩

/-- A list is answered if all of it is. -/
theorem exists_mapM_eq_ok_iff {f : α → Except ε β} {xs : List α} :
    (∃ ys, xs.mapM f = .ok ys) ↔ ∀ x ∈ xs, ∃ y, f x = .ok y := by
  induction xs with
  | nil => exact iff_of_true ⟨[], rfl⟩ fun x hx => absurd hx List.not_mem_nil
  | cons x xs ih =>
    rw [List.forall_mem_cons, ← ih]
    simp only [List.mapM_cons, bind_eq_ok_iff]
    constructor
    · rintro ⟨_, y, hy, ys, hys, -⟩
      exact ⟨⟨y, hy⟩, ys, hys⟩
    · rintro ⟨⟨y, hy⟩, ys, hys⟩
      exact ⟨y :: ys, y, hy, ys, hys, rfl⟩

theorem guard_eq_ok_iff {p : Prop} [Decidable p] {e : ε} {u : Unit} :
    (if p then Pure.pure () else MonadExcept.throw e : Except ε Unit) = .ok u ↔ p := by
  split
  · next h => exact iff_of_true rfl h
  · next h => exact iff_of_false (fun he => by cases he) h

theorem guard_eq_error_iff {p : Prop} [Decidable p] {e e' : ε} :
    (if p then Pure.pure () else MonadExcept.throw e : Except ε Unit) = .error e' ↔
      ¬p ∧ e = e' := by
  split
  · next h => exact iff_of_false (fun he => by cases he) fun he => he.1 h
  · next h => exact ⟨fun he => ⟨h, Except.error.inj he⟩, fun he => congrArg _ he.2⟩

theorem exists_unit_iff {p : Unit → Prop} : (∃ u, p u) ↔ p () :=
  ⟨fun ⟨_, h⟩ => h, fun h => ⟨_, h⟩⟩

end Answers

/-! ### Computations that succeed -/

section Success
variable {s t : σ}

theorem run_bind_eq_ok_iff {op : EStateM ε σ α} {next : α → EStateM ε σ β} {y : β} :
    (op >>= next) s = .ok y t ↔ ∃ x s', op s = .ok x s' ∧ next x s' = .ok y t := by
  show EStateM.bind op next s = _ ↔ _
  unfold EStateM.bind
  cases op s with
  | ok x s' =>
    constructor
    · exact fun h => ⟨x, s', rfl, h⟩
    · rintro ⟨_, _, h, hn⟩
      cases h
      exact hn
  | error e s' => simp

theorem run_bind_of_ok {op : EStateM ε σ α} {next : α → EStateM ε σ β} {x : α}
    (h : op s = .ok x t) : (op >>= next) s = next x t := by
  show EStateM.bind op next s = _
  unfold EStateM.bind
  rw [h]

theorem run_bind_of_error {op : EStateM ε σ α} {next : α → EStateM ε σ β} {e : ε}
    (h : op s = .error e t) : (op >>= next) s = .error e t := by
  show EStateM.bind op next s = _
  unfold EStateM.bind
  rw [h]

theorem run_get_bind {next : σ → EStateM ε σ α} : (get >>= next) s = next s s := rfl

theorem run_map_of_ok {op : EStateM ε σ α} {f : α → β} {x : α} (h : op s = .ok x t) :
    (f <$> op) s = .ok (f x) t := by
  show EStateM.map f op s = _
  unfold EStateM.map
  rw [h]

theorem run_map_of_error {op : EStateM ε σ α} {f : α → β} {e : ε} (h : op s = .error e t) :
    (f <$> op) s = .error e t := by
  show EStateM.map f op s = _
  unfold EStateM.map
  rw [h]

theorem run_pure_eq_ok_iff {x y : α} :
    (Pure.pure x : EStateM ε σ α) s = .ok y t ↔ x = y ∧ s = t := by
  show EStateM.Result.ok x s = _ ↔ _
  rw [EStateM.Result.ok.injEq]

theorem run_throw_ne_ok {e : ε} {y : α} : (throw e : EStateM ε σ α) s ≠ .ok y t :=
  fun h => by cases h

theorem run_unless_eq_ok_iff {p : Prop} [Decidable p] {e : ε} {next : Unit → EStateM ε σ β}
    {y : β} : (if p then throw e >>= next else next () : EStateM ε σ β) s = .ok y t ↔
      ¬p ∧ next () s = .ok y t := by
  split
  · next h => exact iff_of_false run_throw_ne_ok fun hn => hn.1 h
  · next h => exact (and_iff_right h).symm

end Success

/-! ### How a computation ends -/

/-- What holds at the end: one thing of a value, another of an error. -/
def Ends (r : EStateM.Result ε σ α) (value : α → σ → Prop) (error : ε → σ → Prop) : Prop :=
  match r with
  | .ok x s => value x s
  | .error e s => error e s

namespace Ends

variable {r : EStateM.Result ε σ α} {P P' : α → σ → Prop} {E E' : ε → σ → Prop}

theorem imp (h : Ends r P E) (hP : ∀ x s, P x s → P' x s) (hE : ∀ e s, E e s → E' e s) :
    Ends r P' E' := by
  cases r with
  | ok x s => exact hP x s h
  | error e s => exact hE e s h

theorem imp_value (h : Ends r P E) (hP : ∀ x s, P x s → P' x s) : Ends r P' E :=
  h.imp hP fun _ _ he => he

theorem of_ok {x : α} {s : σ} (h : Ends r P E) (hr : r = .ok x s) : P x s := by
  subst hr
  exact h

theorem of_error {e : ε} {s : σ} (h : Ends r P E) (hr : r = .error e s) : E e s := by
  subst hr
  exact h

theorem pure {x : α} {s : σ} (h : P x s) : Ends ((Pure.pure x : EStateM ε σ α) s) P E := h

theorem throw {e : ε} {s : σ} (h : E e s) :
    Ends ((throwThe ε e : EStateM ε σ α) s) P E := h

theorem state {S : σ → Prop} (h : Ends r (fun _ s => S s) fun _ s => S s) : S r.state := by
  cases r with
  | ok x s => exact h
  | error e s => exact h

/-- A computation in two parts ends well if the second does wherever the first leads. -/
theorem bind {op : EStateM ε σ α} {next : α → EStateM ε σ β} {s : σ} {Q : β → σ → Prop}
    (h : Ends (op s) (fun x s' => Ends (next x s') Q E) E) : Ends ((op >>= next) s) Q E := by
  show Ends (EStateM.bind op next s) Q E
  unfold EStateM.bind
  cases hr : op s with
  | ok x s' =>
    rw [hr] at h
    exact h
  | error e s' =>
    rw [hr] at h
    exact h

/-- The same where nothing is asked of the first part. -/
theorem bind_any {op : EStateM ε σ α} {next : α → EStateM ε σ β} {s : σ} {Q : β → σ → Prop}
    (hn : ∀ x t, Ends (next x t) Q fun _ _ => True) :
    Ends ((op >>= next) s) Q fun _ _ => True := by
  refine bind ?_
  cases op s with
  | ok x t => exact hn x t
  | error e t => trivial

theorem map {op : EStateM ε σ α} {f : α → β} {s : σ} {Q : β → σ → Prop}
    (h : Ends (op s) (fun x s' => Q (f x) s') E) : Ends ((f <$> op) s) Q E := by
  show Ends (EStateM.map f op s) Q E
  unfold EStateM.map
  cases hr : op s with
  | ok x s' => exact h.of_ok hr
  | error e s' => exact h.of_error hr

/-- The same where the first part leaves the state as it is. -/
theorem bind_same {op : EStateM ε σ α} {next : α → EStateM ε σ β} {s : σ} {P : α → Prop}
    {Q : β → σ → Prop} (h : Ends (op s) (fun x s' => s' = s ∧ P x) E)
    (hn : ∀ x, P x → Ends (next x s) Q E) : Ends ((op >>= next) s) Q E := by
  refine bind (h.imp_value ?_)
  rintro x _ ⟨rfl, hx⟩
  exact hn x hx

end Ends

/-! ### What a computation does to its state -/

/-- The state that is left is related to the state before. -/
def Follows (R : σ → σ → Prop) (op : EStateM ε σ α) : Prop := ∀ s, R s (op s).state

namespace Follows

variable {R : σ → σ → Prop}

theorem of_ok {op : EStateM ε σ α} (h : Follows R op) {s s' : σ} {x : α} (hr : op s = .ok x s') :
    R s s' := by
  have := h s
  rwa [hr] at this

theorem of_error {op : EStateM ε σ α} (h : Follows R op) {s s' : σ} {e : ε}
    (hr : op s = .error e s') : R s s' := by
  have := h s
  rwa [hr] at this

theorem map {op : EStateM ε σ α} (f : α → β) (h : Follows R op) : Follows R (f <$> op) := by
  intro s
  show R s (EStateM.map f op s).state
  unfold EStateM.map
  cases hr : op s with
  | ok x s' => exact h.of_ok hr
  | error e s' => exact h.of_error hr

section Preorder
variable [IsPreorder σ R]

theorem pure (x : α) : Follows R (Pure.pure x : EStateM ε σ α) := fun s => refl_of R s

theorem throw (e : ε) : Follows R (throwThe ε e : EStateM ε σ α) := fun s => refl_of R s

theorem bind {op : EStateM ε σ α} {next : α → EStateM ε σ β} (h : Follows R op)
    (hn : ∀ x, Follows R (next x)) : Follows R (op >>= next) := by
  intro s
  show R s (EStateM.bind op next s).state
  unfold EStateM.bind
  cases hr : op s with
  | ok x s' => exact trans_of R (h.of_ok hr) (hn x s')
  | error e s' => exact h.of_error hr

theorem mapM {f : α → EStateM ε σ β} (h : ∀ x, Follows R (f x)) (xs : List α) :
    Follows R (xs.mapM f) := by
  induction xs with
  | nil => exact .pure _
  | cons x xs ih =>
    rw [List.mapM_cons]
    exact .bind (h x) fun y => .bind ih fun ys => .pure _

theorem foldlM {f : β → α → EStateM ε σ β} (h : ∀ y x, Follows R (f y x)) (xs : List α) (y : β) :
    Follows R (xs.foldlM f y) := by
  induction xs generalizing y with
  | nil => exact .pure _
  | cons x xs ih =>
    rw [List.foldlM_cons]
    exact .bind (h y x) ih

end Preorder

end Follows

/-! ### Two computations side by side -/

/-- Two answers are values that compare, or errors that do. -/
inductive Answers (V : α → β → Prop) (E : ε → ε' → Prop) : Except ε α → Except ε' β → Prop
  | ok {x : α} {y : β} (h : V x y) : Answers V E (.ok x) (.ok y)
  | error {e : ε} {e' : ε'} (h : E e e') : Answers V E (.error e) (.error e')

namespace Answers

variable {δ : Type} {V : α → β → Prop} {W : γ → δ → Prop} {E : ε → ε' → Prop} {x : Except ε α}
  {y : Except ε' β}

theorem bind {f : α → Except ε γ} {g : β → Except ε' δ} (h : Answers V E x y)
    (hn : ∀ a b, V a b → Answers W E (f a) (g b)) : Answers W E (x >>= f) (y >>= g) := by
  cases h with
  | ok h => exact hn _ _ h
  | error h => exact .error h

theorem discard (h : Answers V E x y) :
    Answers (fun _ _ => True) E (Functor.discard x) (Functor.discard y) := by
  cases h with
  | ok h => exact .ok trivial
  | error h => exact .error h

theorem imp {V' : α → β → Prop} (h : Answers V E x y) (hV : ∀ a b, V a b → V' a b) :
    Answers V' E x y := by
  cases h with
  | ok h => exact .ok (hV _ _ h)
  | error h => exact .error h

/-- The values that compare are the answers. -/
theorem keep (h : Answers V E x y) :
    Answers (fun a b => x = .ok a ∧ y = .ok b ∧ V a b) E x y := by
  cases h with
  | ok h => exact .ok ⟨rfl, rfl, h⟩
  | error h => exact .error h

end Answers

/-- Two computations end with values that compare, or with errors that do, unless one of
them ends with an error that settles nothing. -/
inductive Agree (lost : ε → Prop) (V : α → σ → β → σ → Prop) (E : ε → σ → ε → σ → Prop) :
    EStateM.Result ε σ α → EStateM.Result ε σ β → Prop
  | ok {x : α} {s : σ} {y : β} {t : σ} (h : V x s y t) : Agree lost V E (.ok x s) (.ok y t)
  | error {e : ε} {s : σ} {e' : ε} {t : σ} (h : E e s e' t) :
    Agree lost V E (.error e s) (.error e' t)
  | left {e : ε} {s : σ} {r : EStateM.Result ε σ β} (h : lost e) : Agree lost V E (.error e s) r
  | right {e : ε} {t : σ} {r : EStateM.Result ε σ α} (h : lost e) : Agree lost V E r (.error e t)

namespace Agree

variable {δ : Type} {lost : ε → Prop} {V V' : α → σ → β → σ → Prop} {W : γ → σ → δ → σ → Prop}
  {E : ε → σ → ε → σ → Prop} {s t : σ}

theorem imp {r : EStateM.Result ε σ α} {r' : EStateM.Result ε σ β} (h : Agree lost V E r r')
    (hV : ∀ x s y t, V x s y t → V' x s y t) : Agree lost V' E r r' := by
  cases h with
  | ok h => exact .ok (hV _ _ _ _ h)
  | error h => exact .error h
  | left h => exact .left h
  | right h => exact .right h

theorem pure {x : α} {y : β} (h : V x s y t) :
    Agree lost V E ((Pure.pure x : EStateM ε σ α) s) ((Pure.pure y : EStateM ε σ β) t) := .ok h

theorem throw {e e' : ε} (h : E e s e' t) :
    Agree lost V E ((throwThe ε e : EStateM ε σ α) s) ((throwThe ε e' : EStateM ε σ β) t) :=
  .error h

theorem bind {op : EStateM ε σ α} {op' : EStateM ε σ β} {next : α → EStateM ε σ γ}
    {next' : β → EStateM ε σ δ} (h : Agree lost V E (op s) (op' t))
    (hn : ∀ x s' y t', V x s' y t' → Agree lost W E (next x s') (next' y t')) :
    Agree lost W E ((op >>= next) s) ((op' >>= next') t) := by
  show Agree lost W E (EStateM.bind op next s) (EStateM.bind op' next' t)
  unfold EStateM.bind
  generalize op s = r at h
  generalize op' t = r' at h
  cases h with
  | ok h => exact hn _ _ _ _ h
  | error h => exact .error h
  | left h => exact .left h
  | right h => exact .right h

theorem map {op : EStateM ε σ α} {op' : EStateM ε σ β} {f : α → γ} {g : β → δ}
    (h : Agree lost (fun x s' y t' => W (f x) s' (g y) t') E (op s) (op' t)) :
    Agree lost W E ((f <$> op) s) ((g <$> op') t) := by
  show Agree lost W E (EStateM.map f op s) (EStateM.map g op' t)
  unfold EStateM.map
  generalize op s = r at h
  generalize op' t = r' at h
  cases h with
  | ok h => exact .ok h
  | error h => exact .error h
  | left h => exact .left h
  | right h => exact .right h

/-- The same where the first parts leave the states as they are. -/
theorem bind_same {op : EStateM ε σ α} {op' : EStateM ε σ β} {next : α → EStateM ε σ γ}
    {next' : β → EStateM ε σ δ} {P : α → β → Prop}
    (h : Agree lost (fun x s' y t' => s' = s ∧ t' = t ∧ P x y) E (op s) (op' t))
    (hn : ∀ x y, P x y → Agree lost W E (next x s) (next' y t)) :
    Agree lost W E ((op >>= next) s) ((op' >>= next') t) := by
  refine h.bind ?_
  rintro x _ y _ ⟨rfl, rfl, hxy⟩
  exact hn x y hxy

end Agree

end ValueMachine
