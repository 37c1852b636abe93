import ValueMachine.Proofs.Spec.Verdict

/-! The courses of a check.

A check of a statement about some value looks at one witness. A check of a statement about
every value goes through the domain if it is small enough, and else through lists, if the
proof is an induction and there are few of them. What a check with a verdict has done, and
why it has not done more, is one of the eight courses that `Check.course` tells apart. -/
namespace ValueMachine

namespace Check

/-- The proof is a function of exactly the domain that the statement is about. -/
structure Fitting (s : Store) (spec proof : Addr) (domain : ShapeId) (predicate : Addr)
    (captures : Array Addr) : Prop where
  statement : s.value? spec = some (.universal domain predicate)
  function : ∃ f body, s.value? proof = some (.function f captures) ∧ s.body? f = some body ∧
    body.params = [domain]

variable {e : Executor} {config : CheckConfig} {s t : Store} {steps : Nat} {spec proof : Addr}
  {domain elem : ShapeId} {predicate : Addr} {c : Checked} {b : Budget}

theorem Fitting.held {captures : Array Addr} (hf : Fitting s spec proof domain predicate captures)
    (hs : s.WellFormed) : s.Knows domain ∧ s.Holds predicate ∧ s.Holds proof ∧
      ∀ a ∈ captures.toList, s.Holds a := by
  obtain ⟨hspec, f, body, hproof, -⟩ := hf
  exact ⟨hs.named _ _ hspec domain List.mem_cons_self,
    hs.holds_of_child hspec List.mem_cons_self, ⟨_, hproof⟩, fun a ha => hs.holds_of_child hproof ha⟩

/-- A proof is a function of one domain only. -/
theorem Fitting.unique {domain' : ShapeId} {predicate' : Addr} {captures captures' : Array Addr}
    (h : Fitting s spec proof domain predicate captures)
    (h' : Fitting s spec proof domain' predicate' captures') :
    domain = domain' ∧ predicate = predicate' ∧ captures = captures' := by
  obtain ⟨hspec, f, body, hproof, -⟩ := h
  obtain ⟨hspec', f', body', hproof', -⟩ := h'
  cases hspec.symm.trans hspec'
  cases hproof.symm.trans hproof'
  exact ⟨rfl, rfl, rfl⟩

/-- Where an induction is checked, what it speaks of is there, and the elements are listed in
this way for good. -/
theorem Fitting.start {captures : Array Addr} {base step empty : Addr} {elems : List Addr}
    {u : Store} (hf : Fitting s spec proof domain predicate captures) (hs : s.WellFormed)
    (hind : inductionOf? s domain captures.toList = some (elem, base, step))
    (helems : Store.enumerate elem config.maxDomain s = .ok (some elems) t)
    (hnil : Store.nil elem t = .ok empty u) :
    s.Extends u ∧ u.WellFormed ∧ Induction.Held ⟨predicate, proof, base, step, elems⟩ u ∧
      u.ListOf elem [] empty ∧ ∀ v : Store, v.WellFormed → u.Extends v →
        Store.enumerate elem config.maxDomain v = .ok (some elems) v ∧
          v.Enumerates elem config.maxDomain (some elems) := by
  obtain ⟨hd, hp, hg, hcaptures⟩ := hf.held hs
  obtain ⟨hlist, hshape, -⟩ := inductionOf?_eq_some_iff.mp hind
  have helem : s.Knows elem := hs.knows_of_child hshape List.mem_cons_self
  have hstep : s.Holds step := hcaptures step (by simp [hlist])
  obtain ⟨hst, ht, hagain⟩ := Store.enumerate_settles hs helem _ _ _ helems
  obtain ⟨htu, hu, hempty⟩ := Store.nil_settles ht (helem.mono hst) _ _ hnil
  have hsu := hst.trans htu
  exact ⟨hsu, hu, ⟨hp.mono hsu, hg.mono hsu, hstep.mono hsu, (hagain u hu htu).2.2.2.holds⟩,
    (hempty u hu (.refl u)).2, fun v hv huv => hagain v hv (htu.trans huv)⟩

/-- A store operation neither takes steps nor gives any. -/
theorem lift_eq_ok_iff {α : Type} {op : StoreM α} {x : α} :
    (liftM op : Check α) ⟨s, steps⟩ = .ok x b ↔ ∃ t, op s = .ok x t ∧ b = ⟨t, steps⟩ := by
  rw [lift_eq]
  cases op s with
  | ok y t => simp [eq_comm]
  | error err t => simp

end Check

end ValueMachine
