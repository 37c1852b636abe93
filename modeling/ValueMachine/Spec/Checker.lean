import ValueMachine.Spec.Check

/-! A checker that remembers its verdicts.

Places never change what they stand for, so a verdict on a statement and a proof
holds for the life of their store. Only verdicts are remembered, never errors. -/
namespace ValueMachine

structure Checker where
  executor : Executor
  config : CheckConfig
  cache : Std.HashMap (Addr × Addr) Checked
  /-- How many questions were answered from memory since the last reset. -/
  hits : Nat
  /-- How many were not. -/
  misses : Nat

namespace Checker

def new (executor : Executor) (config : CheckConfig) : Checker := ⟨executor, config, ∅, 0, 0⟩

/-- Forgets every verdict. -/
def clear (c : Checker) : Checker := new c.executor c.config

/-- The verdict on a proof of a statement, within a budget of steps; also the store
and the checker afterwards. -/
def check (c : Checker) (spec proof : Addr) (steps : Nat) (s : Store) :
    Except CheckError Checked × Store × Checker :=
  match c.cache[(spec, proof)]? with
  | some checked => (.ok checked, s, { c with hits := c.hits + 1 })
  | none =>
    let c := { c with misses := c.misses + 1 }
    match Check.check c.executor c.config spec proof ⟨s, steps⟩ with
    | .ok checked ⟨s, _⟩ =>
      (.ok checked, s, { c with cache := c.cache.insert (spec, proof) checked })
    | .error e ⟨s, _⟩ => (.error e, s, c)

/-- The verdict without its reason. -/
def verify (c : Checker) (spec proof : Addr) (steps : Nat) (s : Store) :
    Except CheckError Verdict × Store × Checker :=
  let (answer, s, c) := c.check spec proof steps s
  (answer.map Checked.verdict, s, c)

end Checker

end ValueMachine
