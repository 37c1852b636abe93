import ValueMachine.Store.Basic

/-! A check that a store keeps every abstract content once.

The check goes through the values in order. It builds an index of its own, and
compares what it finds with the index of the store. -/
namespace ValueMachine

namespace Store

/-- The check of the value at a place against the places of the values before it. -/
def auditValue (s : Store) (seen : Interner Value) (a : Addr) (v : Value) :
    Except Duplicate (Interner Value) :=
  if v.isAbstract then
    match seen.find? v with
    | some first => .error ⟨Addr.ofIndex first, a⟩
    | none =>
      match s.find? v with
      | some found => if found = a then .ok (seen.insert v) else .error ⟨found, a⟩
      | none => .error ⟨a, a⟩
  else .ok (seen.append v)

def audit (s : Store) : Except Duplicate Unit :=
  discard <| s.values.toList.zipIdx.foldlM
    (fun seen (v, place) => s.auditValue seen (Addr.ofIndex place) v) Interner.empty

end Store

end ValueMachine
