import ValueMachine.Store.Construct

/-! How many values a shape has, and all of them.

Shapes name only shapes below them, so a depth above the place of a shape sees all
of it. -/
namespace ValueMachine

namespace Store

/-- The largest number of values that is counted. -/
def maxCount : Nat := UInt64.size - 1

/-- A count, unless it is too large. -/
def bounded (n : Nat) : Option Nat := if n ≤ maxCount then some n else none

/-- The number of values of a shape, seen down to a depth. -/
def countWithin (s : Store) : Nat → ShapeId → Option Nat
  | 0, _ => none
  | depth + 1, t =>
    match s.shape? t with
    | some .empty => some 0
    | some (.ring bits) => bounded (1 <<< bits.toNat)
    | some (.char width) => some width.count
    | some (.tuple items) =>
      items.foldlM (fun n t => do bounded (n * (← s.countWithin depth t))) 1
    | some (.cotuple alternatives) =>
      alternatives.toList.foldlM (fun n t => do bounded (n + (← s.countWithin depth t))) 0
    | some (.identity t) => s.countWithin depth t
    | _ => none

/-- The number of abstract values of a shape, if there are finitely many and not
too many to count. -/
def cardinality (s : Store) (t : ShapeId) : Option Nat := s.countWithin (t.index + 1) t

/-- The lists that take one item from each list, the first item varying slowest.
Nothing is chosen from the rest if there is no first item. -/
def choices {α : Type} : List (List α) → List (List α)
  | [] => [[]]
  | [] :: _ => []
  | xs :: rest =>
    let tails := choices rest
    xs.flatMap fun x => tails.map (x :: ·)

/-- Interns every value of a finite shape, seen down to a depth. -/
def inhabitantsWithin : Nat → ShapeId → StoreM (List Addr)
  | 0, _ => return []
  | depth + 1, t => do
    match ← ask fun s => s.shapes.lookup t with
    | .ring bits => (List.range (1 <<< bits.toNat)).mapM fun x => ring bits x.toUInt64
    | .char width => width.chars.mapM char
    | .tuple items => do
      let parts ← items.mapM (inhabitantsWithin depth)
      (choices parts).mapM tuple
    | .cotuple alternatives => do
      let parts ← alternatives.toList.zipIdx.mapM fun (alternative, tag) => do
        let payloads ← inhabitantsWithin depth alternative
        payloads.mapM fun payload => cotuple t tag.toUInt32 payload
      return parts.flatten
    | .identity of => do
      let parts ← inhabitantsWithin depth of
      parts.mapM fun x => identity x x
    | _ => return []

/-- Interns every abstract value of a shape, or nothing if there may be more of
them than the limit. -/
def enumerate (t : ShapeId) (limit : Nat) : StoreM (Option (List Addr)) := do
  match ← ask fun s => .ok (s.cardinality t) with
  | some n =>
    if n ≤ limit then return some (← inhabitantsWithin (t.index + 1) t)
    else return none
  | none => return none

end Store

end ValueMachine
