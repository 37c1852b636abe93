import Std.Data.HashMap

/-! Tables in which a content is stored once.

A table is an array with an index from content to place. The index is a matter of
speed: it holds the places of those entries that may be found by their content.
An entry that is added without being indexed can only be reached by its place. -/
namespace ValueMachine

structure Interner (α : Type) [BEq α] [Hashable α] where
  items : Array α
  index : Std.HashMap α Nat

namespace Interner

variable {α : Type} [BEq α] [Hashable α]

def empty : Interner α := ⟨#[], ∅⟩

def size (t : Interner α) : Nat := t.items.size

@[inline] def get? (t : Interner α) (place : Nat) : Option α := t.items[place]?

/-- The place of an indexed content. -/
def find? (t : Interner α) (x : α) : Option Nat := t.index[x]?

/-- Adds an entry that can be found by its content. -/
def insert (t : Interner α) (x : α) : Interner α :=
  let place := t.items.size
  ⟨t.items.push x, t.index.insert x place⟩

/-- Adds an entry that can only be reached by its place. -/
def append (t : Interner α) (x : α) : Interner α := ⟨t.items.push x, t.index⟩

def ofList (xs : List α) : Interner α := xs.foldl insert empty

def toList (t : Interner α) : List α := t.items.toList

end Interner

end ValueMachine
