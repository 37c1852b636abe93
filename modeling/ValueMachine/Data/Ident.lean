/-! Names of stored things: values, shapes and functions.

A store hands out its places in order, starting at zero, and never moves or
reuses one. A name is therefore a 32-bit number, and the three kinds of name are
kept apart by their types. The first few names are fixed: every store starts
with the same shapes and values. -/
namespace ValueMachine

/-- The place of a value in a store. -/
structure Addr where
  val : UInt32
deriving DecidableEq, Hashable, Inhabited

/-- The place of a shape in the table of shapes. -/
structure ShapeId where
  val : UInt32
deriving DecidableEq, Hashable, Inhabited

/-- The place of a function body in the table of functions. -/
structure FuncId where
  val : UInt32
deriving DecidableEq, Hashable, Inhabited

namespace Addr

def index (a : Addr) : Nat := a.val.toNat

def ofIndex (i : Nat) : Addr := ⟨i.toUInt32⟩

/-- The empty tuple. -/
def unit : Addr := ⟨0⟩

/-- The truth value of a statement that holds. -/
def proved : Addr := ⟨1⟩

/-- The truth value of a statement that does not hold. -/
def disproved : Addr := ⟨2⟩

def truth (holds : Bool) : Addr := if holds then proved else disproved

def label (a : Addr) : String := "@" ++ toString a.index

end Addr

namespace ShapeId

def index (t : ShapeId) : Nat := t.val.toNat

def ofIndex (i : Nat) : ShapeId := ⟨i.toUInt32⟩

/-- The shape of every value. -/
def any : ShapeId := ⟨0⟩

/-- The shape of no value. -/
def empty : ShapeId := ⟨1⟩

/-- The shape of the empty tuple. -/
def unit : ShapeId := ⟨2⟩

/-- The shape of the two truth values; alternative 0 is `proved`. -/
def truth : ShapeId := ⟨3⟩

/-- The shape of texts. -/
def text : ShapeId := ⟨4⟩

def label (t : ShapeId) : String := "s" ++ toString t.index

end ShapeId

namespace FuncId

def index (f : FuncId) : Nat := f.val.toNat

def ofIndex (i : Nat) : FuncId := ⟨i.toUInt32⟩

def label (f : FuncId) : String := "f" ++ toString f.index

end FuncId

end ValueMachine
