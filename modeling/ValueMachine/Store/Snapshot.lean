import ValueMachine.Bytes.Record
import ValueMachine.Store.Register

/-! A whole store as bytes.

A snapshot starts with eight fixed bytes, the version, and the numbers of values
and functions; then come the shapes with their number, the values and the
functions. A record names only earlier records of its table, so a snapshot can be
read front to back. Nothing in it is trusted: the tables are rebuilt record by
record, and at the end every value is validated in the finished store. -/
namespace ValueMachine

/-- Why bytes are not a snapshot. -/
inductive SnapshotError
  | decode (e : DecodeError)
  | badMagic
  | unsupportedVersion (version : UInt32)
  /-- A value names a child that is not before it. -/
  | forwardReference (record child : Addr)
  | duplicateShape (shape : ShapeId)
  /-- The first shapes or values are not those of every store. -/
  | badPrelude
  | trailingBytes (count : Nat)
  | store (e : StoreError)
deriving DecidableEq

def SnapshotError.message : SnapshotError → String
  | decode e => "snapshot decode error: " ++ e.message
  | badMagic => "not a typecore snapshot"
  | unsupportedVersion version => "unsupported snapshot version " ++ toString version.toNat
  | forwardReference record child =>
    "record " ++ record.label ++ " references later record " ++ child.label
  | duplicateShape shape => "shape " ++ shape.label ++ " duplicates an earlier shape"
  | badPrelude => "snapshot prelude is missing or altered"
  | trailingBytes count => toString count ++ " trailing bytes after the last record"
  | store e => "invalid snapshot record: " ++ e.message

namespace Snapshot

def magic : List UInt8 := [0x54, 0x59, 0x43, 0x4f, 0x52, 0x45, 0, 0]

def version : UInt32 := 1

/-- The fewest bytes of the record of a value, and of a function. -/
def minValueLength : Nat := 5
def minBodyLength : Nat := 16

/-! ### Saving -/

def save (s : Store) : List UInt8 :=
  magic ++ encodeWord version ++ encodeWord s.size.toUInt32 ++
    encodeWord s.functions.size.toUInt32 ++ encodeWord s.shapes.size.toUInt32 ++
    s.shapes.toList.flatMap Shape.encode ++ s.values.toList.flatMap Value.encode ++
    s.functions.toList.flatMap Body.encode

/-- The number of bytes of the snapshot, told without making it. -/
def size (s : Store) : Nat :=
  magic.length + 4 * 4 + totalLength Shape.encodedLength s.shapes.toList +
    totalLength Value.encodedLength s.values.toList +
    totalLength Body.encodedLength s.functions.toList

/-! ### Loading -/

/-- A computation that reads a snapshot. -/
abbrev Loading := EStateM SnapshotError Reader

instance : MonadLift Read Loading := ⟨fun read r =>
  match read r with
  | .ok x r => .ok x r
  | .error e r => .error (.decode e) r⟩

/-- Refuses a record that fails a check. -/
def require (check : Except StoreError Unit) : Loading Unit :=
  match check with
  | .ok () => return ()
  | .error e => throw (.store e)

/-- Reads so many shapes and adds them to a table. -/
def loadShapes : Nat → ShapeTable → Loading ShapeTable
  | 0, shapes => return shapes
  | n + 1, shapes => do
    let shape ← Read.shape
    match shapes.find? shape with
    | some _ => throw (.duplicateShape (ShapeId.ofIndex shapes.size))
    | none =>
      require (shapes.check shape)
      loadShapes n (shapes.insert shape)

/-- Whether every child of a value is before it, and what it names of the other
tables is there; of functions only the number is known. -/
def checkNames (shapes : ShapeTable) (functions : Nat) (a : Addr) (v : Value) : Loading Unit := do
  match v.children.find? (a.index ≤ ·.index) with
  | some child => throw (.forwardReference a child)
  | none => pure ()
  match v with
  | .function f _ =>
    if f.index < functions then return ()
    throw (.store (.mismatch (.unknownFunction f)))
  | .cotuple t _ _ | .concrete t _ | .nil t | .cons t _ _ | .universal t _ | .existential t _ =>
    require (discard (shapes.lookup t))
  | _ => return ()

/-- Reads so many values and adds them to a table. An abstract value must be new. -/
def loadValues (shapes : ShapeTable) (functions : Nat) :
    Nat → Interner Value → Loading (Interner Value)
  | 0, values => return values
  | n + 1, values => do
    let a := Addr.ofIndex values.size
    let v ← Read.value
    checkNames shapes functions a v
    if v.isAbstract then
      match values.find? v with
      | some first => throw (.store (.duplicate ⟨Addr.ofIndex first, a⟩))
      | none => loadValues shapes functions n (values.insert v)
    else loadValues shapes functions n (values.append v)

/-- Reads so many functions and verifies each beside the finished tables. -/
def loadBodies (shapes : ShapeTable) (values : Nat) : Nat → Array Body → Loading (Array Body)
  | 0, bodies => return bodies
  | n + 1, bodies => do
    let b ← Read.body
    require (b.verify shapes values)
    loadBodies shapes values n (bodies.push b)

/-- Reads a whole store, but does not look at what values need of functions. -/
def loadTables : Loading Store := do
  if (← Read.take magic.length) ≠ magic then throw .badMagic
  let found ← Read.word
  if found ≠ version then throw (.unsupportedVersion found)
  let valueCount := (← Read.word).toNat
  let bodyCount := (← Read.word).toNat
  if (← get).left < valueCount * minValueLength + bodyCount * minBodyLength then
    throw (.decode .outOfBounds)
  let shapeCount ← Read.count 1
  let shapes ← loadShapes shapeCount .empty
  if shapes.toList.take Shape.prelude.length ≠ Shape.prelude then throw .badPrelude
  let values ← loadValues shapes bodyCount valueCount .empty
  if values.toList.take Value.prelude.length ≠ Value.prelude then throw .badPrelude
  let bodies ← loadBodies shapes values.size bodyCount #[]
  let left := (← get).left
  if left ≠ 0 then throw (.trailingBytes left)
  return ⟨values, shapes, bodies⟩

/-- The store that the bytes are a snapshot of. -/
def load (bytes : List UInt8) : Except SnapshotError Store :=
  match loadTables (Reader.ofBytes bytes) with
  | .error e _ => .error e
  | .ok s _ =>
    match s.values.toList.forM fun v => s.validate v with
    | .ok () => .ok s
    | .error e => .error (.store e)

end Snapshot

end ValueMachine
