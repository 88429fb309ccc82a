import Postmortem.Image.Basic
import Postmortem.TypeTable.Query

/-!
# Reading typed objects

An `Object` is an address with the type of what lies there.  Nothing is copied: an object is a way
of looking at the image, and each reading looks again.

* `Image.field`, `Image.index`, `Image.deref` — from an object to a part of it, or to what it points
  at.  The first two compute an address and read no memory.
* `Image.readBytes`, `Image.readRun` — the bytes of a range, whatever they are taken for.
* `Image.readUnsigned`, `Image.readSigned`, `Image.readAddress` — the integer an object holds.  Only
  integers and pointers of 1, 2, 4 or 8 bytes are read, in the image's byte order.

When several things are wrong, the fault is that of the earliest step: the type is looked at before
the memory, and the kind of a type before its size.
-/

namespace Postmortem

/-- A typed object somewhere in the inspected process. -/
structure Object where
  address : Nat
  /-- What it is taken for. -/
  type : TypeId
  deriving Repr, DecidableEq

namespace Object

/-- The object at a place inside this one. -/
def part (o : Object) (p : Place) : Object :=
  ⟨o.address + p.offset, p.type⟩

end Object

namespace TypeInfo

/-- Objects of the type hold an integer that can be read. -/
def isScalar (info : TypeInfo) : Bool :=
  match info.kind with
  | .unsigned | .signed | .pointer _ => [1, 2, 4, 8].contains info.size
  | .array .. | .record _ => false

end TypeInfo

namespace Image

/-! ## Parts -/

def typeName (image : Image) (o : Object) : Reading String :=
  image.types.nameOf o.type

/-- A named member of an object, its own or one of its bases'. -/
def field (image : Image) (o : Object) (name : String) : Reading Object :=
  return o.part (← image.types.member o.type name)

def arrayLength (image : Image) (o : Object) : Reading Nat := do
  let info ← image.types.info o.type
  match info.kind with
  | .array _ length => return length
  | _ => throw (.notAnArray info.name)

def index (image : Image) (o : Object) (i : Nat) : Reading Object := do
  let info ← image.types.info o.type
  match info.kind with
  | .array element length =>
    if i < length then
      let stride ← image.types.byteSize element
      return ⟨o.address + stride * i, element⟩
    else throw (.indexOutOfBounds info.name i length)
  | _ => throw (.notAnArray info.name)

/-! ## Integers -/

/-- The bytes of a range. -/
def readBytes (image : Image) (address length : Nat) : Reading (List UInt8) :=
  match image.memory.read address length with
  | some bytes => .ok bytes
  | none => .error (.unmapped address length)

/-- The bytes of a range as one run; refused when no run is that long. -/
def readRun (image : Image) (address length : Nat) : Option (Reading (List UInt8)) :=
  if length ≤ longestRun then some (image.readBytes address length) else none

/-- The integer an object holds, zero extended. -/
def readUnsigned (image : Image) (o : Object) : Reading Word := do
  let info ← image.types.info o.type
  if info.isScalar then
    return image.order.decode (← image.readBytes o.address info.size)
  else throw (.notAScalar info.name info.size)

/-- The integer an object holds, in two's complement. -/
def readSigned (image : Image) (o : Object) : Reading Int := do
  let word ← image.readUnsigned o
  return signedValue (← image.types.byteSize o.type) word

def readAddress (image : Image) (pointer : Object) : Reading Nat := do
  let info ← image.types.info pointer.type
  if info.isPointer then
    return (← image.readUnsigned pointer).toNat
  else throw (.notAPointer info.name)

def deref (image : Image) (pointer : Object) : Reading Object := do
  let info ← image.types.info pointer.type
  match info.kind with
  | .pointer target =>
    let address ← image.readAddress pointer
    if address = 0 then throw (.nullDereference info.name) else return ⟨address, target⟩
  | _ => throw (.notAPointer info.name)

end Image

end Postmortem
