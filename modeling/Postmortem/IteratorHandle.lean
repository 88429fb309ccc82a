import Postmortem.Container.Render

/-!
# Iterators

An iterator into a container is an object of its own: an element or node pointer `p`, beside a
pointer that tells its position in the table.  It is valid if neither is null; otherwise it is the
iterator past the last element.

* `IteratorHandle.inspect` — an object as an iterator, which is logged.
* `IteratorHandle.isValid` — a null `p` is enough to make an iterator invalid, whatever its
  position.
* `IteratorHandle.value` — the element, by the same rule as that of a traversal.
* `IteratorHandle.summary` — the element as text, or `endIterator`.
-/

namespace Postmortem

def endIterator : String :=
  "iterator = \x7b end iterator \x7d"

/-- An object taken for an iterator. -/
structure IteratorHandle where
  object : Object
  /-- The family of the containers it points into. -/
  family : Family
  deriving Repr, DecidableEq

namespace IteratorHandle

def ofObject (image : Image) (object : Object) : Reading IteratorHandle :=
  return { object, family := (classify (← image.typeName object)).family }

def inspect (image : Image) (object : Object) : Inspection IteratorHandle := do
  let iterator ← ofObject image object
  Logged.record (.iteratorOpened iterator.family object.address)
  return iterator

/-- The pointer that tells the position in the table. -/
def positionPointer (i : IteratorHandle) (image : Image) : Reading Object := do
  match i.family with
  | .bucket => image.field (← image.field i.object "itb") "p"
  | .grouped => image.field i.object "pc"

/-- Both pointers are not null. -/
def isValid (i : IteratorHandle) (image : Image) : Reading Bool := do
  if (← image.readAddress (← image.field i.object "p")) = 0 then return false
  else return (← image.readAddress (← i.positionPointer image)) != 0

/-- The element in what `p` points at. -/
def payload (image : Image) (family : Family) (target : Object) : Reading Object :=
  match family with
  | .bucket => nodeValue image target
  | .grouped => image.elementPayload target

/-- The element an iterator points at, if it is valid. -/
def value (i : IteratorHandle) (image : Image) : Reading (Option Object) := do
  if ← i.isValid image then
    let target ← image.deref (← image.field i.object "p")
    return some (← payload image i.family target)
  else return none

def summary (i : IteratorHandle) (image : Image) : Reading String := do
  match ← i.value image with
  | some element => return "iterator = \x7b " ++ (← image.render element) ++ " \x7d"
  | none => return endIterator

/-- An iterator has no children. -/
def hint (_ : IteratorHandle) : DisplayHint :=
  .plain

end IteratorHandle

end Postmortem
