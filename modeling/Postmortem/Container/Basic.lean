import Postmortem.Bucket.Walk
import Postmortem.Group.Walk

/-!
# Containers

A `Container` is an object that is taken for a hash container because of its type's name.

* `Container.ofObject`, `Container.inspect` — an object as a container; the latter is logged.
* `Container.length` — the number of elements, as the container itself records it.
* `Elements`, `Container.elements` — the stored elements in iteration order, one at a time, by the
  walk of the container's family.
* `Elements.bound` — how many elements there can be in a traversal that ends.
-/

namespace Postmortem

/-- An object taken for a hash container. -/
structure Container where
  object : Object
  /-- What its type's name says. -/
  classification : Classification
  deriving Repr, DecidableEq

/-! ## Elements -/

/-- A traversal of the elements of a container. -/
inductive Elements where
  /-- Through buckets and their chains. -/
  | buckets (walk : BucketWalk)
  /-- Through groups and their slots. -/
  | groups (walk : GroupWalk)
  deriving Repr, DecidableEq

namespace Elements

def next (image : Image) : Elements → Logged (Entry Object × Elements)
  | buckets walk =>
    let (entry, walk) := walk.next image
    return (entry, buckets walk)
  | groups walk => do
    let (entry, walk) ← walk.next image
    return (entry, groups walk)

/-- A number of elements that no traversal exceeds if it ends.

A chain that meets an address twice under one type never ends.  All nodes of one that ends have
links that can be read, except perhaps the last, so they lie below the limit of memory.  The groups
of a table that ends have control words that can be read, so they lie below that limit as well, each
above the one before. -/
def bound (image : Image) : Elements → Nat
  | buckets walk => walk.table.count * (image.memory.limit * image.types.size + 1)
  | groups _ => defaultSlots * image.memory.limit

end Elements

/-! ## Containers -/

namespace Container

def ofObject (image : Image) (object : Object) : Reading Container :=
  return { object, classification := classify (← image.typeName object) }

def inspect (image : Image) (object : Object) : Inspection Container := do
  let container ← ofObject image object
  Logged.record (.containerOpened container.classification object.address)
  return container

/-- The number of elements that the container records. -/
def length (c : Container) (image : Image) : Reading Word := do
  let table ← image.field c.object "table_"
  match c.classification.family with
  | .bucket => image.readIntegral (← image.field table "size_")
  | .grouped => image.readIntegral (← image.field (← image.field table "size_ctrl") "size")

def isEmpty (c : Container) (image : Image) : Reading Bool :=
  return (← c.length image) == 0

/-- The stored elements, in iteration order. -/
def elements (c : Container) (image : Image) : Reading Elements :=
  match c.classification.family with
  | .bucket => return .buckets (← BucketWalk.start image c.object)
  | .grouped => return .groups (← GroupWalk.start image c.object)

end Container

end Postmortem
