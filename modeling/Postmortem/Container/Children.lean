import Postmortem.Container.Basic

/-!
# Children: elements as pairs, up to a limit

A container is shown as a sequence of children, two for each element: key and value of a map's
element, or the position of a set's element with the element itself.  An optional limit on the
number of elements keeps a corrupted container from being followed for ever.

* `Child` — one of the two halves of an element.
* `Children` — a traversal of elements, with the half that is still to be given.
* `Children.next` — one call: an entry, and the sequence after it.

Three rules hold of the sequence.  A pair is given whole or not at all.  The first fault is given
once and ends the sequence.  One more element than the limit allows is read, so that the log can
tell a traversal that was cut short from one that ended just there; if that element cannot be read,
its fault is given.
-/

namespace Postmortem

/-- What a child stands for. -/
inductive ChildValue where
  | object (object : Object)
  /-- The position of a set's element, in the place of a key. -/
  | ordinal (n : Nat)
  deriving Repr, DecidableEq

/-- One half of an element. -/
structure Child where
  /-- The name under which it is shown. -/
  label : String
  value : ChildValue
  deriving Repr, DecidableEq

namespace Child

def unlabeled (value : ChildValue) : Child :=
  ⟨"", value⟩

end Child

/-- Where a sequence of children stands. -/
inductive Children.Stage where
  | between
  /-- The first half of an element was given, and this is the second. -/
  | halfway (second : ChildValue)
  /-- A fault or the end was given. -/
  | closed
  deriving Repr, DecidableEq

structure Children where
  elements : Elements
  /-- Whether elements are keys, or keys with values. -/
  kind : Kind
  limit : Option Nat
  visited : Nat
  stage : Children.Stage
  deriving Repr, DecidableEq

namespace Children

/-- The children of a traversal that has not begun. -/
def ofElements (elements : Elements) (kind : Kind) (limit : Option Nat) : Children :=
  ⟨elements, kind, limit, 0, .between⟩

/-- The two halves of an element, the first of which is its ordinal in a set. -/
def halves (image : Image) (kind : Kind) (ordinal : Nat) (element : Object) :
    Reading (ChildValue × ChildValue) :=
  match kind with
  | .map => do
    let first ← image.field element "first"
    let second ← image.field element "second"
    return (.object first, .object second)
  | .set => return (.ordinal ordinal, .object element)

def close (c : Children) : Children :=
  { c with stage := .closed }

/-- An element within the limit split in two: the first half is given, the second is kept. -/
def split (c : Children) (image : Image) (element : Object) : Entry Child × Children :=
  match halves image c.kind c.visited element with
  | .ok (first, second) =>
    (.item (.unlabeled first),
      { c with visited := c.visited + 1, stage := .halfway second })
  | .error fault => (.fault fault, c.close)

/-- What an entry of the elements gives while the limit is not reached. -/
def within (c : Children) (image : Image) : Entry Object → Logged (Entry Child × Children)
  | .item element => return c.split image element
  | .fault fault => return (.fault fault, c.close)
  | .done => do
    Logged.record (.traversalFinished c.visited)
    return (.done, c.close)

/-- What an entry of the elements gives once the limit is reached. -/
def beyond (c : Children) : Entry Object → Logged (Entry Child × Children)
  | .item _ => do
    Logged.record (.limitReached c.visited)
    return (.done, c.close)
  | .fault fault => do
    Logged.record (.unreadablePastLimit c.visited fault)
    return (.fault fault, c.close)
  | .done => return (.done, c.close)

def next (c : Children) (image : Image) : Logged (Entry Child × Children) :=
  match c.stage with
  | .halfway second => return (.item (.unlabeled second), { c with stage := .between })
  | .closed => return (.done, c)
  | .between => do
    let (entry, elements) ← c.elements.next image
    let c := { c with elements }
    if c.limit = some c.visited then c.beyond entry else c.within image entry

/-- A number of elements that the sequence does not exceed if it ends. -/
def bound (c : Children) (image : Image) : Nat :=
  match c.limit with
  | some limit => limit
  | none => c.elements.bound image

end Children

/-- The children of a container, of at most `limit` elements. -/
def Container.children (c : Container) (image : Image) (limit : Option Nat) : Reading Children :=
  return .ofElements (← c.elements image) c.classification.kind limit

end Postmortem
