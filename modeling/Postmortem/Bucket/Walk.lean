import Postmortem.Image.Wrapper
import Postmortem.Inspection

/-!
# Walking a bucket table

A closed-addressing table is an array of buckets, each the head of a chain of nodes.  The walk takes
the buckets in index order, and the nodes of each in link order.  Chains are trusted to end in a
null link; one that does not is followed as long as its links can be read.

* `BucketTable`, `BucketTable.read` — the array of buckets of a container, from its member
  `table_.buckets_`.
* `nodeValue` — the value held by a node.
* `BucketWalk` — a table, the number of buckets already opened, and what is to be done next.
* `BucketWalk.round` — the smallest step: a link is followed, and if it leads nowhere the next
  bucket is opened.  A round settles the call of `next` it belongs to, or there is one bucket less
  to open.
* `BucketWalk.next` — rounds up to the first that settles: an entry, and the walk after it.
-/

namespace Postmortem

/-! ## Tables -/

/-- Where an array of buckets lies, and what it is made of. -/
structure BucketTable where
  buckets : Nat
  bucketType : TypeId
  /-- The distance between buckets in bytes. -/
  bucketSize : Nat
  count : Nat
  deriving Repr, DecidableEq

namespace BucketTable

/-- The table of a container.  A bucket array that was never allocated has no buckets, whatever its
size says. -/
def read (image : Image) (container : Object) : Reading BucketTable := do
  let array ← image.field (← image.field container "table_") "buckets_"
  let size ← image.readIntegral (← image.field array "size_")
  let pointer ← image.field array "buckets"
  let bucketType ← image.types.target pointer.type
  let buckets ← image.readAddress pointer
  let bucketSize ← image.types.byteSize bucketType
  return { buckets, bucketType, bucketSize, count := if buckets = 0 then 0 else size.toNat }

def bucket (t : BucketTable) (index : Nat) : Object :=
  ⟨t.buckets + index * t.bucketSize, t.bucketType⟩

end BucketTable

/-- The value held by a node, in its buffer. -/
def nodeValue (image : Image) (node : Object) : Reading Object := do
  image.field (← image.field node "buf") "t_"

/-- The node a link leads to; a null link leads nowhere. -/
def followLink (image : Image) (link : Object) : Reading (Option Object) := do
  let address ← image.readAddress link
  if address = 0 then return none
  else return some ⟨address, ← image.types.target link.type⟩

/-! ## The walk -/

/-- What a walk is about to do. -/
inductive BucketWalk.Stage where
  /-- To open the next bucket. -/
  | between
  /-- To follow a link: the head of a bucket, or the successor of a node. -/
  | following (link : Object)
  /-- Nothing more: a fault or the end was given. -/
  | ended
  deriving Repr, DecidableEq

structure BucketWalk where
  table : BucketTable
  opened : Nat
  stage : BucketWalk.Stage
  deriving Repr, DecidableEq

/-- What one round of a walk comes to. -/
inductive BucketWalk.Round where
  /-- An entry, and the walk after it. -/
  | settled (entry : Entry Object) (walk : BucketWalk)
  | onward (walk : BucketWalk)
  deriving Repr, DecidableEq

namespace BucketWalk

/-- The walk through a table, before its first bucket. -/
def ofTable (table : BucketTable) : BucketWalk :=
  ⟨table, 0, .between⟩

def start (image : Image) (container : Object) : Reading BucketWalk :=
  return ofTable (← BucketTable.read image container)

/-- The walk is over with this entry. -/
def finish (w : BucketWalk) (entry : Entry Object) : Round :=
  .settled entry { w with stage := .ended }

/-- The node to visit next, if there is a link to follow and it is not null. -/
def pendingNode (w : BucketWalk) (image : Image) : Reading (Option Object) :=
  match w.stage with
  | .following link => followLink image link
  | .between | .ended => return none

/-- A node visited: its link is looked up before its value. -/
def visit (w : BucketWalk) (image : Image) (node : Object) : Round :=
  match image.field node "next" with
  | .error fault => w.finish (.fault fault)
  | .ok link =>
    match nodeValue image node with
    | .error fault => w.finish (.fault fault)
    | .ok value => .settled (.item value) { w with stage := .following link }

/-- The next bucket opened, or the end if there is none. -/
def openBucket (w : BucketWalk) (image : Image) : Round :=
  if w.opened < w.table.count then
    match image.field (w.table.bucket w.opened) "next" with
    | .error fault => w.finish (.fault fault)
    | .ok link => .onward { w with opened := w.opened + 1, stage := .following link }
  else w.finish .done

/-- The pending link followed, and if it leads nowhere the next bucket opened. -/
def round (w : BucketWalk) (image : Image) : Round :=
  match w.pendingNode image with
  | .error fault => w.finish (.fault fault)
  | .ok (some node) => w.visit image node
  | .ok none => w.openBucket image

/-- How many buckets are still to be opened. -/
def remaining (w : BucketWalk) : Nat :=
  w.table.count - w.opened

/-- **A round that does not settle leaves one bucket less to open.** -/
theorem remaining_of_round {w w' : BucketWalk} {image : Image} (h : w.round image = .onward w') :
    w'.remaining + 1 = w.remaining := by
  simp only [round] at h
  split at h
  · simp [finish] at h
  · simp only [visit, finish] at h
    split at h
    · simp at h
    · split at h <;> simp at h
  · simp only [openBucket, finish] at h
    split at h
    · split at h
      · simp at h
      · obtain rfl := Round.onward.inj h
        simp only [remaining]
        omega
    · simp at h

/-- Rounds up to the first that settles. -/
def advance (w : BucketWalk) (image : Image) : Entry Object × BucketWalk :=
  match _step : w.round image with
  | .settled entry walk => (entry, walk)
  | .onward walk => walk.advance image
termination_by w.remaining
decreasing_by
  have := remaining_of_round _step
  omega

def next (w : BucketWalk) (image : Image) : Entry Object × BucketWalk :=
  match w.stage with
  | .ended => (.done, w)
  | .between | .following _ => w.advance image

end BucketWalk

end Postmortem
