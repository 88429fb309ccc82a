import Postmortem.Group.Table
import Postmortem.Inspection

/-!
# Walking a grouped table

The walk takes the way the table's own iterator takes, so elements come out in the container's
iteration order.  It stands on a slot; the next one is the lowest slot marked after it in its group,
or, if there is none, the lowest marked in the first later group that marks any.  Landing on the
sentinel ends the walk.  The very first slot has no slot before it: it is taken if it is marked.

* `GroupWalk` — a table with the stage the walk has reached.
* `GroupWalk.next` — one call: an entry, and the walk after it.  Going on to another group is logged
  before that group is read.
* `GroupWalk.position` — the slot the walk stands on.  A walk that met a fault still stands on the
  slot, or in the group, where it met it.
* `GroupWalk.group` — the group the walk has come to, which it keeps when it is over.

The search for a marked slot goes up through memory, and no control word can be read above the last
mapped byte; that bounds it (`GroupTable.searchFrom`).  Groups without size never move, so if one of
those marks no slot the table has no end.
-/

namespace Postmortem

/-! ## Looking for a marked slot -/

/-- Where a search for a marked slot came to rest. -/
inductive Landing where
  /-- On a slot that holds an element. -/
  | slot (slot : Slot)
  /-- On the slot of this group that marks the end of the table. -/
  | sentinel (group : Nat)
  /-- In a group whose control words cannot be read. -/
  | unreadable (group : Nat) (fault : Fault)
  deriving Repr, DecidableEq

namespace GroupTable

/-- Where a search comes to rest among the slots of a mask of one group, if there are any. -/
def landing? (t : GroupTable) (group : Nat) (control : List Word) (mask : Mask) : Option Landing :=
  if mask = 0 then none
  else if t.endsAt control (lowestSlot mask) then some (.sentinel group)
  else some (.slot ⟨group, lowestSlot mask⟩)

/-- Going on by one group brings a search closer to the last mapped byte. -/
theorem groupAddress_step {t : GroupTable} {group limit : Nat}
    (h : 0 < t.shape.size ∧ t.groupAddress group < limit) :
    limit - t.groupAddress (group + 1) < limit - t.groupAddress group := by
  simp only [groupAddress, Nat.succ_mul] at *
  omega

/-- The first marked slot of a group or of a later one. -/
def searchFrom (t : GroupTable) (image : Image) (group : Nat) : Logged Landing :=
  match t.control image group with
  | .error fault => return .unreadable group fault
  | .ok control =>
    match t.landing? group control (t.marked control) with
    | some landing => return landing
    | none =>
      if 0 < t.shape.size ∧ t.groupAddress group < image.memory.limit then do
        Logged.record (.groupSkipped (group + 1))
        t.searchFrom image (group + 1)
      else return .unreadable group .endless
termination_by image.memory.limit - t.groupAddress group
decreasing_by exact groupAddress_step ‹_›

/-- The first marked slot after a slot. -/
def searchAfter (t : GroupTable) (image : Image) (slot : Slot) : Logged Landing :=
  match t.control image slot.group with
  | .error fault => return .unreadable slot.group fault
  | .ok control =>
    match t.landing? slot.group control ((t.marked control).after slot.offset) with
    | some landing => return landing
    | none => do
      Logged.record (.groupSkipped (slot.group + 1))
      t.searchFrom image (slot.group + 1)

end GroupTable

/-! ## The walk -/

/-- How far a walk has come. -/
inductive GroupWalk.Stage where
  | fresh
  /-- The walk stands on the slot of the element it gave last. -/
  | standing (slot : Slot)
  /-- The end of the table was met in this group, or there are no elements; then it is the first. -/
  | ended (group : Nat)
  /-- A fault was met.  The slot tells the group it was met in, and the offset of the slot that was
  landed on last. -/
  | broken (slot : Slot)
  deriving Repr, DecidableEq

/-- A walk through a grouped table. -/
structure GroupWalk where
  table : GroupTable
  stage : GroupWalk.Stage
  deriving Repr, DecidableEq

namespace GroupWalk

/-- The walk through a table, before its first slot.  Without an array of elements it is over. -/
def ofTable (table : GroupTable) : GroupWalk :=
  ⟨table, if table.elements = 0 then .ended 0 else .fresh⟩

def start (image : Image) (container : Object) : Reading GroupWalk :=
  return ofTable (← GroupTable.read image container)

/-- The slot a walk stands on, if it has begun and has not come to the end. -/
def position (w : GroupWalk) : Option Slot :=
  match w.stage with
  | .standing slot | .broken slot => some slot
  | .fresh | .ended _ => none

/-- The group a walk has come to. -/
def group (w : GroupWalk) : Nat :=
  match w.stage with
  | .fresh => 0
  | .standing slot | .broken slot => slot.group
  | .ended group => group

def fail (w : GroupWalk) (slot : Slot) (fault : Fault) : Entry Object × GroupWalk :=
  (.fault fault, { w with stage := .broken slot })

/-- The walk after landing on a slot, with the slot's element. -/
def visit (w : GroupWalk) (image : Image) (slot : Slot) : Entry Object × GroupWalk :=
  match w.table.payload image slot with
  | .ok element => (.item element, { w with stage := .standing slot })
  | .error fault => w.fail slot fault

/-- The walk after a search that set out from an offset. -/
def land (w : GroupWalk) (image : Image) (offset : Nat) : Landing → Entry Object × GroupWalk
  | .slot slot => w.visit image slot
  | .sentinel group => (.done, { w with stage := .ended group })
  | .unreadable group fault => w.fail ⟨group, offset⟩ fault

def next (w : GroupWalk) (image : Image) : Logged (Entry Object × GroupWalk) :=
  match w.stage with
  | .ended _ | .broken _ => return (.done, w)
  | .standing slot => return w.land image slot.offset (← w.table.searchAfter image slot)
  | .fresh =>
    match w.table.control image 0 with
    | .error fault => return w.fail ⟨0, 0⟩ fault
    | .ok control =>
      if (w.table.marked control).getLsbD 0 then return w.visit image ⟨0, 0⟩
      else return w.land image 0 (← w.table.searchAfter image ⟨0, 0⟩)

end GroupWalk

end Postmortem
