import Postmortem.Group.Shape

/-!
# Grouped tables

An open-addressing table is an array of groups beside an array of elements.  Slot `offset` of group
`group` belongs to the element numbered `group * slots + offset`.

* `Slot` — a group and a position in it.
* `GroupTable` — where the two arrays lie and what they are made of.
* `GroupTable.read` — the table of a container, from its member `table_.arrays`.
* `GroupTable.control`, `GroupTable.payload` — the control words of a group, the element of a slot.
-/

namespace Postmortem

structure Slot where
  group : Nat
  offset : Nat
  deriving Repr, DecidableEq

/-- Where the arrays of a grouped table lie, and what they are made of. -/
structure GroupTable where
  shape : GroupShape
  /-- The address of the first group. -/
  groups : Nat
  groupType : TypeId
  /-- The address of the first element; null if there are none. -/
  elements : Nat
  elementType : TypeId
  /-- The distance between elements in bytes. -/
  elementSize : Nat
  deriving Repr, DecidableEq

namespace GroupTable

/-- The table of a container.  Its two arrays go by either of two names each. -/
def read (image : Image) (container : Object) : Reading GroupTable := do
  let arrays ← image.field (← image.field container "table_") "arrays"
  let groups ← image.fieldAny arrays "groups_" ["groups"]
  let elements ← image.fieldAny arrays "elements_" ["elements"]
  let groupType ← image.types.target groups.type
  let elementType ← image.types.target elements.type
  let groups ← image.readAddress groups
  let elements ← image.readAddress elements
  let shape ← GroupShape.read image ⟨groups, groupType⟩
  let elementSize ← image.types.byteSize elementType
  return { shape, groups, groupType, elements, elementType, elementSize }

def groupAddress (t : GroupTable) (group : Nat) : Nat :=
  t.groups + group * t.shape.size

def control (t : GroupTable) (image : Image) (group : Nat) : Reading (List Word) :=
  GroupShape.control image ⟨t.groupAddress group, t.groupType⟩

/-- The slots that control words mark as not empty. -/
def marked (t : GroupTable) (control : List Word) : Mask :=
  t.shape.layout.occupied control

/-- Control words mark the end of the table at this offset. -/
def endsAt (t : GroupTable) (control : List Word) (offset : Nat) : Bool :=
  t.shape.layout.isSentinel control offset t.shape.slots t.shape.sentinel

/-- The number of the element that belongs to a slot. -/
def elementIndex (t : GroupTable) (slot : Slot) : Nat :=
  slot.group * t.shape.slots + slot.offset

/-- The element of a slot, as it is stored. -/
def element (t : GroupTable) (slot : Slot) : Object :=
  ⟨t.elements + t.elementIndex slot * t.elementSize, t.elementType⟩

/-- The element of a slot, indirect elements followed. -/
def payload (t : GroupTable) (image : Image) (slot : Slot) : Reading Object :=
  image.elementPayload (t.element slot)

end GroupTable

end Postmortem
