import Postmortem.Group.Control
import Postmortem.Image.Wrapper

/-!
# The shape of a group

All groups of a table have one type, and what a walk needs to know of it is read once: where the
control words are, how many slots there are, which word is the sentinel, and how far apart groups
lie.

* `GroupShape` — layout, slots, sentinel and size.
* `GroupShape.read` — the shape told by a group's type.  Its control words are the array `m`; its
  constants `N` and `sentinel_` may be left out.
* `GroupShape.control` — the control words of one group, plain or through wrappers.
* `GroupShape.occupied`, `GroupShape.isSentinel` — the decoders applied to them.

A group has between 1 and 15 slots: **`slots_of_slotsOf`**.
-/

namespace Postmortem

/-- The slots of a group whose type does not say, and the most there can be. -/
def defaultSlots : Nat :=
  15

/-- The sentinel of a group whose type does not say. -/
def defaultSentinel : Word :=
  1#64

/-- What all groups of one table have in common. -/
structure GroupShape where
  layout : ControlLayout
  slots : Nat
  /-- The control word that marks the end of the table. -/
  sentinel : Word
  /-- The distance between groups in bytes. -/
  size : Nat
  deriving Repr, DecidableEq

namespace GroupShape

/-- The layout of a group, by the length of its control array. -/
def layoutOf (image : Image) (group : Object) : Reading ControlLayout := do
  let length ← image.arrayLength (← image.field group "m")
  match ControlLayout.ofLength? length with
  | some layout => return layout
  | none => throw (.unsupportedGroupLayout (← image.typeName group) length)

/-- The slots of a group type: its constant `N`, which must fit the occupancy mask. -/
def slotsOf (image : Image) (type : TypeId) : Reading Nat := do
  let slots := ((← image.types.constant type "N").map (·.toNat)).getD defaultSlots
  if 1 ≤ slots ∧ slots ≤ defaultSlots then return slots
  else throw (.unsupportedGroupSlots (← image.types.nameOf type) slots)

/-- The shape told by the type of a group. -/
def read (image : Image) (group : Object) : Reading GroupShape := do
  let layout ← layoutOf image group
  let slots ← slotsOf image group.type
  let sentinel := (← image.types.constant group.type "sentinel_").getD defaultSentinel
  return { layout, slots, sentinel, size := ← image.types.byteSize group.type }

/-- The control words of a group. -/
def control (image : Image) (group : Object) : Reading (List Word) := do
  let words ← image.field group "m"
  (List.range (← image.arrayLength words)).mapM fun i => do
    image.readIntegral (← image.index words i)

def occupied (shape : GroupShape) (image : Image) (group : Object) : Reading Mask :=
  return shape.layout.occupied (← control image group)

/-- Slot `n` of a group marks the end of the table. -/
def isSentinel (shape : GroupShape) (image : Image) (group : Object) (n : Nat) : Reading Bool :=
  return shape.layout.isSentinel (← control image group) n shape.slots shape.sentinel

/-- Every slot of a group of an accepted shape has its bit in the occupancy mask. -/
theorem slots_of_slotsOf {image : Image} {type : TypeId} {slots : Nat}
    (h : slotsOf image type = .ok slots) : 1 ≤ slots ∧ slots ≤ defaultSlots := by
  simp only [slotsOf] at h
  cases hc : image.types.constant type "N" with
  | error fault => simp [hc, bind, Except.bind] at h
  | ok found =>
    simp only [hc, bind, Except.bind] at h
    split at h
    · cases h
      assumption
    · cases hn : image.types.nameOf type <;> simp [hn, throw, throwThe, MonadExceptOf.throw] at h

end GroupShape

end Postmortem
