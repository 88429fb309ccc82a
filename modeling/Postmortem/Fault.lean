/-!
# Faults: why a reading of a memory image stops

Everything that is read out of an image can fail, and a failed reading says why.  A `Fault` is
that cause, with the names and numbers that identify it; `Fault.message` is its wording.

* `TypeId` — the position of a type in the type table.
* `Fault` — one constructor per cause, and one for a reading that never comes to an end.  The first
  fault ends whatever traversal met it.
* `Fault.message` — the text shown to a person.

Addresses and sizes are natural numbers.  Sums of them are exact: an address past the last byte of
a 64-bit process is simply never mapped, so nothing wraps around to the start of memory.
-/

namespace Postmortem

/-- The position of a type in a type table. -/
abbrev TypeId := Nat

/-! ## Hexadecimal text -/

/-- A number in lower-case hexadecimal after `0x`, without padding. -/
def hexText (n : Nat) : String :=
  "0x" ++ String.ofList (Nat.toDigits 16 n)

/-! ## Causes -/

/-- Why a reading failed.  Types are given by name, except where no type is known. -/
inductive Fault where
  /-- Some byte of the requested range is not held by the segment the range starts in. -/
  | unmapped (address : Nat) (length : Nat)
  | unknownType (type : TypeId)
  /-- Neither the type nor any of its bases has a member of this name. -/
  | noSuchField (type field : String)
  | notAPointer (type : String)
  | notAnArray (type : String)
  | indexOutOfBounds (type : String) (index length : Nat)
  /-- Only integers and pointers of 1, 2, 4 or 8 bytes can be read as integers. -/
  | notAScalar (type : String) (size : Nat)
  | nullDereference (type : String)
  | noTemplateArgument (type : String) (index : Nat)
  /-- The control array of a group is neither 16 bytes nor 2 words long. -/
  | unsupportedGroupLayout (type : String) (length : Nat)
  /-- The slots of a group do not fit its occupancy mask. -/
  | unsupportedGroupSlots (type : String) (slots : Nat)
  /-- The reading never comes to an end: a type laid out inside itself, groups without size none of
  which marks a slot, or links that lead back to a node already met.  No reading reports this; it
  stands in the place of the result that there is none of. -/
  | endless
  deriving Repr, DecidableEq

namespace Fault

/-- A type or field name as it stands in a message. -/
def quoted (name : String) : String :=
  "`" ++ name ++ "`"

def message : Fault → String
  | unmapped address length =>
    "address " ++ hexText address ++ " is not mapped (" ++ toString length ++ " bytes requested)"
  | unknownType type => "unknown type id " ++ toString type
  | noSuchField type field => "type " ++ quoted type ++ " has no field " ++ quoted field
  | notAPointer type => "type " ++ quoted type ++ " is not a pointer"
  | notAnArray type => "type " ++ quoted type ++ " is not an array"
  | indexOutOfBounds type index length =>
    "index " ++ toString index ++ " out of bounds for " ++ quoted type ++ " of length "
      ++ toString length
  | notAScalar type size =>
    "type " ++ quoted type ++ " of size " ++ toString size ++ " cannot be read as an integer"
  | nullDereference type => "dereferenced a null " ++ quoted type
  | noTemplateArgument type index =>
    "type " ++ quoted type ++ " has no template argument " ++ toString index
  | unsupportedGroupLayout type length =>
    "group type " ++ quoted type ++ " has an unsupported control array of " ++ toString length
      ++ " entries"
  | unsupportedGroupSlots type slots =>
    "group type " ++ quoted type ++ " declares " ++ toString slots ++ " slots per group"
  | endless => "the structure has no end"

end Fault

end Postmortem
