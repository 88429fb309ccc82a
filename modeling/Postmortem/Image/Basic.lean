import Postmortem.Memory.Basic
import Postmortem.TypeTable.Basic

/-!
# Images: frozen memory with a type table

An `Image` is what is left of a process to look at: its mapped bytes, the order of bytes in its
integers, and the types that describe them.  Whoever captured the process writes the interesting
ranges and registers the types; everything else only reads.

* `Image` — byte order, memory and types.
* `Image.map`, `Image.mapZeroed`, `Image.write` — bytes, zeros or an integer written at an address.
  A write is refused when its range reaches past the last address, or when the integer is asked to
  take more bytes than it has.
* `Image.debugText` — a one-line description for a person.
-/

namespace Postmortem

/-- A frozen process. -/
structure Image where
  order : ByteOrder
  memory : Memory
  types : TypeTable
  deriving Repr, DecidableEq

namespace Image

def empty (order : ByteOrder) : Image :=
  ⟨order, .empty, .empty⟩

instance : Inhabited Image :=
  ⟨empty .little⟩

/-! ## Writing -/

def map (image : Image) (address : Nat) (bytes : List UInt8) : Option Image :=
  (image.memory.map address bytes).map fun memory => { image with memory }

def mapZeroed (image : Image) (address length : Nat) : Option Image :=
  (image.memory.mapZeroed address length).map fun memory => { image with memory }

/-- The low `size` bytes of a word, of which there are eight, written at an address. -/
def write (image : Image) (address size : Nat) (word : Word) : Option Image :=
  if size ≤ 8 then image.map address (image.order.encode size word) else none

/-! ## Description -/

def orderName : ByteOrder → String
  | .little => "Little"
  | .big => "Big"

/-- A segment in a description: its base and its length. -/
def segmentText (s : Segment) : String :=
  "\"" ++ hexText s.base ++ "+" ++ toString s.bytes.size ++ "\""

/-- Byte order, segments by ascending base, and the number of type ids in use. -/
def debugText (image : Image) : String :=
  "MemoryImage \x7b endian: " ++ orderName image.order
    ++ ", segments: [" ++ ", ".intercalate (image.memory.segments.map segmentText)
    ++ "], types: " ++ toString image.types.size ++ " \x7d"

end Image

end Postmortem
