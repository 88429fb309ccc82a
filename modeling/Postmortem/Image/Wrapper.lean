import Postmortem.Image.Read
import Postmortem.TypeName

/-!
# Looking through wrappers

Containers do not always store a value plainly.  An integer may sit in an atomic, or in a record
that holds it in a member `n`; an element may be held through a pointer.  Each function here takes
an object to the plain value it stands for, and leaves any other object as it is.

* `Image.atomicPayload` — an atomic as the plain type it wraps, at the same address.
* `Image.elementPayload` — the element behind an indirect element, by its pointer `p`.  Pointers
  that are themselves objects of a class are not followed.
* `Image.readIntegral` — an integer through any of these wrappers.
* `Image.fieldAny` — the first of several spellings of a member that the object has.
-/

namespace Postmortem

def atomicStart : String :=
  "std::atomic<"

def indirectElementStart : String :=
  "boost::unordered::detail::foa::element_type<"

namespace Image

/-- An atomic as the type it was instantiated with; any other object as it is. -/
def atomicPayload (image : Image) (o : Object) : Reading Object := do
  if TypeName.startsWith (← image.typeName o) atomicStart then
    return ⟨o.address, ← image.types.templateArg o.type 0⟩
  else return o

/-- What an indirect element points at; any other object as it is. -/
def elementPayload (image : Image) (o : Object) : Reading Object := do
  if TypeName.startsWith (← image.typeName o) indirectElementStart then
    image.deref (← image.field o "p")
  else return o

/-- The integer an object holds, through an atomic, or through a record that keeps it, perhaps as an
atomic, in its member `n`. -/
def readIntegral (image : Image) (o : Object) : Reading Word := do
  let plain ← image.atomicPayload o
  match (← image.types.info plain.type).kind with
  | .record _ => image.readUnsigned (← image.atomicPayload (← image.field plain "n"))
  | _ => image.readUnsigned plain

/-- The first of several members that an object has.  Only a missing member lets the next name be
tried; if all are missing, the last one is reported. -/
def fieldAny (image : Image) (o : Object) (name : String) : List String → Reading Object
  | [] => image.field o name
  | other :: names =>
    match image.field o name with
    | .error (.noSuchField _ _) => image.fieldAny o other names
    | found => found

end Image

end Postmortem
