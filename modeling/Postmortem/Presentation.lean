import Postmortem.IteratorHandle
import Postmortem.Registry

/-!
# Objects in their registered roles

* `Presentation` — an object as the role of its type shows it.
* `Registry.lookup` — the presentation of an object, or nothing if its type is not registered.
* `Presentation.summary`, `Presentation.hint` — what both roles have.
-/

namespace Postmortem

/-- An object as the role of its type shows it. -/
inductive Presentation where
  /-- As a container, of which at most so many elements are shown. -/
  | container (container : Container) (limit : Option Nat)
  | iterator (iterator : IteratorHandle)
  deriving Repr, DecidableEq

namespace Presentation

def summary (image : Image) : Presentation → Reading String
  | container c _ => c.summary image
  | iterator i => i.summary image

/-- How the children of an object are best laid out. -/
def hint : Presentation → DisplayHint
  | container c _ => c.hint
  | iterator i => i.hint

end Presentation

/-- The presentation of an object, by the role its type is registered under. -/
def Registry.lookup (registry : Registry) (image : Image) (object : Object)
    (limit : Option Nat) : Inspection (Option Presentation) := do
  match registry.roleOf (← (image.typeName object : Reading _)) with
  | some .container => return some (.container (← Container.inspect image object) limit)
  | some .iterator => return some (.iterator (← IteratorHandle.inspect image object))
  | none => return none

end Postmortem
