import Postmortem.Classification

/-!
# The registry: which types are handled, and how

A registry is a list of template names, each with the role of its instantiations.  It is built at
startup and passed to whatever resolves objects.

* `Registry.register` — a name registered.
* `Registry.boost` — every container and iterator that can be decoded.
* `Registry.roleOf` — the role of a type, by the earliest registered template it is an instance of.
-/

namespace Postmortem

/-- How an object is looked at. -/
inductive Role where
  | container
  | iterator
  deriving Repr, DecidableEq

/-- Template names with the role of their instantiations, in order of registration. -/
structure Registry where
  /-- The registrations, the earliest first. -/
  patterns : List (String × Role)
  deriving Repr, DecidableEq

namespace Registry

def empty : Registry :=
  ⟨[]⟩

instance : Inhabited Registry :=
  ⟨empty⟩

/-- A template registered under a role, after all others. -/
def register (registry : Registry) (role : Role) (name : String) : Registry :=
  ⟨registry.patterns ++ [(name, role)]⟩

def length (registry : Registry) : Nat :=
  registry.patterns.length

def isEmpty (registry : Registry) : Bool :=
  registry.patterns.isEmpty

/-- The role of the earliest template that a type is an instance of. -/
def roleOf (registry : Registry) (typeName : String) : Option Role :=
  (registry.patterns.find? fun pattern => TypeName.isInstanceOf typeName pattern.1).map (·.2)

/-- Every container and iterator that can be decoded. -/
def boost : Registry :=
  ⟨(bucketContainers ++ groupedContainers).map (·, .container)
    ++ (bucketIterators ++ groupedIterators).map (·, .iterator)⟩

end Registry

end Postmortem
