import Postmortem.TypeTable.Basic

/-!
# Asking the type table

Questions about a type that need no memory to answer.  Each of them fails if nothing is defined
under the id.

* `Reading` — a result, or the fault that prevented it.
* `TypeTable.info`, `TypeTable.nameOf`, `TypeTable.byteSize` — the type under an id.
* `TypeTable.target`, `TypeTable.templateArg`, `TypeTable.constant` — what a pointer points at, what
  a template was instantiated with, what a static constant holds.
* `TypeTable.findMember` — where a named member lies in a record.  **The record's own members come
  before those of its bases**, and the bases are searched in order, each with its own bases first.

A record that is its own base has members without end.  A path through bases that meets no type
twice is no longer than the table, so `findMember` gives up one step later.
-/

namespace Postmortem

/-- A result, or the fault that prevented it. -/
abbrev Reading (α : Type) : Type :=
  Except Fault α

/-- Where a member lies: its distance from the start of the record, and its type. -/
structure Place where
  offset : Nat
  type : TypeId
  deriving Repr, DecidableEq

namespace Place

/-- The place in a record of what lies in one of its bases. -/
def within (p : Place) (base : Field) : Place :=
  ⟨base.offset + p.offset, p.type⟩

end Place

namespace Field

def place (f : Field) : Place :=
  ⟨f.offset, f.type⟩

end Field

namespace TypeTable

/-! ## One type -/

def info (types : TypeTable) (id : TypeId) : Reading TypeInfo :=
  match types.get? id with
  | some info => .ok info
  | none => .error (.unknownType id)

def nameOf (types : TypeTable) (id : TypeId) : Reading String :=
  return (← types.info id).name

def byteSize (types : TypeTable) (id : TypeId) : Reading Nat :=
  return (← types.info id).size

def target (types : TypeTable) (id : TypeId) : Reading TypeId := do
  let info ← types.info id
  match info.kind with
  | .pointer target => return target
  | _ => throw (.notAPointer info.name)

def templateArg (types : TypeTable) (id : TypeId) (index : Nat) : Reading TypeId := do
  let info ← types.info id
  match info.templateArgs[index]? with
  | some argument => return argument
  | none => throw (.noTemplateArgument info.name index)

/-- A static constant by name, if the type records it.  The first of a name counts. -/
def constant (types : TypeTable) (id : TypeId) (name : String) : Reading (Option Word) :=
  return (← types.info id).constants.lookup name

/-! ## Members -/

/-- The member of a record with this name, seen through at most `depth` records: one of its own
members that is no base, else the first found in its bases.  What is not a record has no members. -/
def findMember (types : TypeTable) (name : String) : Nat → TypeId → Reading (Option Place)
  | 0, _ => throw .endless
  | depth + 1, id => do
    match (← types.info id).kind with
    | .record fields =>
      match fields.find? (fun f => !f.isBase && f.name == name) with
      | some f => return some f.place
      | none =>
        (fields.filter fun f => f.isBase).findSomeM? fun base =>
          return (← types.findMember name depth base.type).map (·.within base)
    | _ => return none

/-- Where a named member lies in a type, at whatever depth. -/
def member (types : TypeTable) (id : TypeId) (name : String) : Reading Place := do
  match ← types.findMember name (types.size + 1) id with
  | some place => return place
  | none => throw (.noSuchField (← types.nameOf id) name)

end TypeTable

end Postmortem
