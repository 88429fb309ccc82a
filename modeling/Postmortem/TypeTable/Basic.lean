import Postmortem.Fault
import Postmortem.Word

/-!
# The type table: how objects are laid out

A debugger knows from debug information how each type is laid out.  A `TypeTable` holds as much of
that as walking a container needs: integers, pointers, arrays and records with named members, and of
every type its template arguments and constants.

* `TypeKind`, `Field`, `TypeInfo` — the layout of one type.
* `TypeTable` — types under consecutive ids.  An id can be declared before its type is known, so
  that types may refer to each other; until it is defined, nothing is found under it.
* `TypeTable.add`, `TypeTable.declare`, `TypeTable.define` — what a table is built with, and
  **`get?_add`**, **`get?_declare`**, **`get?_define`** — what is found afterwards.
-/

namespace Postmortem

/-! ## Types -/

/-- A member of a record. -/
structure Field where
  /-- The member's name; of a base, the name of its type. -/
  name : String
  /-- The distance from the start of the record, in bytes. -/
  offset : Nat
  type : TypeId
  /-- The member is a base, whose own members are visible through the record. -/
  isBase : Bool
  deriving Repr, DecidableEq

/-- What a type is made of. -/
inductive TypeKind where
  | unsigned
  /-- An integer in two's complement. -/
  | signed
  /-- The address of an object. -/
  | pointer (target : TypeId)
  /-- So many objects of one type, one after the other. -/
  | array (element : TypeId) (length : Nat)
  /-- Named members at byte offsets. -/
  | record (fields : List Field)
  deriving Repr, DecidableEq

/-- A type: its name, its size and what it is made of. -/
structure TypeInfo where
  /-- The full name, template arguments included. -/
  name : String
  size : Nat
  kind : TypeKind
  /-- The types it was instantiated with. -/
  templateArgs : List TypeId
  /-- Its static constants, such as the number of slots of a group. -/
  constants : List (String × Word)
  deriving Repr, DecidableEq

namespace TypeInfo

def isPointer (info : TypeInfo) : Bool :=
  match info.kind with
  | .pointer _ => true
  | _ => false

def plain (name : String) (size : Nat) (kind : TypeKind) : TypeInfo :=
  ⟨name, size, kind, [], []⟩

end TypeInfo

/-! ## Tables -/

/-- Types under consecutive ids; an id that is only declared holds nothing yet. -/
structure TypeTable where
  entries : Array (Option TypeInfo)
  deriving Repr, DecidableEq

namespace TypeTable

def empty : TypeTable :=
  ⟨#[]⟩

instance : Inhabited TypeTable :=
  ⟨empty⟩

/-- How many ids are in use, the declared ones included. -/
def size (table : TypeTable) : Nat :=
  table.entries.size

/-- The type under an id, if there is one and it is defined. -/
def get? (table : TypeTable) (id : TypeId) : Option TypeInfo :=
  table.entries[id]?.join

def add (table : TypeTable) (info : TypeInfo) : TypeId × TypeTable :=
  (table.size, ⟨table.entries.push (some info)⟩)

/-- The next id, for a type that is defined later. -/
def declare (table : TypeTable) : TypeId × TypeTable :=
  (table.size, ⟨table.entries.push none⟩)

/-- A type put under an id that is in use; any other id is ignored. -/
def define (table : TypeTable) (id : TypeId) (info : TypeInfo) : TypeTable :=
  ⟨table.entries.setIfInBounds id (some info)⟩

/-- The lowest id whose type has this name. -/
def lookup (table : TypeTable) (name : String) : Option TypeId :=
  table.entries.findIdx? fun entry => entry.any fun info => info.name == name

def addUnsigned (table : TypeTable) (name : String) (size : Nat) : TypeId × TypeTable :=
  table.add (.plain name size .unsigned)

/-- A new pointer type, named after what it points at. -/
def addPointer (table : TypeTable) (target : TypeId) : TypeId × TypeTable :=
  let name := match table.get? target with
    | some info => info.name ++ " *"
    | none => "void *"
  table.add (.plain name 8 (.pointer target))

/-- A new array type, named after its elements and their number.  While the element type is not
known the array has no size. -/
def addArray (table : TypeTable) (element : TypeId) (length : Nat) : TypeId × TypeTable :=
  let (name, size) := match table.get? element with
    | some info => (info.name, info.size * length)
    | none => ("?", 0)
  table.add (.plain (name ++ " [" ++ toString length ++ "]") size (.array element length))

/-! ## What is found -/

theorem get?_empty (id : TypeId) : empty.get? id = none := by
  simp [get?, empty]

/-- **A type added is found under the id it was given, and changes no other id.** -/
theorem get?_add (table : TypeTable) (info : TypeInfo) (id : TypeId) :
    (table.add info).2.get? id = if id = table.size then some info else table.get? id := by
  simp only [get?, add, size, Array.getElem?_push]
  grind

/-- **Declaring an id changes nothing that is found.** -/
theorem get?_declare (table : TypeTable) (id : TypeId) :
    table.declare.2.get? id = table.get? id := by
  simp only [get?, declare, Array.getElem?_push]
  grind

/-- **A definition is found under its id, if that is in use, and changes no other id.** -/
theorem get?_define (table : TypeTable) (target : TypeId) (info : TypeInfo) (id : TypeId) :
    (table.define target info).get? id =
      if id = target ∧ id < table.size then some info else table.get? id := by
  simp only [get?, define, size, Array.getElem?_setIfInBounds]
  grind

/-- Only ids in use hold a type. -/
theorem lt_size_of_get? {table : TypeTable} {id : TypeId} {info : TypeInfo}
    (h : table.get? id = some info) : id < table.size := by
  simp only [get?, Option.join_eq_some_iff, Array.getElem?_eq_some_iff] at h
  obtain ⟨hlt, -⟩ := h
  exact hlt

end TypeTable

end Postmortem
