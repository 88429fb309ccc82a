import Postmortem.Event
import Postmortem.TypeTable.Query

/-!
# Inspections: results with a log

Looking at a container gives a result, or a fault, and in either case a log of what happened on the
way.

* `Logged` — a value with the events that led to it, in order; a monad that concatenates them.
* `Inspection` — a `Logged` result that can fail.  **The log of a failed inspection is kept.**
* `Entry` — one answer of a traversal: an element, a fault, or the end.
-/

namespace Postmortem

/-! ## Logs -/

/-- A value with the events that led to it. -/
structure Logged (α : Type) where
  value : α
  /-- What happened, the earliest first. -/
  events : List Event
  deriving Repr, DecidableEq

namespace Logged

instance : Monad Logged where
  pure a := ⟨a, []⟩
  bind x f := ⟨(f x.value).value, x.events ++ (f x.value).events⟩

def record (event : Event) : Logged Unit :=
  ⟨(), [event]⟩

@[simp] theorem value_pure {α : Type} (a : α) : (pure a : Logged α).value = a := rfl

@[simp] theorem events_pure {α : Type} (a : α) : (pure a : Logged α).events = [] := rfl

@[simp] theorem value_bind {α β : Type} (x : Logged α) (f : α → Logged β) :
    (x >>= f).value = (f x.value).value := rfl

@[simp] theorem events_bind {α β : Type} (x : Logged α) (f : α → Logged β) :
    (x >>= f).events = x.events ++ (f x.value).events := rfl

@[simp] theorem value_record (event : Event) : (record event).value = () := rfl

@[simp] theorem events_record (event : Event) : (record event).events = [event] := rfl

/-- Two logged values are equal if their values and their logs are. -/
theorem eq_iff {α : Type} {x y : Logged α} : x = y ↔ x.value = y.value ∧ x.events = y.events := by
  cases x
  cases y
  simp

instance : LawfulMonad Logged :=
  LawfulMonad.mk' Logged
    (fun x => by simp [Functor.map])
    (fun _ _ => by simp [eq_iff])
    (fun _ _ _ => by simp [eq_iff])

end Logged

/-! ## Inspections -/

/-- A result that can fail, with a log either way. -/
abbrev Inspection (α : Type) : Type :=
  ExceptT Fault Logged α

/-- A reading logs nothing. -/
instance : MonadLift Reading Inspection where
  monadLift r := ExceptT.mk (pure r)

/-! ## Entries -/

/-- One answer of a traversal. -/
inductive Entry (α : Type) where
  | item (value : α)
  | fault (fault : Fault)
  | done
  deriving Repr, DecidableEq

namespace Entry

/-- What a reading gives to a traversal. -/
def ofReading {α : Type} : Reading α → Entry α
  | .ok a => item a
  | .error f => fault f

end Entry

end Postmortem
