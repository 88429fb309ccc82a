import Postmortem.Classification
import Postmortem.Fault

/-!
# Events: what an inspection logs

While an image is inspected, a log is kept of what is looked at and how traversals end.

* `Event` — what happened.
* `Event.severity`, `Event.message`, `Event.fields` — how it is shown.
-/

namespace Postmortem

/-- How much an event matters. -/
inductive Severity where
  /-- A detail of a traversal. -/
  | trace
  /-- Something was opened, or a traversal finished. -/
  | debug
  /-- A traversal was cut short. -/
  | warn
  deriving Repr, DecidableEq

/-- Something that happened during an inspection. -/
inductive Event where
  | containerOpened (classification : Classification) (address : Nat)
  | iteratorOpened (family : Family) (address : Nat)
  /-- No slot was left in a group, and the walk went on to this one. -/
  | groupSkipped (group : Nat)
  | traversalFinished (elements : Nat)
  /-- A traversal stopped because it had visited as many elements as it was allowed to. -/
  | limitReached (limit : Nat)
  /-- The first element past the limit could not be read. -/
  | unreadablePastLimit (limit : Nat) (fault : Fault)
  deriving Repr, DecidableEq

namespace Event

def severity : Event → Severity
  | groupSkipped _ => .trace
  | containerOpened .. | iteratorOpened .. | traversalFinished _ => .debug
  | limitReached _ | unreadablePastLimit .. => .warn

def message : Event → String
  | containerOpened .. => "constructed container formatter"
  | iteratorOpened .. => "constructed iterator formatter"
  | groupSkipped _ => "skipping to next group"
  | traversalFinished _ => "traversal finished"
  | limitReached _ => "element limit reached, traversal truncated"
  | unreadablePastLimit .. => "element past the limit is unreadable"

def familyName : Family → String
  | .bucket => "Bucket"
  | .grouped => "Grouped"

def kindName : Kind → String
  | .set => "Set"
  | .map => "Map"

/-- What an event is about, by name. -/
def fields : Event → List (String × String)
  | containerOpened classification address =>
    [("container", classification.displayName), ("family", familyName classification.family),
      ("kind", kindName classification.kind), ("address", toString address)]
  | iteratorOpened family address =>
    [("family", familyName family), ("address", toString address)]
  | groupSkipped group => [("group", toString group)]
  | traversalFinished elements => [("elements", toString elements)]
  | limitReached limit => [("limit", toString limit)]
  | unreadablePastLimit limit fault =>
    [("limit", toString limit), ("error", fault.message)]

end Event

end Postmortem
