import Postmortem.Container.Children
import Postmortem.Image.Render

/-!
# Containers as text

A container is shown by a summary of one line, and in full by the summary with all its pairs, as in
`boost::unordered_set with 2 elements = {[0] = 5, [1] = 7}`.

* `Container.summary` — the name and the number of elements the container records.
* `Image.renderChild` — the text of a child.
* `Container.render` — the summary with the pairs, or the first fault met.

A traversal that ends gives no more elements than `Children.bound` says, and that many pairs are
taken at most.  One that goes on has no text.
-/

namespace Postmortem

/-- How the children of an object are best laid out. -/
inductive DisplayHint where
  /-- Children alternate between keys and values. -/
  | keyed
  /-- No layout is preferred. -/
  | plain
  deriving Repr, DecidableEq

namespace DisplayHint

def text : DisplayHint → String
  | keyed => "map"
  | plain => "none"

end DisplayHint

/-- The text of a child: that of its object, or its ordinal in decimal. -/
def Image.renderChild (image : Image) (child : Child) : Reading String :=
  match child.value with
  | .object object => image.render object
  | .ordinal n => return toString n

def pairText (key value : String) : String :=
  "[" ++ key ++ "] = " ++ value

/-- The texts of the pairs of a sequence that has at most `bound` of them. -/
def Children.renderPairs (image : Image) : Nat → Children → Inspection (List String)
  | 0, _ => throw .endless
  | bound + 1, children => do
    let (entry, children) ← (children.next image : Logged _)
    match entry with
    | .done => return []
    | .fault fault => throw fault
    | .item key =>
      let key ← (image.renderChild key : Reading _)
      let (entry, children) ← (children.next image : Logged _)
      match entry with
      | .done => return []
      | .fault fault => throw fault
      | .item value =>
        let value ← (image.renderChild value : Reading _)
        return pairText key value :: (← Children.renderPairs image bound children)

namespace Container

/-- The container's name and the number of elements it records. -/
def summary (c : Container) (image : Image) : Reading String :=
  return c.classification.displayName ++ " with " ++ toString (← c.length image).toNat
    ++ " elements"

/-- Children come in pairs, also those of sets. -/
def hint (_ : Container) : DisplayHint :=
  .keyed

/-- The summary with the pairs of at most `limit` elements. -/
def render (c : Container) (image : Image) (limit : Option Nat) : Inspection String := do
  let summary ← c.summary image
  let children ← c.children image limit
  let pairs ← Children.renderPairs image (children.bound image + 1) children
  return summary ++ " = " ++ braced pairs

end Container

end Postmortem
