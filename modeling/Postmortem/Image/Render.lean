import Postmortem.Image.Read

/-!
# Objects as text

An object is written the way a debugger prints it: integers in decimal, pointers in hexadecimal,
arrays as `{a, b}`, records as `{name = a, <base> = b}`.  What a pointer points at is not read, so
structures that are linked in a circle do not matter.

* `Image.render` — the text of an object, or the first fault met from left to right.
* `braced`, `memberLabel` — how lists and members are written.

A type laid out inside itself is followed as long as its parts can be read, and has no text.  Going
inwards addresses never fall, and nothing can be read above the last mapped byte.  So a path that
meets no type twice at one address, and none twice above that byte, is no longer than the number of
types times the number of addresses up to there; any other path goes on for ever.  `Image.render`
looks one step deeper than that (`Image.nesting`).
-/

namespace Postmortem

def braced (items : List String) : String :=
  "\x7b" ++ ", ".intercalate items ++ "\x7d"

/-- How a member is introduced: a base between angle brackets. -/
def memberLabel (f : Field) : String :=
  (if f.isBase then "<" ++ f.name ++ ">" else f.name) ++ " = "

/-- The results of `f` at `count` consecutive numbers from `start` on, up to the first fault. -/
def collectFrom (f : Nat → Reading String) : Nat → Nat → Reading (List String)
  | _, 0 => return []
  | start, count + 1 => do
    let text ← f start
    return text :: (← collectFrom f (start + 1) count)

namespace Image

/-- The text of an object whose type is nested at most `depth` deep. -/
def renderNested (image : Image) : Nat → Object → Reading String
  | 0, _ => throw .endless
  | depth + 1, o => do
    match (← image.types.info o.type).kind with
    | .unsigned => return toString (← image.readUnsigned o).toNat
    | .signed => return toString (← image.readSigned o)
    | .pointer _ => return hexText (← image.readAddress o)
    | .array _ length =>
      return braced (← collectFrom (fun i => do image.renderNested depth (← image.index o i))
        0 length)
    | .record fields =>
      return braced (← fields.mapM fun f =>
        return memberLabel f ++ (← image.renderNested depth (o.part f.place)))

/-- How deep types can be laid out inside each other on a path that ends. -/
def nesting (image : Image) : Nat :=
  image.types.size * (image.memory.limit + 1)

def render (image : Image) (o : Object) : Reading String :=
  image.renderNested (image.nesting + 1) o

end Image

end Postmortem
