/-!
# Type names

Types are known by their full names, such as `ns::table<int, ns::hash<int> >`.  What a decoder asks
of a name is its text up to the first `<`, and whether it is an instantiation of a given template.

* `TypeName.startsWith`, `TypeName.endsWith` — comparison of the ends of a name.
* `TypeName.base` — the name without its template arguments.
* `TypeName.isInstanceOf` — the name is the template's, then `<`, then anything, then `>`.
* `TypeName.replaceAll` — every occurrence of a text in a name replaced, from left to right.
-/

namespace Postmortem

namespace TypeName

def startsWith (name start : String) : Bool :=
  start.toList.isPrefixOf name.toList

def endsWith (name tail : String) : Bool :=
  tail.toList.isSuffixOf name.toList

/-- The name up to the first `<`. -/
def base (name : String) : String :=
  String.ofList (name.toList.takeWhile (· != '<'))

/-- The name is an instantiation of the template: its name, `<`, any arguments, `>`. -/
def isInstanceOf (name template : String) : Bool :=
  let start := template.toList ++ ['<']
  start.isPrefixOf name.toList && (name.toList.drop start.length).getLast? == some '>'

/-! ## Replacing text -/

/-- Text with every occurrence of `old` replaced by `new`, from left to right, the first `skip`
characters left out because they belong to an occurrence already replaced. -/
def replaceFrom (old new : List Char) : Nat → List Char → List Char
  | _, [] => []
  | skip + 1, _ :: text => replaceFrom old new skip text
  | 0, c :: text =>
    if old.isPrefixOf (c :: text) then new ++ replaceFrom old new (old.length - 1) text
    else c :: replaceFrom old new 0 text

/-- A name with every occurrence of `old` replaced by `new`. -/
def replaceAll (name old new : String) : String :=
  String.ofList (replaceFrom old.toList new.toList 0 name.toList)

/-! ## What an instance is -/

/-- **A name is an instance of a template exactly when it is written as one.** -/
theorem isInstanceOf_iff {name template : String} :
    isInstanceOf name template = true ↔
      ∃ arguments : List Char, name.toList = template.toList ++ '<' :: arguments ++ ['>'] := by
  simp only [isInstanceOf, Bool.and_eq_true, List.isPrefixOf_iff_prefix, beq_iff_eq]
  constructor
  · rintro ⟨⟨rest, hrest⟩, hlast⟩
    rw [← hrest, List.drop_left] at hlast
    obtain ⟨arguments, rfl⟩ := List.getLast?_eq_some_iff.1 hlast
    exact ⟨arguments, by rw [← hrest]; simp⟩
  · rintro ⟨arguments, h⟩
    have split : template.toList ++ '<' :: arguments ++ ['>'] =
        (template.toList ++ ['<']) ++ (arguments ++ ['>']) := by simp
    rw [h, split]
    exact ⟨List.prefix_append _ _, by rw [List.drop_left]; simp⟩

end TypeName

end Postmortem
