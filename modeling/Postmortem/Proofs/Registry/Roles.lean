import Mathlib.Data.List.Find
import Mathlib.Tactic.Lemma
import Postmortem.Registry

/-!
# The role of a type is the role of its name

A registry goes through its templates in order and compares each with the whole name of a type, while
a classification cuts that name at the first `<`.  As long as no template has a `<` in it the two
agree: the only template that a type can be an instance of is its own base.  So it is enough to know
how that one name was registered first, and the order of other registrations is of no account.

* `Registry.ofCalls` — a registry built by any calls.
* `Registry.FirstCall` — how a name was registered first.
* `TypeName.base_instance` — what a template leaves in the name of its instances.
* `Registry.roleOf_eq_some_iff`, `Registry.roleOf_reordered` — how a role is found.
* `Registry.classify_of_boost` — what the classification makes of known types.
* **`roleOf_eq_first_call`** — the roles of all types, and the classification of those that are known.
-/

namespace Postmortem

/-! ## Instances of a template without a `<` -/

namespace TypeName

lemma eq_instance_iff {name template arguments : String} :
    name = template ++ "<" ++ arguments ++ ">" ↔
      name.toList = template.toList ++ '<' :: arguments.toList ++ ['>'] := by
  rw [← String.toList_inj]
  simp [String.toList_append]

lemma isInstanceOf_iff_exists {name template : String} :
    isInstanceOf name template = true ↔
      ∃ arguments : String, name = template ++ "<" ++ arguments ++ ">" := by
  simp only [isInstanceOf_iff, eq_instance_iff]
  constructor
  · rintro ⟨arguments, written⟩
    exact ⟨String.ofList arguments, by rw [written, String.toList_ofList]⟩
  · rintro ⟨arguments, written⟩
    exact ⟨arguments.toList, written⟩

/-- The text before the first `<` of an instance is its template. -/
lemma base_instance {template : String} (plain : '<' ∉ template.toList) (arguments : String) :
    base (template ++ "<" ++ arguments ++ ">") = template := by
  have before : ∀ c ∈ template.toList, (c != '<') = true := by
    intro c inside
    exact bne_iff_ne.mpr fun same => plain (same ▸ inside)
  rw [base, eq_instance_iff.mp rfl, List.append_assoc,
    List.takeWhile_append_of_pos before]
  simp

end TypeName

namespace Registry

/-! ## Registries built by calls -/

/-- The registry that calls leave behind, each with a name and a role. -/
def ofCalls (calls : List (String × Role)) : Registry :=
  calls.foldl (fun registry call => registry.register call.2 call.1) empty

/-- The role of the earliest call with the name. -/
def FirstCall (calls : List (String × Role)) (name : String) (role : Role) : Prop :=
  ∃ before after, calls = before ++ (name, role) :: after ∧ ∀ call ∈ before, call.1 ≠ name

variable {calls calls' : List (String × Role)} {name typeName : String} {role : Role}

lemma patterns_foldl_register (calls : List (String × Role)) (registry : Registry) :
    (calls.foldl (fun registry call => registry.register call.2 call.1) registry).patterns =
      registry.patterns ++ calls := by
  induction calls generalizing registry with
  | nil => simp
  | cons call calls ih =>
      rw [List.foldl_cons, ih]
      simp [register]

@[simp] lemma patterns_ofCalls (calls : List (String × Role)) : (ofCalls calls).patterns = calls := by
  simp [ofCalls, patterns_foldl_register, empty]

lemma ofCalls_patterns (registry : Registry) : ofCalls registry.patterns = registry := by
  cases registry with
  | mk patterns => exact congrArg mk (patterns_ofCalls patterns)

lemma firstCall_iff : FirstCall calls name role ↔
    calls.find? (fun call => call.1 == name) = some (name, role) := by
  rw [List.find?_eq_some_iff_append]
  simp [FirstCall]

lemma exists_firstCall (registered : name ∈ calls.map Prod.fst) :
    ∃ role, FirstCall calls name role := by
  obtain ⟨call, inside, rfl⟩ := List.mem_map.mp registered
  cases found : calls.find? (fun call' => call'.1 == call.1) with
  | none => simpa using List.find?_eq_none.mp found call inside
  | some first =>
      have same : first.1 = call.1 := by simpa using List.find?_some found
      exact ⟨first.2, firstCall_iff.mpr (by rw [found, ← same])⟩

lemma FirstCall.mem (first : FirstCall calls name role) : (name, role) ∈ calls :=
  List.mem_of_find?_eq_some (firstCall_iff.mp first)

/-! ## The role of a type -/

/-- Which template a type is an instance of is told by its base. -/
lemma isInstanceOf_eq_of_plain {arguments : String} (plain : ∀ call ∈ calls, '<' ∉ call.1.toList)
    {call : String × Role} (inside : call ∈ calls) (registered : '<' ∉ name.toList) :
    TypeName.isInstanceOf (name ++ "<" ++ arguments ++ ">") call.1 = (call.1 == name) := by
  rw [Bool.eq_iff_iff, beq_iff_eq, TypeName.isInstanceOf_iff_exists]
  constructor
  · rintro ⟨arguments', same⟩
    rw [← TypeName.base_instance (plain call inside) arguments', ← same,
      TypeName.base_instance registered]
  · rintro rfl
    exact ⟨arguments, rfl⟩

/-- The templates compared with an instance of a template act as the names compared with its name. -/
lemma roleOf_instance (plain : ∀ call ∈ calls, '<' ∉ call.1.toList) (registered : '<' ∉ name.toList)
    (arguments : String) : (ofCalls calls).roleOf (name ++ "<" ++ arguments ++ ">") =
      (calls.find? fun call => call.1 == name).map (·.2) := by
  rw [roleOf, patterns_ofCalls]
  congr 1
  exact List.find?_congr fun call inside => isInstanceOf_eq_of_plain plain inside registered

/-- **The role of a type is how its name was registered first**, and only an instance of a registered
name has one. -/
lemma roleOf_eq_some_iff (plain : ∀ call ∈ calls, '<' ∉ call.1.toList) :
    (ofCalls calls).roleOf typeName = some role ↔
      ∃ name arguments, typeName = name ++ "<" ++ arguments ++ ">" ∧ FirstCall calls name role := by
  constructor
  · intro answer
    obtain ⟨call, found, rfl⟩ := Option.map_eq_some_iff.mp answer
    rw [patterns_ofCalls] at found
    have inside : call ∈ calls := List.mem_of_find?_eq_some found
    have instantiated := List.find?_some found
    obtain ⟨arguments, rfl⟩ := TypeName.isInstanceOf_iff_exists.mp instantiated
    refine ⟨call.1, arguments, rfl, firstCall_iff.mpr ?_⟩
    rw [← found]
    exact List.find?_congr fun call' inside' =>
      (isInstanceOf_eq_of_plain plain inside' (plain call inside)).symm
  · rintro ⟨name, arguments, rfl, first⟩
    rw [roleOf_instance plain (plain _ first.mem), firstCall_iff.mp first, Option.map_some]

/-- Calls that agree on every one name first register each name alike. -/
lemma firstCall_congr
    (sameOrder : ∀ name, calls'.filter (fun call => call.1 == name) =
      calls.filter fun call => call.1 == name) :
    FirstCall calls' name role ↔ FirstCall calls name role := by
  rw [firstCall_iff, firstCall_iff, ← List.head?_filter, ← List.head?_filter, sameOrder]

/-- **Only calls with the same name have to keep their order.** -/
lemma roleOf_reordered (plain : ∀ call ∈ calls, '<' ∉ call.1.toList)
    (sameOrder : ∀ name, calls'.filter (fun call => call.1 == name) =
      calls.filter fun call => call.1 == name) :
    (ofCalls calls').roleOf typeName = (ofCalls calls).roleOf typeName := by
  have plain' : ∀ call ∈ calls', '<' ∉ call.1.toList := by
    intro call inside
    have kept : call ∈ calls'.filter fun call' => call'.1 == call.1 :=
      List.mem_filter.mpr ⟨inside, beq_self_eq_true _⟩
    rw [sameOrder] at kept
    exact plain call (List.mem_filter.mp kept).1
  refine Option.ext fun role => ?_
  simp only [roleOf_eq_some_iff plain, roleOf_eq_some_iff plain', firstCall_congr sameOrder]

end Registry

/-! ## What known types are classified as -/

namespace TypeName

lemma endsWith_iff {name tail : String} :
    endsWith name tail = true ↔ ∃ start, name = start ++ tail := by
  rw [endsWith, List.isSuffixOf_iff_suffix]
  constructor
  · rintro ⟨start, written⟩
    exact ⟨String.ofList start, by rw [← String.toList_inj]; simp [written]⟩
  · rintro ⟨start, rfl⟩
    exact ⟨start.toList, by simp⟩

end TypeName

lemma classify_family_eq_grouped_iff {typeName : String} :
    (classify typeName).family = .grouped ↔
      TypeName.base typeName ∈ groupedContainers ∨ TypeName.base typeName ∈ groupedIterators := by
  simp only [classify, familyOf]
  rw [← List.mem_append, ← List.contains_iff_mem]
  split <;> simp_all

lemma classify_kind_eq_map_iff {typeName : String} :
    (classify typeName).kind = .map ↔ ∃ start, TypeName.base typeName = start ++ "map" := by
  rw [← TypeName.endsWith_iff]
  simp only [classify, kindOf]
  split <;> simp_all

namespace Registry

lemma boost_plain : ∀ call ∈ boost.patterns, '<' ∉ call.1.toList := by
  decide +kernel

/-- Whatever the arguments of a known type, its classification is that of its template. -/
lemma classify_of_boost {typeName : String} {role : Role}
    (known : boost.roleOf typeName = some role) :
    ∃ name arguments, typeName = name ++ "<" ++ arguments ++ ">" ∧ (name, role) ∈ boost.patterns ∧
      ((classify typeName).family = .grouped ↔
        name ∈ groupedContainers ∨ name ∈ groupedIterators) ∧
      ((classify typeName).kind = .map ↔ ∃ start, name = start ++ "map") := by
  rw [← ofCalls_patterns boost, roleOf_eq_some_iff boost_plain] at known
  obtain ⟨name, arguments, rfl, first⟩ := known
  have base := TypeName.base_instance (boost_plain _ first.mem) arguments
  refine ⟨name, arguments, rfl, first.mem, ?_, ?_⟩
  · rw [classify_family_eq_grouped_iff, base]
  · rw [classify_kind_eq_map_iff, base]

end Registry

open Registry in
/-- **Roles and classifications go by the same name.**  For a registry built by any calls, of which no
name has a `<` in it, and for any text: a role is found exactly when the text is a registered name, `<`,
anything, and `>`, and it is the role of the first call with that name; that name is then what is left
of the text without its template arguments, and there is such a role for every registered name.  Calls
with different names can be exchanged without changing an answer.  If the registry of all known types
has a role for the text, its name is that of a container or iterator with groups exactly when it is
classified so, and ends in `map` exactly when it is classified as a map. -/
theorem roleOf_eq_first_call (calls : List (String × Role))
    (plain : ∀ call ∈ calls, '<' ∉ call.1.toList) (typeName : String) :
    (∀ role, (ofCalls calls).roleOf typeName = some role ↔
      ∃ name arguments, typeName = name ++ "<" ++ arguments ++ ">" ∧ FirstCall calls name role) ∧
    (∀ name arguments, typeName = name ++ "<" ++ arguments ++ ">" → name ∈ calls.map Prod.fst →
      TypeName.base typeName = name ∧ ∃ role, (ofCalls calls).roleOf typeName = some role) ∧
    (∀ calls' : List (String × Role),
      (∀ name, calls'.filter (fun call => call.1 == name) =
        calls.filter fun call => call.1 == name) →
      (ofCalls calls').roleOf typeName = (ofCalls calls).roleOf typeName) ∧
    ∀ role, boost.roleOf typeName = some role → ∃ name arguments,
      typeName = name ++ "<" ++ arguments ++ ">" ∧ (name, role) ∈ boost.patterns ∧
      ((classify typeName).family = .grouped ↔
        name ∈ groupedContainers ∨ name ∈ groupedIterators) ∧
      ((classify typeName).kind = .map ↔ ∃ start, name = start ++ "map") := by
  refine ⟨fun role => roleOf_eq_some_iff plain, ?_, fun calls' => roleOf_reordered plain,
    fun role => classify_of_boost⟩
  rintro name arguments rfl registered
  obtain ⟨role, first⟩ := exists_firstCall registered
  refine ⟨TypeName.base_instance (plain _ first.mem) arguments, role, ?_⟩
  exact (roleOf_eq_some_iff plain).mpr ⟨name, arguments, rfl, first⟩

open Registry in
/-- A name that begins like another one, and one that was registered twice. -/
theorem flatMaps_registered :
    let calls : List (String × Role) := [("my::flat_map", .container),
      ("my::flat_map_iterator", .iterator), ("my::flat_map", .iterator)]
    let calls' : List (String × Role) := [("my::flat_map_iterator", .iterator),
      ("my::flat_map", .container), ("my::flat_map", .iterator)]
    (ofCalls calls).roleOf "my::flat_map<K, V<X> >" = some .container ∧
      TypeName.base "my::flat_map<K, V<X> >" = "my::flat_map" ∧
      (ofCalls calls').roleOf "my::flat_map<K, V<X> >" = some .container ∧
      ∃ name arguments, "boost::unordered::unordered_set<my::map>" = name ++ "<" ++ arguments ++ ">" ∧
        (name, Role.container) ∈ boost.patterns ∧
        ((classify "boost::unordered::unordered_set<my::map>").kind = .map ↔
          ∃ start, name = start ++ "map") := by
  intro calls calls'
  have plain : ∀ call ∈ calls, '<' ∉ call.1.toList := by decide +kernel
  obtain ⟨roles, names, reorders, -⟩ := roleOf_eq_first_call calls plain "my::flat_map<K, V<X> >"
  have container : (ofCalls calls).roleOf "my::flat_map<K, V<X> >" = some .container :=
    (roles .container).mpr ⟨"my::flat_map", "K, V<X> ", by decide +kernel, [], _, rfl, by simp⟩
  have base := (names "my::flat_map" "K, V<X> " (by decide +kernel) (by decide +kernel)).1
  have sameOrder : ∀ name, calls'.filter (fun call => call.1 == name) =
      calls.filter fun call => call.1 == name := by
    intro name
    by_cases same : "my::flat_map" = name
    · subst same
      decide +kernel
    · simp [calls, calls', same, List.filter_cons]
  obtain ⟨-, -, -, known⟩ :=
    roleOf_eq_first_call [] (by simp) "boost::unordered::unordered_set<my::map>"
  obtain ⟨name, arguments, written, listed, -, kind⟩ := known .container (by decide +kernel)
  exact ⟨container, base, (reorders calls' sameOrder).trans container,
    name, arguments, written, listed, kind⟩

end Postmortem
