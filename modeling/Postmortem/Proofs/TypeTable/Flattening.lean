import Mathlib.Data.Finset.Card
import Mathlib.Data.Finset.Range
import Mathlib.Logic.Relation
import Postmortem.Image.Read
import Postmortem.Proofs.Image.StoredIntegers
import Postmortem.Proofs.Reading

/-!
# A member is the first of its name in the flattened record

A lookup mixes two orders: the own members of a record come before those of its bases, and the bases
are gone through one at a time, each with everything below it.  Both are the order of one list, in
which the record is laid out flat; and what a lookup finds is the first of that list that has the
name, or the first type that is not known if that comes earlier.

* `TypeTable.HasBase`, `TypeTable.AcyclicBases` — a type is a base of another; no type is a base of
  itself, directly or through others.
* `TypeTable.AcyclicBelow` — nothing that a type leads to leads back to itself.
* `TypeTable.reached` — the types of the table that a type leads to.  Along a base there is one less
  of them (`card_reached_lt`), so bases nest no deeper than there are types.
* `TypeTable.flat` — a record laid out flat, with the types that are not known.
* `findMember_eq` — a search that may go deep enough finds the first in that list.
* `exists_field_of_mem_flat` — what is listed is a field that is no base.
* **`field_eq_first_of_flat`** — all of it together, for the member of an object.
-/

namespace Postmortem

/-! ## Relations without cycles -/

namespace TypeTable

open Classical in
/-- The ids in use that a type leads to, itself included. -/
noncomputable def reached (types : TypeTable) (leads : TypeId → TypeId → Prop) (id : TypeId) :
    Finset TypeId :=
  (Finset.range types.size).filter (Relation.ReflTransGen leads id)

variable {types : TypeTable} {leads : TypeId → TypeId → Prop}

lemma card_reached_le (types : TypeTable) (leads : TypeId → TypeId → Prop) (id : TypeId) :
    (types.reached leads id).card ≤ types.size := by
  classical
  exact (Finset.card_filter_le _ _).trans (Finset.card_range _).le

/-- **What a type leads to leads to less**, if the type does not lead back to itself. -/
lemma card_reached_lt {id next : TypeId} (acyclic : ¬ Relation.TransGen leads id id)
    (used : id < types.size) (step : leads id next) :
    (types.reached leads next).card < (types.reached leads id).card := by
  classical
  refine Finset.card_lt_card ⟨fun j hj => ?_, fun subset => ?_⟩
  · obtain ⟨inside, path⟩ := Finset.mem_filter.mp hj
    exact Finset.mem_filter.mpr ⟨inside, path.head step⟩
  · have self : id ∈ types.reached leads id :=
      Finset.mem_filter.mpr ⟨Finset.mem_range.mpr used, .refl⟩
    obtain ⟨-, back⟩ := Finset.mem_filter.mp (subset self)
    exact acyclic (.head' step back)

/-- Nothing that a type leads to, itself included, leads back to itself. -/
def AcyclicBelow (leads : TypeId → TypeId → Prop) (root : TypeId) : Prop :=
  ∀ id, Relation.ReflTransGen leads root id → ¬ Relation.TransGen leads id id

lemma AcyclicBelow.of_step {id next : TypeId} (acyclic : AcyclicBelow leads id)
    (step : leads id next) : AcyclicBelow leads next :=
  fun below path => acyclic below (path.head step)

lemma AcyclicBelow.card_reached_lt {id next : TypeId} (acyclic : AcyclicBelow leads id)
    (used : id < types.size) (step : leads id next) :
    (types.reached leads next).card < (types.reached leads id).card :=
  TypeTable.card_reached_lt (acyclic id .refl) used step

/-- A measure that falls along every step shows that nothing leads back to itself. -/
lemma not_transGen_of_lt {rank : TypeId → ℕ}
    (falls : ∀ id next, leads id next → rank next < rank id) (id : TypeId) :
    ¬ Relation.TransGen leads id id := by
  have along {id next : TypeId} (path : Relation.TransGen leads id next) :
      rank next < rank id := by
    induction path with
    | single step => exact falls _ _ step
    | tail _ step ih => exact (falls _ _ step).trans ih
  exact fun cycle => Nat.lt_irrefl _ (along cycle)

/-! ## Bases -/

/-- A record has a base of this type. -/
def HasBase (types : TypeTable) (id base : TypeId) : Prop :=
  ∃ info fields f, types.get? id = some info ∧ info.kind = .record fields ∧ f ∈ fields ∧
    f.isBase = true ∧ f.type = base

/-- No type is a base of itself, directly or through others. -/
def AcyclicBases (types : TypeTable) : Prop :=
  ∀ id, ¬ Relation.TransGen types.HasBase id id

lemma HasBase.lt_size {id base : TypeId} (h : types.HasBase id base) : id < types.size := by
  obtain ⟨_, _, _, found, -⟩ := h
  exact lt_size_of_get? found

lemma AcyclicBases.acyclicBelow (acyclic : types.AcyclicBases) (id : TypeId) :
    AcyclicBelow types.HasBase id :=
  fun below _ => acyclic below

/-- The fields of a record; nothing else has any. -/
def fieldsOf (types : TypeTable) (id : TypeId) : List Field :=
  match (types.get? id).map TypeInfo.kind with
  | some (.record fields) => fields
  | _ => []

/-- A measure that falls along bases shows that there is no cycle. -/
lemma acyclicBases_of_lt {rank : TypeId → ℕ} (falls : ∀ id < types.size, ∀ f ∈ types.fieldsOf id,
    f.isBase = true → rank f.type < rank id) : types.AcyclicBases := by
  have along (id base : TypeId) (step : types.HasBase id base) : rank base < rank id := by
    have used := step.lt_size
    obtain ⟨info, fields, f, found, record, mem, isBase, rfl⟩ := step
    refine falls id used f ?_ isBase
    rwa [fieldsOf, found, Option.map_some, record]
  exact fun id => not_transGen_of_lt along id

/-- What a search through a record meets. -/
inductive Listed where
  | member (name : String) (place : Place)
  /-- A base whose type is not known. -/
  | unknown (type : TypeId)
  deriving DecidableEq

namespace Listed

/-- What lies in a base, seen from the record. -/
def within (base : Field) : Listed → Listed
  | member name place => member name (place.within base)
  | unknown type => unknown type

/-- A search for a name does not go on after this. -/
def stops (name : String) : Listed → Bool
  | member other _ => other == name
  | unknown _ => true

/-- The item is a member of another name. -/
def Other (name : String) (item : Listed) : Prop :=
  ∃ other place, item = member other place ∧ other ≠ name

/-- What a search that came to its end has found. -/
def outcome : Option Listed → Reading (Option Place)
  | none => .ok none
  | some (member _ place) => .ok (some place)
  | some (unknown type) => .error (.unknownType type)

end Listed

/-- The own members of a record. -/
def ownMembers (fields : List Field) : List Listed :=
  (fields.filter fun f => !f.isBase).map fun f => .member f.name f.place

/-- A type laid out flat: the own members of a record, then what each of its bases is laid out to,
in the order of the bases.  What is not a record has no members. -/
def flat (types : TypeTable) (acyclic : types.AcyclicBases) (id : TypeId) : List Listed :=
  match _found : types.get? id with
  | none => [.unknown id]
  | some info =>
    match _record : info.kind with
    | .record fields =>
      ownMembers fields ++ (fields.filter fun f => f.isBase).attach.flatMap fun ⟨base, _⟩ =>
        (types.flat acyclic base.type).map (·.within base)
    | _ => []
termination_by (types.reached types.HasBase id).card
decreasing_by
  obtain ⟨mem, isBase⟩ := List.mem_filter.mp ‹_›
  have step : types.HasBase id base.type := ⟨info, fields, base, _found, _record, mem, isBase, rfl⟩
  exact card_reached_lt (acyclic id) step.lt_size step

section Flat

variable (acyclic : types.AcyclicBases) {id : TypeId} {info : TypeInfo}

lemma flat_of_unknown (missing : types.get? id = none) :
    types.flat acyclic id = [.unknown id] := by
  rw [flat]
  split
  · rfl
  · next found => simp [missing] at found

lemma flat_of_record {fields : List Field} (found : types.get? id = some info)
    (record : info.kind = .record fields) :
    types.flat acyclic id = ownMembers fields ++ (fields.filter fun f => f.isBase).flatMap
      fun base => (types.flat acyclic base.type).map (·.within base) := by
  rw [flat]
  split
  · next missing => simp [missing] at found
  · next info' found' =>
    obtain rfl : info' = info := Option.some.inj (found'.symm.trans found)
    split
    · next fields' record' =>
      obtain rfl : fields' = fields := TypeKind.record.inj (record'.symm.trans record)
      simp
    · next other => exact absurd record (other fields)

lemma flat_of_kind (found : types.get? id = some info)
    (other : ∀ fields, info.kind ≠ .record fields) : types.flat acyclic id = [] := by
  rw [flat]
  split
  · next missing => simp [missing] at found
  · next info' found' =>
    obtain rfl : info' = info := Option.some.inj (found'.symm.trans found)
    split
    · next fields record => exact absurd record (other fields)
    · rfl

end Flat

/-! ## Searches -/

namespace Listed

lemma outcome_map_within (base : Field) (found : Option Listed) :
    (return (← outcome found).map (·.within base) : Reading (Option Place)) =
      outcome (found.map (·.within base)) := by
  cases found with
  | none => rfl
  | some item => cases item <;> rfl

/-- What is met in a base stops a search where it did there. -/
lemma stops_within (name : String) (base : Field) :
    stops name ∘ (·.within base) = stops name := by
  funext item
  cases item <;> rfl

/-- Searches one after the other find what the first of them finds that finds anything. -/
lemma findSomeM?_outcome {f : Field → Reading (Option Place)} {g : Field → Option Listed}
    {bases : List Field} (h : ∀ base ∈ bases, f base = outcome (g base)) :
    bases.findSomeM? f = outcome (bases.findSome? g) := by
  induction bases with
  | nil => rfl
  | cons base bases ih =>
      rw [List.forall_mem_cons] at h
      rw [List.findSomeM?, h.1, List.findSome?_cons]
      cases g base with
      | none => exact ih h.2
      | some item => cases item <;> rfl

lemma stops_of_other {name : String} {item : Listed} (h : item.Other name) :
    item.stops name = false := by
  obtain ⟨other, place, rfl, differs⟩ := h
  exact beq_eq_false_iff_ne.mpr differs

/-- A search stops at the first item that stops it. -/
lemma find?_stops {name : String} {before after : List Listed} {item : Listed}
    (passed : ∀ item ∈ before, item.Other name) (stop : item.stops name = true) :
    (before ++ item :: after).find? (stops name) = some item := by
  refine List.find?_eq_some_iff_append.mpr ⟨stop, before, after, rfl, fun item hitem => ?_⟩
  rw [stops_of_other (passed item hitem), Bool.not_false]

lemma find?_stops_eq_none {name : String} {items : List Listed}
    (passed : ∀ item ∈ items, item.Other name) : items.find? (stops name) = none := by
  refine List.find?_eq_none.mpr fun item hitem => ?_
  rw [stops_of_other (passed item hitem)]
  exact Bool.false_ne_true

end Listed

/-- The own member of a name is the first that is listed. -/
lemma find?_ownMembers (fields : List Field) (name : String) :
    (ownMembers fields).find? (Listed.stops name) =
      (fields.find? fun f => !f.isBase && f.name == name).map fun f => .member f.name f.place := by
  rw [ownMembers, List.find?_map, List.find?_filter]
  congr 2
  funext f
  simp [Listed.stops, Bool.decide_and, beq_eq_decide]

/-- **A search finds the first in the flat list that stops it**, if it may go as deep as there are
types that the record leads to.  The induction is on that depth. -/
lemma findMember_eq (acyclic : types.AcyclicBases) (name : String) {depth : ℕ} {id : TypeId}
    (deep : (types.reached types.HasBase id).card < depth) :
    types.findMember name depth id =
      Listed.outcome ((types.flat acyclic id).find? (Listed.stops name)) := by
  induction depth generalizing id with
  | zero => exact absurd deep (Nat.not_lt_zero _)
  | succ depth ih =>
      rw [findMember]
      cases found : types.get? id with
      | none =>
          rw [flat_of_unknown acyclic found, info, found]
          rfl
      | some info =>
          rw [info_of_get? found, ok_bind]
          cases kind : info.kind with
          | record fields =>
              rw [flat_of_record acyclic found kind, List.find?_append, find?_ownMembers]
              dsimp only
              cases fields.find? fun f => !f.isBase && f.name == name with
              | some f => rfl
              | none =>
                  rw [Option.map_none, Option.none_or, List.find?_flatMap]
                  refine Listed.findSomeM?_outcome fun base hbase => ?_
                  obtain ⟨mem, isBase⟩ := List.mem_filter.mp hbase
                  have step : types.HasBase id base.type :=
                    ⟨info, fields, base, found, kind, mem, isBase, rfl⟩
                  have fewer := card_reached_lt (acyclic id) step.lt_size step
                  rw [ih (by omega), Listed.outcome_map_within, List.find?_map,
                    Listed.stops_within]
          | _ =>
              rw [flat_of_kind acyclic found (by simp [kind])]
              rfl

/-! ## What is listed -/

/-- A type has a field of this name and type that is no base, of its own or through bases. -/
def Declares (types : TypeTable) (id : TypeId) (name : String) (type : TypeId) : Prop :=
  ∃ owner info fields f, Relation.ReflTransGen types.HasBase id owner ∧
    types.get? owner = some info ∧ info.kind = .record fields ∧ f ∈ fields ∧ f.isBase = false ∧
    f.name = name ∧ f.type = type

lemma Declares.through {id base type : TypeId} {name : String} (step : types.HasBase id base)
    (h : types.Declares base name type) : types.Declares id name type := by
  obtain ⟨owner, info, fields, f, path, rest⟩ := h
  exact ⟨owner, info, fields, f, path.head step, rest⟩

/-- **Only fields that are no bases are listed.** -/
lemma declares_of_mem_flat (acyclic : types.AcyclicBases) {id : TypeId} {name : String}
    {place : Place} (listed : .member name place ∈ types.flat acyclic id) :
    types.Declares id name place.type := by
  induction depth : (types.reached types.HasBase id).card using Nat.strong_induction_on
    generalizing id place with
  | _ depth ih =>
      cases found : types.get? id with
      | none => simp [flat_of_unknown acyclic found] at listed
      | some info =>
          cases kind : info.kind with
          | record fields =>
              rw [flat_of_record acyclic found kind, List.mem_append] at listed
              rcases listed with own | inBase
              · obtain ⟨f, hf, same⟩ := List.mem_map.mp own
                obtain ⟨mem, noBase⟩ := List.mem_filter.mp hf
                obtain ⟨rfl, rfl⟩ := Listed.member.inj same
                exact ⟨id, info, fields, f, .refl, found, kind, mem, by simpa using noBase, rfl,
                  rfl⟩
              · obtain ⟨base, hbase, hitem⟩ := List.mem_flatMap.mp inBase
                obtain ⟨mem, isBase⟩ := List.mem_filter.mp hbase
                obtain ⟨item, listed, same⟩ := List.mem_map.mp hitem
                have step : types.HasBase id base.type :=
                  ⟨info, fields, base, found, kind, mem, isBase, rfl⟩
                cases item with
                | unknown type => contradiction
                | member other inner =>
                    obtain ⟨rfl, rfl⟩ := Listed.member.inj same
                    have fewer := card_reached_lt (acyclic id) step.lt_size step
                    have inner : types.Declares base.type other inner.type :=
                      ih _ (depth ▸ fewer) listed rfl
                    exact inner.through step
          | _ => simp [flat_of_kind acyclic found (by simp [kind])] at listed

/-- What a lookup in a type of this name makes of the item that stopped it. -/
def Listed.found (type name : String) : Option Listed → Reading Place
  | none => .error (.noSuchField type name)
  | some (.member _ place) => .ok place
  | some (.unknown type) => .error (.unknownType type)

lemma Listed.found_eq_ok {type name : String} {stopped : Option Listed} {place : Place} :
    found type name stopped = .ok place ↔ ∃ other, stopped = some (.member other place) := by
  match stopped with
  | none | some (.unknown _) => simp [found]
  | some (.member _ _) => simp [found]

lemma Listed.found_ne_endless {type name : String} {stopped : Option Listed} :
    found type name stopped ≠ .error .endless := by
  match stopped with
  | none | some (.unknown _) | some (.member _ _) => simp [found]

/-- **A lookup finds the first in the flat list that stops it.** -/
lemma member_eq (acyclic : types.AcyclicBases) {id : TypeId} {info : TypeInfo}
    (found : types.get? id = some info) (name : String) :
    types.member id name =
      Listed.found info.name name ((types.flat acyclic id).find? (Listed.stops name)) := by
  have deep := Nat.lt_succ_of_le (card_reached_le types types.HasBase id)
  rw [member, findMember_eq acyclic name deep]
  cases (types.flat acyclic id).find? (Listed.stops name) with
  | none =>
      show types.nameOf id >>= _ = _
      rw [nameOf, info_of_get? found]
      rfl
  | some item => cases item <;> rfl

end TypeTable

open TypeTable in
/-- **A member is looked up as the first of its name in the flattened record.**  The record is laid
out flat: its own members in order, then what each of its bases is laid out to, at the offset of the
base.  If the first in this list that has the name, or is not known, is a member, it is found at its
offset from the object; if it is a base of unknown type, the lookup fails with that type; and if
there is neither, with the name of the record and of the member.  So what is found is never a base
itself, and every lookup ends.  Where the object lies makes no difference but for that of the
result. -/
theorem field_eq_first_of_flat {image : Image} (acyclic : image.types.AcyclicBases) (o : Object)
    {info : TypeInfo} (found : image.types.get? o.type = some info) (name : String) :
    (∀ before place after,
      image.types.flat acyclic o.type = before ++ .member name place :: after →
      (∀ item ∈ before, item.Other name) →
      image.field o name = .ok ⟨o.address + place.offset, place.type⟩) ∧
    (∀ before base after, image.types.flat acyclic o.type = before ++ .unknown base :: after →
      (∀ item ∈ before, item.Other name) →
      image.field o name = .error (.unknownType base)) ∧
    ((∀ item ∈ image.types.flat acyclic o.type, item.Other name) →
      image.field o name = .error (.noSuchField info.name name)) ∧
    (∀ part, image.field o name = .ok part → image.types.Declares o.type name part.type) ∧
    image.field o name ≠ .error .endless ∧
    ∀ distance, image.field ⟨o.address + distance, o.type⟩ name =
      (image.field o name).map fun part => ⟨part.address + distance, part.type⟩ := by
  have looked := member_eq acyclic found name
  refine ⟨fun before place after listed passed => ?_, fun before base after listed passed => ?_,
    fun passed => ?_, fun part hpart => ?_, fun endless => ?_, fun distance => ?_⟩
  · rw [listed, Listed.find?_stops passed (by simp [Listed.stops])] at looked
    exact Image.field_eq_ok.mpr ⟨place, looked, rfl⟩
  · rw [listed, Listed.find?_stops passed rfl] at looked
    rw [Image.field, looked]
    rfl
  · rw [Listed.find?_stops_eq_none passed] at looked
    rw [Image.field, looked]
    rfl
  · obtain ⟨place, hplace, rfl⟩ := Image.field_eq_ok.mp hpart
    obtain ⟨other, hfound⟩ := Listed.found_eq_ok.mp (looked.symm.trans hplace)
    obtain rfl : other = name := by simpa [Listed.stops] using List.find?_some hfound
    exact declares_of_mem_flat acyclic (List.mem_of_find?_eq_some hfound)
  · rcases bind_eq_error.mp endless with failed | ⟨place, -, failed⟩
    · exact Listed.found_ne_endless (looked.symm.trans failed)
    · contradiction
  · rw [Image.field, Image.field]
    cases image.types.member o.type name with
    | error fault => rfl
    | ok place =>
        show (Except.ok _ : Reading Object) = _
        rw [Object.part, Nat.add_right_comm]
        rfl

/-- Two records with one base in common, of which the second hides its field; and a record made from
both, with a base of unknown type between them. -/
def diamond : Image :=
  { Image.empty .little with
    types := ⟨#[some (.plain "int" 4 .signed),
      some (.plain "core" 4 (.record [⟨"a", 0, 0, false⟩])),
      some (.plain "left" 8 (.record [⟨"core", 0, 1, true⟩, ⟨"b", 4, 0, false⟩])),
      some (.plain "right" 12 (.record [⟨"core", 0, 1, true⟩, ⟨"a", 4, 0, false⟩,
        ⟨"d", 8, 0, false⟩])),
      some (.plain "both" 28 (.record [⟨"left", 0, 2, true⟩, ⟨"lost", 8, 9, true⟩,
        ⟨"c", 12, 0, false⟩, ⟨"right", 16, 3, true⟩]))]⟩ }

open TypeTable in
theorem diamond_looked_up :
    diamond.types.AcyclicBases ∧ diamond.field ⟨0x100, 4⟩ "a" = .ok ⟨0x100, 0⟩ ∧
      diamond.field ⟨0x100, 4⟩ "d" = .error (.unknownType 9) ∧
      diamond.field ⟨0x100, 3⟩ "a" = .ok ⟨0x104, 0⟩ ∧
      diamond.field ⟨0x100, 3⟩ "core" = .error (.noSuchField "right" "core") := by
  have acyclic : diamond.types.AcyclicBases :=
    @acyclicBases_of_lt _ (fun id => if id < 5 then id + 1 else 0) (by decide)
  have core : diamond.types.flat acyclic 1 = [.member "a" ⟨0, 0⟩] :=
    @flat_of_record _ acyclic 1 _ _ rfl rfl
  have left : diamond.types.flat acyclic 2 = [.member "b" ⟨4, 0⟩, .member "a" ⟨0, 0⟩] := by
    rw [@flat_of_record _ acyclic 2 _ _ rfl rfl]
    simp [ownMembers, core, Listed.within, Place.within, Field.place]
  have right : diamond.types.flat acyclic 3 =
      [.member "a" ⟨4, 0⟩, .member "d" ⟨8, 0⟩, .member "a" ⟨0, 0⟩] := by
    rw [@flat_of_record _ acyclic 3 _ _ rfl rfl]
    simp [ownMembers, core, Listed.within, Place.within, Field.place]
  have both : diamond.types.flat acyclic 4 =
      [.member "c" ⟨12, 0⟩, .member "b" ⟨4, 0⟩, .member "a" ⟨0, 0⟩, .unknown 9,
        .member "a" ⟨20, 0⟩, .member "d" ⟨24, 0⟩, .member "a" ⟨16, 0⟩] := by
    rw [@flat_of_record _ acyclic 4 _ _ rfl rfl]
    simp [ownMembers, left, right, @flat_of_unknown _ acyclic 9 rfl, Listed.within, Place.within,
      Field.place]
  have other {name other : String} {place : Place} (differs : other ≠ name) :
      (Listed.member other place).Other name := ⟨other, place, rfl, differs⟩
  obtain ⟨shared, -⟩ := field_eq_first_of_flat acyclic ⟨0x100, 4⟩ rfl "a"
  obtain ⟨-, lost, -⟩ := field_eq_first_of_flat acyclic ⟨0x100, 4⟩ rfl "d"
  obtain ⟨shadowed, -⟩ := field_eq_first_of_flat acyclic ⟨0x100, 3⟩ rfl "a"
  obtain ⟨-, -, absent, -⟩ := field_eq_first_of_flat acyclic ⟨0x100, 3⟩ rfl "core"
  refine ⟨acyclic, shared [_, _] ⟨0, 0⟩ _ both ?_, lost [_, _, _] 9 _ both ?_,
    shadowed [] ⟨4, 0⟩ _ right nofun, absent ?_⟩
  · simp only [List.forall_mem_cons]
    exact ⟨other (by decide), other (by decide), nofun⟩
  · simp only [List.forall_mem_cons]
    exact ⟨other (by decide), other (by decide), other (by decide), nofun⟩
  · rw [right]
    simp only [List.forall_mem_cons]
    exact ⟨other (by decide), other (by decide), other (by decide), nofun⟩

end Postmortem
