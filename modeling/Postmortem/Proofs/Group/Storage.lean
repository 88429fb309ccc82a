import Mathlib.Data.Finset.Defs
import Postmortem.Group.Table
import Postmortem.Proofs.Group.Encoding
import Postmortem.Proofs.Image.StoredIntegers

/-!
# Tables as they are stored

An open-addressing table is a set of occupied slots with a reduced hash for each.  This file says
what it is for such a table to lie in an image: which types describe it, and which bytes stand
where.

* `TableContents` — groups, occupied slots and reduced hashes; `TableContents.byte` is what they
  make of each control position.  The last slot of the table is the end, with a byte of one.
* `GroupArrays` — the way from a container to its two arrays.
* `GroupType` — a type of groups: the control words and how their type keeps an integer, the number
  of slots, the sentinel and the size.
* `StandsFor` — an element stands for itself, or for what it points at.
* `StoredTable` — all of it together, in one of the two layouts.

What is stored is read: **`StoredTable.read_eq`** finds the table, and **`StoredTable.control_eq`**
the control words of each group.
-/

namespace Postmortem

/-! ## Contents -/

/-- The contents of a table whose groups have `slots` slots each. -/
structure TableContents (slots : ℕ) where
  groups : ℕ
  groups_pos : 0 < groups
  /-- The slots that hold an element, numbered through all groups. -/
  occupied : Finset ℕ
  /-- The last slot of all is the end of the table. -/
  occupied_lt : ∀ s ∈ occupied, s + 1 < groups * slots
  hash : ℕ → BitVec 8
  /-- Zero and one are no reduced hashes. -/
  two_le_hash : ∀ s ∈ occupied, 2 ≤ (hash s).toNat
  /-- What the positions hold that are no slots, by group and position. -/
  spare : ℕ → ℕ → BitVec 8

namespace TableContents

variable {slots : ℕ} (contents : TableContents slots)

/-- The byte of each position of a group. -/
def byte (group i : ℕ) : BitVec 8 :=
  if slots ≤ i then contents.spare group i
  else if group * slots + i ∈ contents.occupied then contents.hash (group * slots + i)
  else if group * slots + i + 1 = contents.groups * slots then 1#8
  else 0#8

lemma byte_ne_zero_iff {group i : ℕ} (hi : i < slots) :
    contents.byte group i ≠ 0#8 ↔
      group * slots + i ∈ contents.occupied ∨ group * slots + i + 1 = contents.groups * slots := by
  rw [byte, if_neg (Nat.not_le.mpr hi)]
  by_cases hs : group * slots + i ∈ contents.occupied
  · have hash := contents.two_le_hash _ hs
    rw [if_pos hs]
    refine iff_of_true ?_ (.inl hs)
    intro zero
    simp [zero] at hash
  · rw [if_neg hs]
    split_ifs with last
    · exact iff_of_true (by decide) (.inr last)
    · exact iff_of_false (by simp) (by simp [hs, last])

lemma byte_eq_one_iff {group i : ℕ} (hi : i < slots) :
    contents.byte group i = 1#8 ↔ group * slots + i + 1 = contents.groups * slots := by
  rw [byte, if_neg (Nat.not_le.mpr hi)]
  by_cases hs : group * slots + i ∈ contents.occupied
  · have hash := contents.two_le_hash _ hs
    have before := contents.occupied_lt _ hs
    rw [if_pos hs]
    refine iff_of_false ?_ (by omega)
    intro one
    simp [one] at hash
  · rw [if_neg hs]
    split_ifs with last
    · exact iff_of_true rfl last
    · exact iff_of_false (by decide) last

end TableContents

/-! ## Types -/

/-- An object has a member under the first of two names, or else under the second. -/
inductive Spelled (image : Image) (o : Object) (first second : String) : Object → Prop
  | first {part : Object} (found : image.field o first = .ok part) :
      Spelled image o first second part
  | second {part : Object} {type name : String}
      (missing : image.field o first = .error (.noSuchField type name))
      (found : image.field o second = .ok part) : Spelled image o first second part

lemma fieldAny_of_spelled {image : Image} {o part : Object} {first second : String}
    (h : Spelled image o first second part) : image.fieldAny o first [second] = .ok part := by
  cases h with
  | first found => rw [Image.fieldAny, found]
  | second missing found => rw [Image.fieldAny, missing, Image.fieldAny, found]

/-- A type records a constant, or leaves it to its default. -/
inductive Declares (types : TypeTable) (type : TypeId) (name : String) (default : Word) :
    Word → Prop
  | recorded {value : Word} (found : types.constant type name = .ok (some value)) :
      Declares types type name default value
  | leftOut (missing : types.constant type name = .ok none) :
      Declares types type name default default

/-- A type of groups, with this many slots and the sentinel one. -/
structure GroupType (types : TypeTable) (type : TypeId) (layout : ControlLayout) (slots : ℕ) where
  /-- The array of control words. -/
  control : Place
  array : TypeInfo
  word : TypeId
  /-- The distance between control words. -/
  stride : ℕ
  /-- The distance from a control word to its integer. -/
  offset : ℕ
  /-- The distance between groups. -/
  size : ℕ
  control_eq : types.member type "m" = .ok control
  array_eq : types.get? control.type = some array
  kind_eq : array.kind = .array word layout.length
  stride_eq : types.byteSize word = .ok stride
  keeps : KeepsInteger types layout.wordSize word offset
  slots_eq : Declares types type "N" (BitVec.ofNat 64 defaultSlots) (BitVec.ofNat 64 slots)
  sentinel_eq : Declares types type "sentinel_" defaultSentinel 1#64
  size_eq : types.byteSize type = .ok size
  size_pos : 0 < size

namespace GroupType

variable {image : Image} {type : TypeId} {layout : ControlLayout} {slots : ℕ}

/-- Where the integer of a control word lies, of the group at an address. -/
def wordAddress {types : TypeTable} (g : GroupType types type layout slots) (group i : ℕ) : ℕ :=
  group + g.control.offset + g.stride * i + g.offset

lemma words_eq (g : GroupType image.types type layout slots) (group : ℕ) :
    image.field ⟨group, type⟩ "m" = .ok ⟨group + g.control.offset, g.control.type⟩ := by
  rw [Image.field, g.control_eq]
  rfl

lemma length_eq (g : GroupType image.types type layout slots) (address : ℕ) :
    image.arrayLength ⟨address, g.control.type⟩ = .ok layout.length :=
  Image.arrayLength_of_array g.array_eq g.kind_eq

/-- **Stored control words are read.** -/
lemma control_of_stores (g : GroupType image.types type layout slots) {group : ℕ}
    {words : List Word} (length : words.length = layout.length)
    (fits : ∀ word ∈ words, word.toNat < Nat.pow 256 layout.wordSize)
    (stored : ∀ i, ∀ hi : i < words.length,
      image.Stores (g.wordAddress group i) layout.wordSize words[i]) :
    GroupShape.control image ⟨group, type⟩ = .ok words := by
  rw [GroupShape.control, g.words_eq, ok_bind, g.length_eq, ok_bind, ← length]
  refine mapM_range_eq_ok fun i hi => ?_
  have hindex : image.index ⟨group + g.control.offset, g.control.type⟩ i =
      .ok ⟨group + g.control.offset + g.stride * i, g.word⟩ :=
    (Image.index_eq_ok g.array_eq g.kind_eq g.stride_eq).mpr ⟨length ▸ hi, rfl⟩
  rw [hindex, ok_bind]
  exact Image.readIntegral_of_stores g.keeps (stored i hi) (fits _ (List.getElem_mem hi))

lemma layoutOf_eq (g : GroupType image.types type layout slots) (group : ℕ) :
    GroupShape.layoutOf image ⟨group, type⟩ = .ok layout := by
  have hlayout : ControlLayout.ofLength? layout.length = some layout := by cases layout <;> rfl
  rw [GroupShape.layoutOf, g.words_eq, ok_bind, g.length_eq, ok_bind, hlayout]
  rfl

lemma slotsOf_eq (g : GroupType image.types type layout slots) (pos : 0 < slots)
    (le : slots ≤ defaultSlots) : GroupShape.slotsOf image type = .ok slots := by
  have found : ∃ constant, image.types.constant type "N" = .ok constant ∧
      (constant.map (·.toNat)).getD defaultSlots = slots := by
    have hslots : (BitVec.ofNat 64 slots).toNat = slots := by
      rw [defaultSlots] at le
      exact Nat.mod_eq_of_lt (by omega)
    generalize hvalue : BitVec.ofNat 64 slots = value at hslots
    cases hvalue ▸ g.slots_eq with
    | recorded found => exact ⟨_, found, hslots⟩
    | leftOut missing => exact ⟨none, missing, hslots⟩
  obtain ⟨constant, hconstant, hvalue⟩ := found
  rw [GroupShape.slotsOf, hconstant, ok_bind]
  show (if 1 ≤ (constant.map (·.toNat)).getD defaultSlots ∧ _ then _ else _) = _
  rw [hvalue, if_pos ⟨pos, le⟩]
  rfl

lemma sentinel_found {types : TypeTable} (g : GroupType types type layout slots) :
    ∃ constant, types.constant type "sentinel_" = .ok constant ∧
      constant.getD defaultSentinel = 1#64 := by
  have h := g.sentinel_eq
  generalize hvalue : 1#64 = value at h
  cases h with
  | recorded found => exact ⟨_, found, rfl⟩
  | leftOut missing => exact ⟨none, missing, rfl⟩

lemma shape_eq (g : GroupType image.types type layout slots) (pos : 0 < slots)
    (le : slots ≤ defaultSlots) (group : ℕ) :
    GroupShape.read image ⟨group, type⟩ = .ok ⟨layout, slots, 1#64, g.size⟩ := by
  obtain ⟨constant, hconstant, hvalue⟩ := g.sentinel_found
  rw [GroupShape.read, g.layoutOf_eq, ok_bind, g.slotsOf_eq pos le, ok_bind, hconstant, ok_bind,
    g.size_eq, ok_bind, hvalue]
  rfl

end GroupType

/-! ## Tables in an image -/

/-- The way from a container to its arrays of groups and elements. -/
structure GroupArrays (image : Image) (container : Object) where
  table : Object
  arrays : Object
  groupPointer : Object
  elementPointer : Object
  /-- The address of the first group. -/
  groups : ℕ
  groupType : TypeId
  /-- The address of the first element. -/
  elements : ℕ
  elementType : TypeId
  elementSize : ℕ
  table_eq : image.field container "table_" = .ok table
  arrays_eq : image.field table "arrays" = .ok arrays
  groupPointer_eq : Spelled image arrays "groups_" "groups" groupPointer
  elementPointer_eq : Spelled image arrays "elements_" "elements" elementPointer
  groupType_eq : image.types.target groupPointer.type = .ok groupType
  elementType_eq : image.types.target elementPointer.type = .ok elementType
  groups_eq : image.readAddress groupPointer = .ok groups
  elements_eq : image.readAddress elementPointer = .ok elements
  elementSize_eq : image.types.byteSize elementType = .ok elementSize

/-- The element that belongs to a slot, as it is stored. -/
def GroupArrays.element {image : Image} {container : Object} (a : GroupArrays image container)
    (s : ℕ) : Object :=
  ⟨a.elements + s * a.elementSize, a.elementType⟩

/-- An element is what is stored, or what that points at if its type says that it is indirect. -/
inductive StandsFor (image : Image) (element : Object) : Object → Prop
  | itself {name : String} (named : image.typeName element = .ok name)
      (direct : TypeName.startsWith name indirectElementStart = false) :
      StandsFor image element element
  | pointee {name : String} {pointer : Object} {address : ℕ} {type : TypeId}
      (named : image.typeName element = .ok name)
      (indirect : TypeName.startsWith name indirectElementStart = true)
      (held : image.field element "p" = .ok pointer)
      (typed : image.types.target pointer.type = .ok type)
      (here : image.readAddress pointer = .ok address) (nonnull : address ≠ 0) :
      StandsFor image element ⟨address, type⟩

lemma elementPayload_of_standsFor {image : Image} {element value : Object}
    (h : StandsFor image element value) : image.elementPayload element = .ok value := by
  cases h with
  | itself named direct =>
      rw [Image.elementPayload, named, ok_bind, direct]
      rfl
  | pointee named indirect held typed here nonnull =>
      rw [Image.elementPayload, named, ok_bind, if_pos indirect, held, ok_bind,
        deref_of_target typed here nonnull]

/-- A table of these contents lies in an image. -/
structure StoredTable (image : Image) (container : Object) (layout : ControlLayout) {slots : ℕ}
    (contents : TableContents slots) extends GroupArrays image container where
  group : GroupType image.types groupType layout slots
  /-- The control words of each group. -/
  words : ℕ → List Word
  encoded : ∀ g < contents.groups, Encodes (contents.byte g) layout (words g)
  stored : ∀ g < contents.groups, ∀ i, ∀ hi : i < (words g).length,
    image.Stores (group.wordAddress (groups + g * group.size) i) layout.wordSize (words g)[i]
  elements_ne : elements ≠ 0
  /-- What the element of each slot stands for. -/
  value : ℕ → Object
  held : ∀ s ∈ contents.occupied, StandsFor image (toGroupArrays.element s) (value s)

namespace StoredTable

variable {image : Image} {container : Object} {layout : ControlLayout} {slots : ℕ}
  {contents : TableContents slots}

/-- The table that is read of a container. -/
def found (t : StoredTable image container layout contents) : GroupTable :=
  ⟨⟨layout, slots, 1#64, t.group.size⟩, t.groups, t.groupType, t.elements, t.elementType,
    t.elementSize⟩

/-- **The table of a container is found.** -/
lemma read_eq (t : StoredTable image container layout contents) (pos : 0 < slots)
    (le : slots ≤ defaultSlots) : GroupTable.read image container = .ok t.found := by
  rw [GroupTable.read, t.table_eq, ok_bind, t.arrays_eq, ok_bind,
    fieldAny_of_spelled t.groupPointer_eq, ok_bind, fieldAny_of_spelled t.elementPointer_eq,
    ok_bind, t.groupType_eq, ok_bind, t.elementType_eq, ok_bind, t.groups_eq, ok_bind,
    t.elements_eq, ok_bind, t.group.shape_eq pos le, ok_bind, t.elementSize_eq]
  rfl

/-- **The control words of each group are read.** -/
lemma control_eq (t : StoredTable image container layout contents) {g : ℕ}
    (hg : g < contents.groups) : t.found.control image g = .ok (t.words g) :=
  t.group.control_of_stores (t.encoded g hg).length_eq (t.encoded g hg).toNat_lt (t.stored g hg)

/-- The element of each occupied slot is found. -/
lemma payload_eq (t : StoredTable image container layout contents) {slot : Slot}
    (h : slot.group * slots + slot.offset ∈ contents.occupied) :
    t.found.payload image slot = .ok (t.value (slot.group * slots + slot.offset)) :=
  elementPayload_of_standsFor (t.held _ h)

end StoredTable

end Postmortem
