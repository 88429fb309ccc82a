import Postmortem.Image.Render
import Postmortem.Proofs.Image.Mapped
import Postmortem.Proofs.TypeTable.Flattening

/-!
# An object is written from its own scalars

A record or an array is written from its parts, and these from theirs, down to integers and pointers
at fixed distances from where the object lies.  If no type is laid out inside itself there are
finitely many of them, and nothing else in memory matters: neither what lies between them nor what a
pointer points at.  Where they are read alike, the text is the same; where one of them cannot be
read, or the layout of a part is not known, there is none.

* `TypeTable.parts` — the parts that an object is written from, in order.
* `TypeTable.Leaf` — the integers and pointers in an object, each at its distance.
* `TypeTable.AcyclicNesting`, `TypeTable.Deep` — no type is laid out inside itself; types are laid
  out inside each other to some depth.  The first gives the second, with the number of types for the
  depth (`deep_of_acyclic`), and then the leaves can be listed (`mem_leaves_of_leaf`).
* `Image.renderNested_of_isLeaf`, `Image.renderNested_of_parts` — one step of writing.
* `Image.renderNested_eq`, `Image.renderNested_alike`, `Image.exists_renderNested_iff` — the whole
  text, by induction on the depth.
* **`render_of_leaves`** — all of it together.
-/

namespace Postmortem

/-- Objects of this kind have no parts. -/
def TypeKind.isLeaf : TypeKind → Bool
  | .unsigned | .signed | .pointer _ => true
  | .array .. | .record _ => false

namespace TypeTable

/-! ## Layout -/

/-- The distance between neighbours in an array. -/
def stride (types : TypeTable) (element : TypeId) : ℕ :=
  (types.get? element).elim 0 (·.size)

/-- What an object of a kind is written from, in order: how each part is introduced, and where it
lies. -/
def labelledParts (types : TypeTable) : TypeKind → List (String × Place)
  | .array element length =>
    (List.range length).map fun i => ("", ⟨types.stride element * i, element⟩)
  | .record fields => fields.map fun f => (memberLabel f, f.place)
  | _ => []

/-- Where the parts of an object lie: the elements of an array, the fields and bases of a record. -/
def parts (types : TypeTable) (id : TypeId) : List Place :=
  (types.get? id).elim [] fun info => (types.labelledParts info.kind).map (·.2)

/-- Some part is of this type. -/
def Nests (types : TypeTable) (id inner : TypeId) : Prop :=
  ∃ place ∈ types.parts id, place.type = inner

/-- Neither the root nor any type met in it is laid out inside itself. -/
def AcyclicNesting (types : TypeTable) (root : TypeId) : Prop :=
  AcyclicBelow types.Nests root

/-- An object of the type has an integer or a pointer at this distance, of this type. -/
inductive Leaf (types : TypeTable) : TypeId → ℕ → TypeId → Prop
  | self {id : TypeId} {info : TypeInfo} (found : types.get? id = some info)
      (scalar : info.kind.isLeaf = true) : Leaf types id 0 id
  | inside {id leaf : TypeId} {place : Place} {offset : ℕ} (part : place ∈ types.parts id)
      (below : Leaf types place.type offset leaf) : Leaf types id (place.offset + offset) leaf

variable {types : TypeTable} {id root leaf : TypeId} {info : TypeInfo} {place : Place}
  {offset depth : ℕ}

lemma parts_of_get? (found : types.get? id = some info) :
    types.parts id = (types.labelledParts info.kind).map (·.2) := by
  rw [parts, found, Option.elim_some]

lemma parts_of_isLeaf (found : types.get? id = some info) (scalar : info.kind.isLeaf = true) :
    types.parts id = [] := by
  rw [parts_of_get? found]
  cases kind : info.kind with
  | array element length => simp [TypeKind.isLeaf, kind] at scalar
  | record fields => simp [TypeKind.isLeaf, kind] at scalar
  | _ => rfl

lemma lt_size_of_mem_parts (part : place ∈ types.parts id) : id < types.size := by
  cases found : types.get? id with
  | none => simp [parts, found] at part
  | some info => exact lt_size_of_get? found

lemma leaf_iff_of_isLeaf (found : types.get? id = some info) (scalar : info.kind.isLeaf = true) :
    types.Leaf id offset leaf ↔ offset = 0 ∧ leaf = id := by
  constructor
  · intro held
    cases held with
    | self => exact ⟨rfl, rfl⟩
    | inside part _ => simp [parts_of_isLeaf found scalar] at part
  · rintro ⟨rfl, rfl⟩
    exact .self found scalar

lemma leaf_iff_of_parts (found : types.get? id = some info) (composite : info.kind.isLeaf = false) :
    types.Leaf id offset leaf ↔ ∃ place ∈ types.parts id, ∃ distance,
      types.Leaf place.type distance leaf ∧ offset = place.offset + distance := by
  constructor
  · intro held
    cases held with
    | self found' scalar =>
        obtain rfl := Option.some.inj (found'.symm.trans found)
        rw [composite] at scalar
        contradiction
    | inside part below => exact ⟨_, part, _, below, rfl⟩
  · rintro ⟨place, part, distance, below, rfl⟩
    exact .inside part below

/-! ## Depth -/

/-- Types are laid out inside this one at most so deep, itself included. -/
def Deep (types : TypeTable) : ℕ → TypeId → Prop
  | 0, _ => False
  | depth + 1, id => ∀ place ∈ types.parts id, types.Deep depth place.type

/-- **Without cycles, types are nested no deeper than there are types.**  The induction is on the
depth; the types that are met in a part are fewer than those in the whole. -/
lemma deep_of_acyclic (acyclic : types.AcyclicNesting root) (size : types.size < depth) :
    types.Deep depth root := by
  replace size : (types.reached types.Nests root).card < depth :=
    (card_reached_le types types.Nests root).trans_lt size
  induction depth generalizing root with
  | zero => exact absurd size (Nat.not_lt_zero _)
  | succ depth ih =>
      intro place part
      have step : types.Nests root place.type := ⟨place, part, rfl⟩
      have less := acyclic.card_reached_lt (lt_size_of_mem_parts part) step
      exact ih (acyclic.of_step step) (by omega)

/-- A measure that falls from the whole to its parts shows that there is no cycle. -/
lemma acyclicNesting_of_lt {rank : TypeId → ℕ}
    (falls : ∀ id < types.size, ∀ place ∈ types.parts id, rank place.type < rank id)
    (root : TypeId) : types.AcyclicNesting root := by
  have along : ∀ id inner, types.Nests id inner → rank inner < rank id := by
    rintro id inner ⟨place, part, rfl⟩
    exact falls id (lt_size_of_mem_parts part) place part
  exact fun id _ => not_transGen_of_lt along id

/-- The integers and pointers in an object, as deep as asked for. -/
def leaves (types : TypeTable) : ℕ → TypeId → List (ℕ × TypeId)
  | 0, _ => []
  | depth + 1, id =>
    if (types.get? id).any (·.kind.isLeaf) then [(0, id)]
    else (types.parts id).flatMap fun place =>
      (types.leaves depth place.type).map fun leaf => (place.offset + leaf.1, leaf.2)

lemma mem_leaves_of_leaf (deep : types.Deep depth id) (held : types.Leaf id offset leaf) :
    (offset, leaf) ∈ types.leaves depth id := by
  induction held generalizing depth with
  | self found scalar =>
      cases depth with
      | zero => exact deep.elim
      | succ depth => simp [leaves, found, scalar]
  | @inside id leaf place offset part below ih =>
      cases depth with
      | zero => exact deep.elim
      | succ depth =>
          have composite : (types.get? id).any (·.kind.isLeaf) = false := by
            cases found : types.get? id with
            | none => rfl
            | some info =>
                by_contra scalar
                simp [parts_of_isLeaf found (Bool.eq_true_of_not_eq_false scalar)] at part
          rw [leaves, composite]
          refine List.mem_flatMap.mpr ⟨place, part, ?_⟩
          exact List.mem_map_of_mem (ih (deep place part))

end TypeTable

/-! ## One step of writing -/

lemma collectFrom_eq_mapM (f : ℕ → Reading String) (start count : ℕ) :
    collectFrom f start count = (List.range' start count).mapM f := by
  induction count generalizing start with
  | zero => rfl
  | succ count ih => rw [collectFrom, List.range'_succ, List.mapM_cons, ih]

/-- How the integer held by an object of a type is written. -/
def TypeInfo.wordText (info : TypeInfo) (word : Word) : String :=
  match info.kind with
  | .signed => toString (signedValue info.size word)
  | .pointer _ => hexText word.toNat
  | _ => toString word.toNat

namespace Image

open TypeTable

variable {image image' : Image} {id : TypeId} {info : TypeInfo} {depth depth' a b : ℕ}

/-- The text of a part, behind what introduces it. -/
def partText (image : Image) (depth : ℕ) (o : Object) (part : String × Place) : Reading String :=
  (image.renderNested depth (o.part part.2)).map (part.1 ++ ·)

lemma renderNested_of_unknown (missing : image.types.get? id = none) :
    image.renderNested (depth + 1) ⟨a, id⟩ = .error (.unknownType id) := by
  rw [renderNested, TypeTable.info, missing]
  rfl

/-- **An integer or a pointer is written as it is read.** -/
lemma renderNested_of_isLeaf (found : image.types.get? id = some info)
    (scalar : info.kind.isLeaf = true) : image.renderNested (depth + 1) ⟨a, id⟩ =
      (image.readUnsigned ⟨a, id⟩).map info.wordText := by
  have known : image.types.info id = .ok info := info_of_get? found
  rw [renderNested, known, ok_bind]
  cases kind : info.kind with
  | unsigned =>
      have text : info.wordText = fun word => toString word.toNat := by
        funext word
        simp only [TypeInfo.wordText, kind]
      rw [text]
      cases image.readUnsigned ⟨a, id⟩ <;> rfl
  | signed =>
      have text : info.wordText = fun word => toString (signedValue info.size word) := by
        funext word
        simp only [TypeInfo.wordText, kind]
      rw [readSigned, byteSize, known, text]
      cases image.readUnsigned ⟨a, id⟩ <;> rfl
  | pointer target =>
      have text : info.wordText = fun word => hexText word.toNat := by
        funext word
        simp only [TypeInfo.wordText, kind]
      have pointer : info.isPointer = true := by rw [TypeInfo.isPointer, kind]
      rw [readAddress, known, ok_bind, if_pos pointer, text]
      cases image.readUnsigned ⟨a, id⟩ <;> rfl
  | array element length => simp [TypeKind.isLeaf, kind] at scalar
  | record fields => simp [TypeKind.isLeaf, kind] at scalar

/-- Elements follow each other; if their type is not known, none can be written. -/
lemma elementText_eq {element : TypeId} {length i : ℕ} (found : image.types.get? id = some info)
    (kind : info.kind = .array element length) (inside : i < length) :
    (do image.renderNested (depth + 1) (← image.index ⟨a, id⟩ i)) =
      image.renderNested (depth + 1) ⟨a + image.types.stride element * i, element⟩ := by
  cases known : image.types.get? element with
  | none =>
      rw [renderNested_of_unknown known, index, info_of_get? found, ok_bind, kind]
      simp only [inside, if_true, byteSize, TypeTable.info, known]
      rfl
  | some elementInfo =>
      have sized : image.types.byteSize element = .ok elementInfo.size := by
        rw [byteSize, info_of_get? known]
        rfl
      rw [(index_eq_ok found kind sized).mpr ⟨inside, rfl⟩, ok_bind, stride, known,
        Option.elim_some]

/-- **A record or an array is written part by part.** -/
lemma renderNested_of_parts (found : image.types.get? id = some info)
    (composite : info.kind.isLeaf = false) (deep : image.types.Deep (depth + 1) id) :
    image.renderNested (depth + 1) ⟨a, id⟩ =
      ((image.types.labelledParts info.kind).mapM (image.partText depth ⟨a, id⟩)).map braced := by
  rw [renderNested, info_of_get? found, ok_bind]
  cases kind : info.kind with
  | record fields =>
      simp only [bind_return_eq_map, labelledParts, List.mapM_map]
      rfl
  | array element length =>
      simp only [bind_return_eq_map, labelledParts, List.mapM_map, collectFrom_eq_mapM,
        ← List.range_eq_range']
      refine congrArg (Except.map braced) (mapM_congr fun i hi => ?_)
      have inside : i < length := List.mem_range.mp hi
      have part : ⟨image.types.stride element * i, element⟩ ∈ image.types.parts id := by
        rw [parts_of_get? found, kind, labelledParts, List.map_map]
        exact List.mem_map_of_mem hi
      have below : image.types.Deep depth element := deep _ part
      cases depth with
      | zero => exact below.elim
      | succ depth =>
          rw [elementText_eq found kind inside, Function.comp_apply, partText]
          cases written : image.renderNested (depth + 1)
              ((⟨a, id⟩ : Object).part ⟨image.types.stride element * i, element⟩) with
          | error fault => exact written
          | ok text =>
              rw [Except.map, String.empty_append]
              exact written
  | _ => simp [TypeKind.isLeaf, kind] at composite

/-! ## The whole text -/

lemma mem_parts_of_labelled (found : image.types.get? id = some info) {part : String × Place}
    (listed : part ∈ image.types.labelledParts info.kind) : part.2 ∈ image.types.parts id := by
  rw [parts_of_get? found]
  exact List.mem_map_of_mem listed

/-- **Any depth that is enough gives the same text.** -/
lemma renderNested_eq (deep : image.types.Deep depth id) (deep' : image.types.Deep depth' id) :
    image.renderNested depth ⟨a, id⟩ = image.renderNested depth' ⟨a, id⟩ := by
  induction depth generalizing depth' a id with
  | zero => exact deep.elim
  | succ depth ih =>
      cases depth' with
      | zero => exact deep'.elim
      | succ depth' =>
          cases found : image.types.get? id with
          | none => rw [renderNested_of_unknown found, renderNested_of_unknown found]
          | some info =>
              cases scalar : info.kind.isLeaf with
              | true =>
                  rw [renderNested_of_isLeaf found scalar, renderNested_of_isLeaf found scalar]
              | false =>
                  rw [renderNested_of_parts found scalar deep,
                    renderNested_of_parts found scalar deep']
                  refine congrArg (Except.map braced) (mapM_congr fun part listed => ?_)
                  have inside := mem_parts_of_labelled found listed
                  exact congrArg (Except.map (part.1 ++ ·)) (ih (deep _ inside) (deep' _ inside))

/-- **Where the integers and pointers of two objects are read alike, so are the objects.**  The
induction is on the depth, for all addresses. -/
lemma renderNested_alike (sameTypes : image'.types = image.types)
    (deep : image.types.Deep depth id)
    (alike : ∀ offset leaf, image.types.Leaf id offset leaf →
      Alike (image.readUnsigned ⟨a + offset, leaf⟩) (image'.readUnsigned ⟨b + offset, leaf⟩)) :
    Alike (image.renderNested depth ⟨a, id⟩) (image'.renderNested depth ⟨b, id⟩) := by
  induction depth generalizing a b id with
  | zero => exact deep.elim
  | succ depth ih =>
      have deep' : image'.types.Deep (depth + 1) id := sameTypes ▸ deep
      cases found : image.types.get? id with
      | none =>
          rw [renderNested_of_unknown found, renderNested_of_unknown (sameTypes ▸ found)]
          rfl
      | some info =>
          have found' : image'.types.get? id = some info := sameTypes ▸ found
          cases scalar : info.kind.isLeaf with
          | true =>
              rw [renderNested_of_isLeaf found scalar, renderNested_of_isLeaf found' scalar]
              exact (alike 0 id (.self found scalar)).map info.wordText
          | false =>
              rw [renderNested_of_parts found scalar deep,
                renderNested_of_parts found' scalar deep', sameTypes]
              refine .map braced (.mapM fun part listed => .map (part.1 ++ ·) ?_)
              have inside := mem_parts_of_labelled found listed
              refine ih (deep _ inside) fun offset leaf below => ?_
              rw [Nat.add_assoc, Nat.add_assoc]
              exact alike _ _ (.inside inside below)

/-- The integers and pointers in an object can all be read, and all types met in it are known. -/
def Legible (image : Image) (a : ℕ) (id : TypeId) : Prop :=
  (∀ offset leaf, image.types.Leaf id offset leaf →
    ∃ word, image.readUnsigned ⟨a + offset, leaf⟩ = .ok word) ∧
  ∀ inner, Relation.ReflTransGen image.types.Nests id inner → image.types.get? inner ≠ none

lemma legible_iff_of_isLeaf (found : image.types.get? id = some info)
    (scalar : info.kind.isLeaf = true) :
    image.Legible a id ↔ ∃ word, image.readUnsigned ⟨a, id⟩ = .ok word := by
  constructor
  · rintro ⟨leaves, -⟩
    exact leaves 0 id (.self found scalar)
  · intro result
    refine ⟨fun offset leaf held => ?_, fun inner path => ?_⟩
    · obtain ⟨rfl, rfl⟩ := (leaf_iff_of_isLeaf found scalar).mp held
      exact result
    · rcases path.cases_head with rfl | ⟨_, ⟨place, part, -⟩, -⟩
      · simp [found]
      · simp [parts_of_isLeaf found scalar] at part

lemma legible_iff_of_parts (found : image.types.get? id = some info)
    (composite : info.kind.isLeaf = false) :
    image.Legible a id ↔
      ∀ place ∈ image.types.parts id, image.Legible (a + place.offset) place.type := by
  constructor
  · rintro ⟨leaves, known⟩ place part
    refine ⟨fun offset leaf held => ?_, fun inner path => ?_⟩
    · rw [Nat.add_assoc]
      exact leaves _ leaf (.inside part held)
    · exact known inner (.head ⟨place, part, rfl⟩ path)
  · intro inside
    refine ⟨fun offset leaf held => ?_, fun inner path => ?_⟩
    · obtain ⟨place, part, distance, below, rfl⟩ := (leaf_iff_of_parts found composite).mp held
      rw [← Nat.add_assoc]
      exact (inside place part).1 distance leaf below
    · rcases path.cases_head with rfl | ⟨_, ⟨place, part, rfl⟩, path⟩
      · simp [found]
      · exact (inside place part).2 inner path

/-- **An object has a text if it is legible**, and only then. -/
lemma exists_renderNested_iff (deep : image.types.Deep depth id) :
    (∃ text, image.renderNested depth ⟨a, id⟩ = .ok text) ↔ image.Legible a id := by
  induction depth generalizing a id with
  | zero => exact deep.elim
  | succ depth ih =>
      cases found : image.types.get? id with
      | none =>
          rw [renderNested_of_unknown found]
          exact ⟨fun ⟨_, text⟩ => (nomatch text), fun ⟨_, known⟩ => absurd found (known id .refl)⟩
      | some info =>
          cases scalar : info.kind.isLeaf with
          | true =>
              rw [renderNested_of_isLeaf found scalar, exists_map_eq_ok,
                legible_iff_of_isLeaf found scalar]
          | false =>
              rw [renderNested_of_parts found scalar deep, exists_map_eq_ok, exists_mapM_eq_ok,
                legible_iff_of_parts found scalar, parts_of_get? found, List.forall_mem_map]
              refine forall₂_congr fun part listed => ?_
              rw [partText, exists_map_eq_ok]
              exact ih (deep _ (mem_parts_of_labelled found listed))

/-- What fails is no lack of depth. -/
lemma renderNested_ne_endless (deep : image.types.Deep depth id) :
    image.renderNested depth ⟨a, id⟩ ≠ .error .endless := by
  induction depth generalizing a id with
  | zero => exact deep.elim
  | succ depth ih =>
      cases found : image.types.get? id with
      | none => simp [renderNested_of_unknown found]
      | some info =>
          cases scalar : info.kind.isLeaf with
          | true =>
              rw [renderNested_of_isLeaf found scalar, Ne, map_eq_error]
              exact readUnsigned_ne_endless
          | false =>
              rw [renderNested_of_parts found scalar deep, Ne, map_eq_error]
              intro endless
              obtain ⟨part, listed, failed⟩ := exists_of_mapM_eq_error endless
              exact ih (deep _ (mem_parts_of_labelled found listed)) (map_eq_error.mp failed)

/-- An image looks deep enough for every type without cycles. -/
lemma size_lt_nesting (image : Image) : image.types.size < image.nesting + 1 :=
  Nat.lt_succ_of_le (Nat.le_mul_of_pos_right _ (Nat.succ_pos _))

end Image

open TypeTable in
/-- **The text of an object is made from its own integers and pointers, and from nothing else.**  Let
no type met in the object be laid out inside itself.  If two objects of the type, in two images with
the same types, have all their integers and pointers read alike, each with the same result or with
none in either, then both have the same text or neither has one; the rest of memory, and so what the
pointers point at, may differ.  An object has a text exactly if all its integers and pointers can be
read and all types met in it are known.  Writing it comes to an end, with no more steps inwards than
there are types. -/
theorem render_of_leaves (image image' : Image) (sameTypes : image'.types = image.types)
    (type : TypeId) (acyclic : image.types.AcyclicNesting type) (a b : ℕ) :
    ((∀ offset leaf, image.types.Leaf type offset leaf →
        Alike (image.readUnsigned ⟨a + offset, leaf⟩) (image'.readUnsigned ⟨b + offset, leaf⟩)) →
      Alike (image.render ⟨a, type⟩) (image'.render ⟨b, type⟩)) ∧
    ((∃ text, image.render ⟨a, type⟩ = .ok text) ↔
      (∀ offset leaf, image.types.Leaf type offset leaf →
        ∃ word, image.readUnsigned ⟨a + offset, leaf⟩ = .ok word) ∧
      ∀ inner, Relation.ReflTransGen image.types.Nests type inner →
        image.types.get? inner ≠ none) ∧
    image.render ⟨a, type⟩ ≠ .error .endless ∧
    ∀ depth, image.types.size < depth →
      image.renderNested depth ⟨a, type⟩ = image.render ⟨a, type⟩ := by
  have deep (depth) (enough : image.types.size < depth) := deep_of_acyclic acyclic enough
  have here := deep _ image.size_lt_nesting
  have there : image'.types.Deep (image'.nesting + 1) type := by
    rw [sameTypes]
    exact deep _ (sameTypes ▸ image'.size_lt_nesting)
  refine ⟨fun alike => ?_, Image.exists_renderNested_iff here, Image.renderNested_ne_endless here,
    fun depth enough => Image.renderNested_eq (deep depth enough) here⟩
  have sameDepth : image'.render ⟨b, type⟩ = image'.renderNested (image.nesting + 1) ⟨b, type⟩ :=
    Image.renderNested_eq there (sameTypes ▸ here)
  rw [sameDepth]
  exact Image.renderNested_alike sameTypes here alike

/-- A record with a base, a pointer to its own type and an array. -/
def itemTypes : TypeTable :=
  ⟨#[some (.plain "int" 4 .signed), some (.plain "item *" 8 (.pointer 2)),
    some (.plain "item" 24 (.record [⟨"base", 0, 3, true⟩, ⟨"link", 8, 1, false⟩,
      ⟨"pair", 16, 4, false⟩])),
    some (.plain "base" 4 (.record [⟨"n", 0, 0, false⟩])),
    some (.plain "int [2]" 8 (.array 0 2))]⟩

/-- An item that points at itself. -/
def circularItem : Image where
  order := .little
  memory :=
    { segments := [⟨0x100, #[5, 0, 0, 0, 0, 0, 0, 0, 0, 1, 0, 0, 0, 0, 0, 0,
        254, 255, 255, 255, 7, 0, 0, 0]⟩]
      apart := by decide
      bounded := by decide }
  types := itemTypes

/-- The same item at another place, between other bytes, where nothing lies at what it points at. -/
def movedItem : Image where
  order := .little
  memory :=
    { segments := [⟨0x40, #[9, 5, 0, 0, 0, 1, 2, 3, 4, 0, 1, 0, 0, 0, 0, 0, 0,
        254, 255, 255, 255, 7, 0, 0, 0, 9]⟩]
      apart := by decide
      bounded := by decide }
  types := itemTypes

open TypeTable in
theorem movedItem_rendered :
    itemTypes.AcyclicNesting 2 ∧
      Alike (circularItem.render ⟨0x100, 2⟩) (movedItem.render ⟨0x41, 2⟩) ∧
      (∃ text, circularItem.render ⟨0x100, 2⟩ = .ok text) ∧
      circularItem.render ⟨0x108, 2⟩ ≠ .error .endless ∧
      movedItem.render ⟨0x41, 2⟩ = .ok
        "\x7b<base> = \x7bn = 5\x7d, link = 0x100, pair = \x7b-2, 7\x7d\x7d" := by
  have acyclic : itemTypes.AcyclicNesting 2 :=
    @acyclicNesting_of_lt itemTypes (fun id => [0, 0, 2, 1, 1].getD id 0) (by decide +kernel) 2
  have deep : itemTypes.Deep 6 2 := deep_of_acyclic acyclic (by decide)
  have same : ∀ leaf ∈ itemTypes.leaves 6 2,
      (circularItem.readUnsigned ⟨0x100 + leaf.1, leaf.2⟩).toOption =
        (movedItem.readUnsigned ⟨0x41 + leaf.1, leaf.2⟩).toOption ∧
      (circularItem.readUnsigned ⟨0x100 + leaf.1, leaf.2⟩).isOk = true := by
    decide +kernel
  obtain ⟨alike, legible, -⟩ := render_of_leaves circularItem movedItem rfl 2 acyclic 0x100 0x41
  obtain ⟨-, -, ends, -⟩ := render_of_leaves circularItem movedItem rfl 2 acyclic 0x108 0
  obtain ⟨-, -, -, shallow⟩ := render_of_leaves movedItem movedItem rfl 2 acyclic 0x41 0
  refine ⟨acyclic, alike fun offset leaf held => (same _ (mem_leaves_of_leaf deep held)).1,
    legible.mpr ⟨fun offset leaf held => ?_, fun inner path => ?_⟩, ends,
    (shallow 6 (by decide)).symm.trans (by decide +kernel)⟩
  · have read := (same _ (mem_leaves_of_leaf deep held)).2
    cases h : circularItem.readUnsigned ⟨0x100 + offset, leaf⟩ with
    | ok word => exact ⟨word, rfl⟩
    | error fault => simp [h, Except.isOk, Except.toBool] at read
  · have inTable : ∀ id < 5, ∀ place ∈ itemTypes.parts id, place.type < 5 := by decide +kernel
    have known : ∀ id < 5, itemTypes.get? id ≠ none := by decide
    have met : inner < 5 := by
      induction path with
      | refl => decide
      | tail _ step ih =>
          obtain ⟨place, part, rfl⟩ := step
          exact inTable _ ih place part
    exact known inner met

end Postmortem
