import Postmortem.IteratorHandle
import Postmortem.Proofs.Growth.Images
import Postmortem.Proofs.Image.StoredIntegers
import Postmortem.Proofs.Reading

/-!
# Readings while an image grows

A reading looks at memory and types many times, and what it finds decides where it looks next.  When
the image has grown there is more to be found.  A reading that failed because something was missing
may succeed then, but no other outcome changes: neither a result, nor a fault about what was found.

The faults have to be kept as well as the results.  A member with two spellings is looked for under
the first, and that one being absent is what leads to the other.

* `Fault.Curable` — something was missing: a byte, a type, or an end.
* `Keeps` — a reading is what another was, unless that failed with a curable fault.
* `Keeps.bind` — steps that are kept make chains that are kept.  After it, every reading of the
  library has one lemma that follows its definition, under the name of the reading.
* **`Image.Extends.findMember`**, **`Image.Extends.renderNested`** — where a reading is bounded by a
  depth, that in the larger image may go deeper.
-/

namespace Postmortem

variable {α β : Type}

/-! ## Outcomes that stay -/

/-- Something was missing that growth can bring. -/
inductive Fault.Curable : Fault → Prop
  | unmapped (address length : ℕ) : Curable (.unmapped address length)
  | unknownType (type : TypeId) : Curable (.unknownType type)
  | endless : Curable .endless

/-- The second reading is the first, unless that failed with a curable fault. -/
def Keeps (r r' : Reading α) : Prop :=
  (∀ fault, r = .error fault → ¬ fault.Curable) → r' = r

namespace Keeps

lemma refl (r : Reading α) : Keeps r r :=
  fun _ => rfl

lemma of_curable {fault : Fault} (curable : fault.Curable) (r : Reading α) :
    Keeps (.error fault) r :=
  fun final => absurd curable (final fault rfl)

lemma ok {r r' : Reading α} {a : α} (h : Keeps r r') (result : r = .ok a) : r' = .ok a := by
  rw [h (by simp [result]), result]

lemma error {r r' : Reading α} {fault : Fault} (h : Keeps r r') (failed : r = .error fault)
    (final : ¬ fault.Curable) : r' = .error fault := by
  rw [h (by simp [failed, final]), failed]

lemma bind {r r' : Reading α} {f f' : α → Reading β} (first : Keeps r r')
    (rest : ∀ a, Keeps (f a) (f' a)) : Keeps (r >>= f) (r' >>= f') := by
  intro final
  cases r with
  | error fault =>
      rw [first.error rfl (final fault rfl)]
      rfl
  | ok a =>
      rw [first.ok rfl]
      exact rest a final

lemma ite {c : Prop} [Decidable c] {r r' s s' : Reading α} (yes : Keeps r r') (no : Keeps s s') :
    Keeps (if c then r else s) (if c then r' else s') := by
  split
  · exact yes
  · exact no

lemma mapM {f f' : α → Reading β} (h : ∀ a, Keeps (f a) (f' a)) (xs : List α) :
    Keeps (xs.mapM f) (xs.mapM f') := by
  induction xs with
  | nil => exact .refl _
  | cons x xs ih =>
      rw [List.mapM_cons, List.mapM_cons]
      exact .bind (h x) fun _ => .bind ih fun _ => .refl _

lemma findSomeM? {f f' : α → Reading (Option β)} (h : ∀ a, Keeps (f a) (f' a)) (xs : List α) :
    Keeps (xs.findSomeM? f) (xs.findSomeM? f') := by
  induction xs with
  | nil => exact .refl _
  | cons x xs ih =>
      refine .bind (h x) fun found => ?_
      cases found with
      | none => exact ih
      | some _ => exact .refl _

lemma collectFrom {f f' : ℕ → Reading String} (h : ∀ i, Keeps (f i) (f' i)) (start count : ℕ) :
    Keeps (collectFrom f start count) (collectFrom f' start count) := by
  induction count generalizing start with
  | zero => exact .refl _
  | succ count ih => exact .bind (h start) fun _ => .bind (ih (start + 1)) fun _ => .refl _

end Keeps

namespace Image.Extends

variable {image image' : Image} (grown : image.Extends image')

include grown

/-! ## Types -/

lemma info (id : TypeId) : Keeps (image.types.info id) (image'.types.info id) := by
  cases found : image.types.get? id with
  | none =>
      rw [TypeTable.info, found]
      exact .of_curable (.unknownType id) _
  | some info =>
      rw [TypeTable.info_of_get? found, TypeTable.info_of_get? (grown.get? found)]
      exact .refl _

lemma nameOf (id : TypeId) : Keeps (image.types.nameOf id) (image'.types.nameOf id) :=
  .bind (grown.info id) fun _ => .refl _

lemma byteSize (id : TypeId) : Keeps (image.types.byteSize id) (image'.types.byteSize id) :=
  .bind (grown.info id) fun _ => .refl _

lemma target (id : TypeId) : Keeps (image.types.target id) (image'.types.target id) :=
  .bind (grown.info id) fun _ => .refl _

lemma templateArg (id : TypeId) (index : ℕ) :
    Keeps (image.types.templateArg id index) (image'.types.templateArg id index) :=
  .bind (grown.info id) fun _ => .refl _

lemma constant (id : TypeId) (name : String) :
    Keeps (image.types.constant id name) (image'.types.constant id name) :=
  .bind (grown.info id) fun _ => .refl _

/-- **A search through bases finds what it found**, also if it may go deeper. -/
lemma findMember (name : String) {depth depth' : ℕ} (deeper : depth ≤ depth') (id : TypeId) :
    Keeps (image.types.findMember name depth id) (image'.types.findMember name depth' id) := by
  induction depth generalizing depth' id with
  | zero => exact .of_curable .endless _
  | succ depth ih =>
      cases depth' with
      | zero => exact absurd deeper (Nat.not_succ_le_zero depth)
      | succ depth' =>
          refine .bind (grown.info id) fun info => ?_
          cases info.kind with
          | record fields =>
              dsimp only
              cases fields.find? fun f => !f.isBase && f.name == name with
              | some f => exact .refl _
              | none =>
                  refine .findSomeM? (fun base => ?_) _
                  exact .bind (ih (Nat.le_of_succ_le_succ deeper) base.type) fun _ => .refl _
          | _ => exact .refl _

lemma member (id : TypeId) (name : String) :
    Keeps (image.types.member id name) (image'.types.member id name) := by
  refine .bind (grown.findMember name (Nat.succ_le_succ grown.size_le) id) fun found => ?_
  cases found with
  | some place => exact .refl _
  | none => exact .bind (grown.nameOf id) fun _ => .refl _

/-! ## Objects -/

lemma typeName (o : Object) : Keeps (image.typeName o) (image'.typeName o) :=
  grown.nameOf o.type

lemma field (o : Object) (name : String) : Keeps (image.field o name) (image'.field o name) :=
  .bind (grown.member o.type name) fun _ => .refl _

lemma arrayLength (o : Object) : Keeps (image.arrayLength o) (image'.arrayLength o) :=
  .bind (grown.info o.type) fun _ => .refl _

lemma index (o : Object) (i : ℕ) : Keeps (image.index o i) (image'.index o i) := by
  refine .bind (grown.info o.type) fun info => ?_
  cases info.kind with
  | array element length =>
      exact .ite (.bind (grown.byteSize element) fun _ => .refl _) (.refl _)
  | _ => exact .refl _

lemma readBytes (address length : ℕ) :
    Keeps (image.readBytes address length) (image'.readBytes address length) := by
  cases found : image.memory.read address length with
  | none =>
      rw [Image.readBytes, found]
      exact .of_curable (.unmapped address length) _
  | some bytes =>
      rw [Image.readBytes, Image.readBytes, found, grown.read found]
      exact .refl _

lemma readUnsigned (o : Object) : Keeps (image.readUnsigned o) (image'.readUnsigned o) := by
  refine .bind (grown.info o.type) fun info => .ite ?_ (.refl _)
  rw [grown.order_eq]
  exact .bind (grown.readBytes o.address info.size) fun _ => .refl _

lemma readSigned (o : Object) : Keeps (image.readSigned o) (image'.readSigned o) :=
  .bind (grown.readUnsigned o) fun _ => .bind (grown.byteSize o.type) fun _ => .refl _

lemma readAddress (pointer : Object) :
    Keeps (image.readAddress pointer) (image'.readAddress pointer) := by
  refine .bind (grown.info pointer.type) fun _ => .ite ?_ (.refl _)
  exact .bind (grown.readUnsigned pointer) fun _ => .refl _

lemma deref (pointer : Object) : Keeps (image.deref pointer) (image'.deref pointer) := by
  refine .bind (grown.info pointer.type) fun info => ?_
  cases info.kind with
  | pointer target => exact .bind (grown.readAddress pointer) fun _ => .refl _
  | _ => exact .refl _

/-! ## Wrappers -/

lemma atomicPayload (o : Object) : Keeps (image.atomicPayload o) (image'.atomicPayload o) := by
  refine .bind (grown.typeName o) fun _ => .ite ?_ (.refl _)
  exact .bind (grown.templateArg o.type 0) fun _ => .refl _

lemma elementPayload (o : Object) : Keeps (image.elementPayload o) (image'.elementPayload o) := by
  refine .bind (grown.typeName o) fun _ => .ite ?_ (.refl _)
  exact .bind (grown.field o "p") fun pointer => grown.deref pointer

lemma readIntegral (o : Object) : Keeps (image.readIntegral o) (image'.readIntegral o) := by
  refine .bind (grown.atomicPayload o) fun plain => .bind (grown.info plain.type) fun info => ?_
  cases info.kind with
  | record _ =>
      exact .bind (grown.field plain "n") fun held =>
        .bind (grown.atomicPayload held) fun inner => grown.readUnsigned inner
  | _ => exact grown.readUnsigned plain

/-- The spelling that was found is found again: none before it has appeared. -/
lemma fieldAny (o : Object) (name : String) (names : List String) :
    Keeps (image.fieldAny o name names) (image'.fieldAny o name names) := by
  induction names generalizing name with
  | nil => exact grown.field o name
  | cons other names ih =>
      have first := grown.field o name
      rw [Image.fieldAny, Image.fieldAny]
      cases found : image.field o name with
      | ok part =>
          rw [first.ok found]
          exact .refl _
      | error fault =>
          by_cases curable : fault.Curable
          · cases curable <;> exact .of_curable (by constructor) _
          · rw [first.error found curable]
            cases fault with
            -- the member is absent from both images, so both try the next spelling
            | noSuchField _ _ => exact ih other
            | _ => exact .refl _

/-! ## Text -/

/-- **The text of an object is what it was**, also if its types may be nested deeper. -/
lemma renderNested {depth depth' : ℕ} (deeper : depth ≤ depth') (o : Object) :
    Keeps (image.renderNested depth o) (image'.renderNested depth' o) := by
  induction depth generalizing depth' o with
  | zero => exact .of_curable .endless _
  | succ depth ih =>
      cases depth' with
      | zero => exact absurd deeper (Nat.not_succ_le_zero depth)
      | succ depth' =>
          have inside (part : Object) := ih (Nat.le_of_succ_le_succ deeper) part
          refine .bind (grown.info o.type) fun info => ?_
          cases info.kind with
          | unsigned => exact .bind (grown.readUnsigned o) fun _ => .refl _
          | signed => exact .bind (grown.readSigned o) fun _ => .refl _
          | pointer _ => exact .bind (grown.readAddress o) fun _ => .refl _
          | array _ length =>
              refine .bind (.collectFrom (fun i => ?_) 0 length) fun _ => .refl _
              exact .bind (grown.index o i) inside
          | record fields =>
              refine .bind (.mapM (fun f => ?_) fields) fun _ => .refl _
              exact .bind (inside (o.part f.place)) fun _ => .refl _

lemma nesting_le : image.nesting ≤ image'.nesting :=
  Nat.mul_le_mul grown.size_le (Nat.succ_le_succ grown.limit_le)

lemma render (o : Object) : Keeps (image.render o) (image'.render o) :=
  grown.renderNested (Nat.succ_le_succ grown.nesting_le) o

/-! ## Tables -/

lemma nodeValue (node : Object) : Keeps (nodeValue image node) (nodeValue image' node) :=
  .bind (grown.field node "buf") fun buf => grown.field buf "t_"

lemma followLink (link : Object) : Keeps (followLink image link) (followLink image' link) := by
  refine .bind (grown.readAddress link) fun _ => .ite (.refl _) ?_
  exact .bind (grown.target link.type) fun _ => .refl _

lemma bucketTable (container : Object) :
    Keeps (BucketTable.read image container) (BucketTable.read image' container) := by
  refine .bind (grown.field container "table_") fun table => ?_
  refine .bind (grown.field table "buckets_") fun array => ?_
  refine .bind (grown.field array "size_") fun sizeField => ?_
  refine .bind (grown.readIntegral sizeField) fun _ => ?_
  refine .bind (grown.field array "buckets") fun pointer => ?_
  refine .bind (grown.target pointer.type) fun bucketType => ?_
  refine .bind (grown.readAddress pointer) fun _ => ?_
  exact .bind (grown.byteSize bucketType) fun _ => .refl _

lemma groupLayout (group : Object) :
    Keeps (GroupShape.layoutOf image group) (GroupShape.layoutOf image' group) := by
  refine .bind (grown.field group "m") fun words => .bind (grown.arrayLength words) fun length => ?_
  cases ControlLayout.ofLength? length with
  | some layout => exact .refl _
  | none => exact .bind (grown.typeName group) fun _ => .refl _

lemma groupSlots (type : TypeId) :
    Keeps (GroupShape.slotsOf image type) (GroupShape.slotsOf image' type) := by
  refine .bind (grown.constant type "N") fun _ => .ite (.refl _) ?_
  exact .bind (grown.nameOf type) fun _ => .refl _

lemma groupShape (group : Object) :
    Keeps (GroupShape.read image group) (GroupShape.read image' group) := by
  refine .bind (grown.groupLayout group) fun _ => ?_
  refine .bind (grown.groupSlots group.type) fun _ => ?_
  refine .bind (grown.constant group.type "sentinel_") fun _ => ?_
  exact .bind (grown.byteSize group.type) fun _ => .refl _

lemma groupControl (group : Object) :
    Keeps (GroupShape.control image group) (GroupShape.control image' group) := by
  refine .bind (grown.field group "m") fun words => .bind (grown.arrayLength words) fun length => ?_
  refine .mapM (fun i => ?_) (List.range length)
  exact .bind (grown.index words i) fun word => grown.readIntegral word

lemma control (t : GroupTable) (group : ℕ) :
    Keeps (t.control image group) (t.control image' group) :=
  grown.groupControl ⟨t.groupAddress group, t.groupType⟩

lemma payload (t : GroupTable) (slot : Slot) :
    Keeps (t.payload image slot) (t.payload image' slot) :=
  grown.elementPayload (t.element slot)

lemma groupTable (container : Object) :
    Keeps (GroupTable.read image container) (GroupTable.read image' container) := by
  refine .bind (grown.field container "table_") fun table => ?_
  refine .bind (grown.field table "arrays") fun arrays => ?_
  refine .bind (grown.fieldAny arrays "groups_" ["groups"]) fun groups => ?_
  refine .bind (grown.fieldAny arrays "elements_" ["elements"]) fun elements => ?_
  refine .bind (grown.target groups.type) fun groupType => ?_
  refine .bind (grown.target elements.type) fun elementType => ?_
  refine .bind (grown.readAddress groups) fun address => ?_
  refine .bind (grown.readAddress elements) fun _ => ?_
  refine .bind (grown.groupShape ⟨address, groupType⟩) fun _ => ?_
  exact .bind (grown.byteSize elementType) fun _ => .refl _

/-! ## Containers and iterators -/

lemma container (object : Object) :
    Keeps (Container.ofObject image object) (Container.ofObject image' object) :=
  .bind (grown.typeName object) fun _ => .refl _

lemma length (c : Container) : Keeps (c.length image) (c.length image') := by
  refine .bind (grown.field c.object "table_") fun table => ?_
  cases c.classification.family with
  | bucket => exact .bind (grown.field table "size_") fun size => grown.readIntegral size
  | grouped =>
      exact .bind (grown.field table "size_ctrl") fun control =>
        .bind (grown.field control "size") fun size => grown.readIntegral size

lemma containerSummary (c : Container) : Keeps (c.summary image) (c.summary image') :=
  .bind (grown.length c) fun _ => .refl _

lemma halves (kind : Kind) (ordinal : ℕ) (element : Object) :
    Keeps (Children.halves image kind ordinal element)
      (Children.halves image' kind ordinal element) := by
  cases kind with
  | map =>
      exact .bind (grown.field element "first") fun _ =>
        .bind (grown.field element "second") fun _ => .refl _
  | set => exact .refl _

lemma iterator (object : Object) :
    Keeps (IteratorHandle.ofObject image object) (IteratorHandle.ofObject image' object) :=
  .bind (grown.typeName object) fun _ => .refl _

lemma positionPointer (i : IteratorHandle) :
    Keeps (i.positionPointer image) (i.positionPointer image') := by
  rw [IteratorHandle.positionPointer, IteratorHandle.positionPointer]
  cases i.family with
  | bucket => exact .bind (grown.field i.object "itb") fun position => grown.field position "p"
  | grouped => exact grown.field i.object "pc"

lemma isValid (i : IteratorHandle) : Keeps (i.isValid image) (i.isValid image') := by
  refine .bind (grown.field i.object "p") fun pointer => ?_
  refine .bind (grown.readAddress pointer) fun _ => .ite (.refl _) ?_
  refine .bind (grown.positionPointer i) fun position => ?_
  exact .bind (grown.readAddress position) fun _ => .refl _

lemma iteratorPayload (family : Family) (target : Object) :
    Keeps (IteratorHandle.payload image family target)
      (IteratorHandle.payload image' family target) := by
  cases family with
  | bucket => exact grown.nodeValue target
  | grouped => exact grown.elementPayload target

lemma value (i : IteratorHandle) : Keeps (i.value image) (i.value image') := by
  refine .bind (grown.isValid i) fun _ => .ite ?_ (.refl _)
  refine .bind (grown.field i.object "p") fun pointer => ?_
  refine .bind (grown.deref pointer) fun target => ?_
  exact .bind (grown.iteratorPayload i.family target) fun _ => .refl _

lemma iteratorSummary (i : IteratorHandle) : Keeps (i.summary image) (i.summary image') := by
  refine .bind (grown.value i) fun found => ?_
  cases found with
  | some element => exact .bind (grown.render element) fun _ => .refl _
  | none => exact .refl _

end Image.Extends

end Postmortem
