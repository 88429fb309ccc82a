import Postmortem.IteratorHandle
import Postmortem.Proofs.Bucket.Chains
import Postmortem.Proofs.Group.Survey

/-!
# Iterators stand for what a traversal gives

A container gives its elements in two ways.  A traversal steps through the table and gives them one
by one; an iterator is an object by itself, and is asked for its element without the table.  Both
must come to the same object, indirect elements followed.

* `GroupedIterator`, `BucketIterator` — an object is an iterator by the name of its type, points at
  a target, and has a position that is not null.
* `isValid_and_value` — such an iterator is valid and gives what its target holds.
* `BucketWalk.Visits` — the node that the next call of a walk visits; `exists_visits` finds it
  behind each element that is given, and `nodeValue_of_visits` says that it holds the element.
* **`iterator_value_eq_element`** — an iterator at the place of an element that a traversal gave is
  valid, and its value is that element.
-/

namespace Postmortem

/-! ## Iterators -/

/-- A pointer to objects of the target's type holds the address of the target. -/
def HoldsTarget (image : Image) (pointer target : Object) : Prop :=
  image.types.target pointer.type = .ok target.type ∧
    image.readAddress pointer = .ok target.address

/-- A pointer can be read and is not null. -/
def NotNull (image : Image) (pointer : Object) : Prop :=
  ∃ address, image.readAddress pointer = .ok address ∧ address ≠ 0

/-- An object is an iterator into a grouped table that points at a target. -/
structure GroupedIterator (image : Image) (object target : Object) : Prop where
  named : ∃ name, image.typeName object = .ok name ∧ TypeName.base name ∈ groupedIterators
  element : ∃ p, image.field object "p" = .ok p ∧ HoldsTarget image p target
  positioned : ∃ pc, image.field object "pc" = .ok pc ∧ NotNull image pc

/-- An object is an iterator into a bucket table that points at a node. -/
structure BucketIterator (image : Image) (object node : Object) : Prop where
  named : ∃ name, image.typeName object = .ok name ∧ TypeName.base name ∈ bucketIterators
  element : ∃ p, image.field object "p" = .ok p ∧ HoldsTarget image p node
  positioned : ∃ itb position, image.field object "itb" = .ok itb ∧
    image.field itb "p" = .ok position ∧ NotNull image position

/-- An object can be looked at as an iterator, which is valid and gives this element. -/
def StandsAt (image : Image) (object element : Object) : Prop :=
  ∃ iterator, (IteratorHandle.inspect image object).run.value = .ok iterator ∧
    iterator.isValid image = .ok true ∧ iterator.value image = .ok (some element)

namespace IteratorHandle

variable {image : Image} {object target element : Object} {family : Family}

/-- An iterator with two pointers that are not null gives what its target holds. -/
lemma isValid_and_value {i : IteratorHandle} {p position : Object}
    (held : image.field i.object "p" = .ok p) (holds : HoldsTarget image p target)
    (nonnull : target.address ≠ 0) (placed : i.positionPointer image = .ok position)
    (positioned : NotNull image position)
    (payload_eq : payload image i.family target = .ok element) :
    i.isValid image = .ok true ∧ i.value image = .ok (some element) := by
  obtain ⟨typed, here⟩ := holds
  obtain ⟨address, hposition, other⟩ := positioned
  have valid : i.isValid image = .ok true := by
    rw [isValid, held, ok_bind, here, ok_bind, if_neg nonnull, placed, ok_bind, hposition, ok_bind,
      bne_iff_ne.mpr other]
    rfl
  refine ⟨valid, ?_⟩
  rw [value, valid, ok_bind, if_pos rfl, held, ok_bind, deref_of_target typed here nonnull, ok_bind,
    payload_eq]
  rfl

/-- An object is looked at as an iterator of the family of its type's name. -/
lemma inspect_of_typeName {name : String} (named : image.typeName object = .ok name) :
    (inspect image object).run.value = .ok ⟨object, familyOf (TypeName.base name)⟩ := by
  have hobject : ofObject image object = .ok ⟨object, familyOf (TypeName.base name)⟩ := by
    rw [ofObject, named]
    rfl
  rw [inspect, hobject]
  rfl

end IteratorHandle

lemma familyOf_groupedIterators {base : String} (h : base ∈ groupedIterators) :
    familyOf base = .grouped := by
  have known : (groupedContainers ++ groupedIterators).contains base = true :=
    List.contains_iff_mem.mpr (List.mem_append_right _ h)
  rw [familyOf, if_pos known]

lemma familyOf_bucketIterators {base : String} (h : base ∈ bucketIterators) :
    familyOf base = .bucket := by
  simp only [bucketIterators, List.mem_cons, List.not_mem_nil, or_false] at h
  rcases h with rfl | rfl <;> decide

variable {image : Image} {object target node element : Object}

lemma GroupedIterator.standsAt (it : GroupedIterator image object target)
    (nonnull : target.address ≠ 0) (payload : image.elementPayload target = .ok element) :
    StandsAt image object element := by
  obtain ⟨⟨name, named, known⟩, ⟨p, held, holds⟩, ⟨pc, placed, positioned⟩⟩ := it
  have inspected := IteratorHandle.inspect_of_typeName named
  rw [familyOf_groupedIterators known] at inspected
  exact ⟨_, inspected,
    IteratorHandle.isValid_and_value held holds nonnull placed positioned payload⟩

lemma BucketIterator.standsAt (it : BucketIterator image object node)
    (nonnull : node.address ≠ 0) (payload : nodeValue image node = .ok element) :
    StandsAt image object element := by
  obtain ⟨⟨name, named, known⟩, ⟨p, held, holds⟩, ⟨itb, position, inner, placed, positioned⟩⟩ := it
  have inspected := IteratorHandle.inspect_of_typeName named
  rw [familyOf_bucketIterators known] at inspected
  have position_eq : (⟨object, .bucket⟩ : IteratorHandle).positionPointer image = .ok position := by
    rw [IteratorHandle.positionPointer, inner, ok_bind, placed]
  exact ⟨_, inspected,
    IteratorHandle.isValid_and_value held holds nonnull position_eq positioned payload⟩

/-! ## The node behind an element -/

namespace BucketWalk

/-- The next call of a walk visits this node: it is the node the pending link leads to, or the one
that the walk comes to after buckets whose links lead nowhere. -/
inductive Visits (image : Image) : BucketWalk → Object → Prop
  | pending {w : BucketWalk} {node : Object} (h : w.pendingNode image = .ok (some node)) :
      Visits image w node
  | onward {w w' : BucketWalk} {node : Object} (running : w.stage ≠ .ended)
      (h : w.round image = .onward w') (later : Visits image w' node) : Visits image w node

variable {w w' : BucketWalk}

lemma next_of_running (running : w.stage ≠ .ended) : w.next image = w.advance image := by
  cases h : w.stage with
  | ended => exact absurd h running
  | _ => rw [next, h]

/-- Only a link that is followed leads to a node, and not to a null one. -/
lemma running_of_pendingNode (h : w.pendingNode image = .ok (some node)) :
    w.stage ≠ .ended ∧ node.address ≠ 0 := by
  cases hstage : w.stage with
  | following link =>
      rw [pendingNode, hstage] at h
      obtain ⟨address, -, h⟩ := bind_eq_ok.mp h
      split at h
      · cases h
      · next nonnull =>
        obtain ⟨type, -, h⟩ := bind_eq_ok.mp h
        cases h
        exact ⟨by simp, nonnull⟩
  | _ =>
      rw [pendingNode, hstage] at h
      cases h

lemma running_of_onward (h : w.round image = .onward w') : w'.stage ≠ .ended := by
  rw [round] at h
  split at h
  · cases h
  · rw [visit] at h
    split at h
    · cases h
    · split at h <;> cases h
  · rw [openBucket] at h
    split at h
    · split at h
      · cases h
      · cases h
        simp
    · cases h

/-- A round that gives an element visits the node that holds it. -/
lemma exists_pendingNode (h : w.round image = .settled (.item element) w') :
    ∃ node, w.pendingNode image = .ok (some node) := by
  rw [round] at h
  split at h
  · cases h
  · next node hnode => exact ⟨node, hnode⟩
  · rw [openBucket] at h
    split at h
    · split at h <;> cases h
    · cases h

/-- **Behind every element that is given there is a node.** -/
lemma exists_visits (h : (w.next image).1 = .item element) : ∃ node, Visits image w node := by
  have running : w.stage ≠ .ended := by
    intro hstage
    rw [next, hstage] at h
    cases h
  rw [next_of_running running] at h
  fun_induction advance w image with
  | case1 w entry after hround =>
      cases h
      obtain ⟨node, hnode⟩ := exists_pendingNode hround
      exact ⟨node, .pending hnode⟩
  | case2 w after hround ih =>
      obtain ⟨node, visits⟩ := ih h (running_of_onward hround)
      exact ⟨node, .onward running hround visits⟩

lemma address_ne_zero_of_visits (visits : Visits image w node) : node.address ≠ 0 := by
  induction visits with
  | pending h => exact (running_of_pendingNode h).2
  | onward _ _ _ ih => exact ih

/-- **The node that a call visits holds the element that it gives.** -/
lemma nodeValue_of_visits (visits : Visits image w node)
    (given : (w.next image).1 = .item element) : nodeValue image node = .ok element := by
  induction visits with
  | @pending w node h =>
      have hround : w.round image = w.visit image node := by rw [round, h]
      rw [next_of_running (running_of_pendingNode h).1] at given
      rw [visit] at hround
      cases hnext : image.field node "next" with
      | error fault =>
          rw [hnext] at hround
          rw [advance_settled hround] at given
          cases given
      | ok link =>
          rw [hnext] at hround
          cases hvalue : nodeValue image node with
          | error fault =>
              simp only [hvalue] at hround
              rw [advance_settled hround] at given
              cases given
          | ok value =>
              simp only [hvalue] at hround
              rw [advance_settled hround] at given
              cases given
              rfl
  | onward running hround _ ih =>
      rw [next_of_running running, advance_onward hround,
        ← next_of_running (running_of_onward hround)] at given
      exact ih given

end BucketWalk

/-! ## Both ways to an element -/

/-- A walk that gives an element has an array of elements. -/
lemma GroupWalk.elements_ne_zero {container : Object} {walk : GroupWalk}
    (start : GroupWalk.start image container = .ok walk) {n : ℕ} {value : Object × Option Slot}
    (given : entryAt (GroupWalk.located image) walk n = .item value) :
    walk.table.elements ≠ 0 := by
  intro null
  obtain ⟨-, hwalk⟩ := GroupWalk.of_start start
  rw [GroupWalk.ofTable, if_pos null] at hwalk
  have ended : GroupWalk.located image walk = (.done, walk) := by
    rw [hwalk]
    rfl
  rw [gives_nil_of_fixed ended n] at given
  cases given

/-- **An iterator stands for what a traversal gives at its place.**  A grouped walk gives every
element on a slot; an object that is a grouped iterator, and points at the element stored for that
slot, is valid and has what the walk gave as its value, indirect elements followed.  A bucket walk
gives every element for a node; an object that is a bucket iterator and points at that node is valid
and has the same value. -/
theorem iterator_value_eq_element (image : Image) (container : Object) :
    (∀ walk, GroupWalk.start image container = .ok walk → ∀ n element place,
      entryAt (GroupWalk.located image) walk n = .item (element, place) →
      ∃ slot, place = some slot ∧ ∀ object,
        GroupedIterator image object
          ⟨walk.table.elements +
              (slot.group * walk.table.shape.slots + slot.offset) * walk.table.elementSize,
            walk.table.elementType⟩ →
        StandsAt image object element) ∧
    (∀ walk, BucketWalk.start image container = .ok walk → ∀ n element,
      entryAt (·.next image) walk n = .item element →
      (∃ node, BucketWalk.Visits image (afterCalls (·.next image) walk n) node) ∧
      ∀ node, BucketWalk.Visits image (afterCalls (·.next image) walk n) node →
        ∀ object, BucketIterator image object node → StandsAt image object element) := by
  refine ⟨fun walk start n element place given => ?_, fun walk start n element given => ?_⟩
  · obtain ⟨slot, rfl, payload, -⟩ := GroupWalk.marks_of_entryAt given
    have allocated := GroupWalk.elements_ne_zero start given
    refine ⟨slot, rfl, fun object it => it.standsAt ?_ payload⟩
    exact Nat.ne_of_gt (Nat.add_pos_left (Nat.pos_of_ne_zero allocated) _)
  · refine ⟨BucketWalk.exists_visits given, fun node visits object it => ?_⟩
    exact it.standsAt (BucketWalk.address_ne_zero_of_visits visits)
      (BucketWalk.nodeValue_of_visits visits given)

/-- A grouped table of one indirect element in slot 2 and a bucket table of one node, each with an
iterator at its element. -/
def twoIterators : Image where
  order := .little
  memory :=
    { segments :=
        [⟨0x10, #[0, 1, 0, 0, 0, 0, 0, 0, 0, 2, 0, 0, 0, 0, 0, 0]⟩,
          ⟨0x30, #[2, 1, 0, 0, 0, 0, 0, 0, 0x10, 2, 0, 0, 0, 0, 0, 0]⟩,
          ⟨0x50, #[0, 4, 0, 0, 0, 0, 0, 0, 1, 0, 0, 0, 0, 0, 0, 0]⟩,
          ⟨0x70, #[0, 5, 0, 0, 0, 0, 0, 0, 0, 4, 0, 0, 0, 0, 0, 0]⟩,
          ⟨0x100, #[0, 0, 7, 0, 0, 0, 0, 0, 0, 0, 0, 0, 0, 0, 1, 0]⟩,
          ⟨0x210, #[0, 3, 0, 0, 0, 0, 0, 0]⟩,
          ⟨0x400, #[0, 5, 0, 0, 0, 0, 0, 0]⟩,
          ⟨0x500, #[0, 0, 0, 0, 0, 0, 0, 0]⟩]
      apart := by decide
      bounded := by decide }
  types := ⟨#[some (.plain "unsigned char" 1 .unsigned),
    some (.plain "unsigned char [16]" 16 (.array 0 16)),
    some (.plain "group15" 16 (.record [⟨"m", 0, 1, false⟩])),
    some (.plain "group15 *" 8 (.pointer 2)),
    some (.plain "int" 4 .signed),
    some (.plain "int *" 8 (.pointer 4)),
    some (.plain "boost::unordered::detail::foa::element_type<int, void *>" 8
      (.record [⟨"p", 0, 5, false⟩])),
    some (.plain "element_type *" 8 (.pointer 6)),
    some (.plain "arrays" 16 (.record [⟨"groups_", 0, 3, false⟩, ⟨"elements_", 8, 7, false⟩])),
    some (.plain "table" 16 (.record [⟨"arrays", 0, 8, false⟩])),
    some (.plain "boost::unordered::unordered_node_set<int>" 16
      (.record [⟨"table_", 0, 9, false⟩])),
    some (.plain "unsigned char *" 8 (.pointer 0)),
    some (.plain "boost::unordered::detail::foa::table_iterator<policies, group15 *, false>" 16
      (.record [⟨"pc", 0, 11, false⟩, ⟨"p", 8, 7, false⟩])),
    some (.plain "node" 12 (.record [⟨"next", 0, 14, false⟩, ⟨"buf", 8, 15, false⟩])),
    some (.plain "node *" 8 (.pointer 13)),
    some (.plain "storage" 4 (.record [⟨"t_", 0, 4, false⟩])),
    some (.plain "bucket" 8 (.record [⟨"next", 0, 14, false⟩])),
    some (.plain "bucket *" 8 (.pointer 16)),
    some (.plain "unsigned long" 8 .unsigned),
    some (.plain "bucket_array" 16 (.record [⟨"buckets", 0, 17, false⟩, ⟨"size_", 8, 18, false⟩])),
    some (.plain "table" 16 (.record [⟨"buckets_", 0, 19, false⟩])),
    some (.plain "boost::unordered::unordered_set<int>" 16 (.record [⟨"table_", 0, 20, false⟩])),
    some (.plain "bucket_iterator" 8 (.record [⟨"p", 0, 17, false⟩])),
    some (.plain "boost::unordered::detail::iterator_detail::c_iterator<node, bucket>" 16
      (.record [⟨"p", 0, 14, false⟩, ⟨"itb", 8, 22, false⟩]))]⟩

theorem twoIterators_dereferenced :
    StandsAt twoIterators ⟨0x30, 12⟩ ⟨0x300, 4⟩ ∧ StandsAt twoIterators ⟨0x70, 23⟩ ⟨0x508, 4⟩ := by
  let grouped : GroupWalk := ⟨⟨⟨.regular, 15, 1, 16⟩, 0x100, 2, 0x200, 6, 8⟩, .fresh⟩
  let bucket : BucketWalk := ⟨⟨0x400, 16, 8, 1⟩, 0, .between⟩
  have groupedStart : GroupWalk.start twoIterators ⟨0x10, 10⟩ = .ok grouped := rfl
  have bucketStart : BucketWalk.start twoIterators ⟨0x50, 21⟩ = .ok bucket := rfl
  have slotGiven : entryAt (GroupWalk.located twoIterators) grouped 0 =
      .item (⟨0x300, 4⟩, some ⟨0, 2⟩) := by decide +kernel
  have nodeGiven : entryAt (·.next twoIterators) bucket 0 = .item ⟨0x508, 4⟩ := by decide +kernel
  have opened : bucket.round twoIterators =
      .onward ⟨bucket.table, 1, .following ⟨0x400, 14⟩⟩ := by decide +kernel
  have visits : BucketWalk.Visits twoIterators bucket ⟨0x500, 13⟩ :=
    .onward (by decide) opened (.pending rfl)
  obtain ⟨slots, -⟩ := iterator_value_eq_element twoIterators ⟨0x10, 10⟩
  obtain ⟨slot, hslot, stands⟩ := slots grouped groupedStart 0 _ _ slotGiven
  obtain rfl : (⟨0, 2⟩ : Slot) = slot := Option.some.inj hslot
  obtain ⟨-, nodes⟩ := iterator_value_eq_element twoIterators ⟨0x50, 21⟩
  obtain ⟨-, visited⟩ := nodes bucket bucketStart 0 _ nodeGiven
  exact ⟨stands _ ⟨⟨_, rfl, by decide +kernel⟩, ⟨⟨0x38, 7⟩, rfl, rfl, rfl⟩,
      ⟨⟨0x30, 11⟩, rfl, 0x102, rfl, by decide⟩⟩,
    visited _ visits _ ⟨⟨_, rfl, by decide +kernel⟩, ⟨⟨0x70, 14⟩, rfl, rfl, rfl⟩,
      ⟨⟨0x78, 22⟩, ⟨0x78, 17⟩, rfl, rfl, 0x400, rfl, by decide⟩⟩⟩

end Postmortem
