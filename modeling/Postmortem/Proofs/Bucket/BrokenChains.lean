import Postmortem.Proofs.Bucket.Chains
import Postmortem.Proofs.Image.StoredIntegers

/-!
# A bucket walk over broken memory

Chains lead through memory that may be torn.  A link that cannot be read ends the walk, and the
question is what is lost with it.  Nothing is: the link of a node is looked at one call after the
node was given, so every node that was reached is given before the fault.

* `HasNext` — what the links of objects of a type have in common: in `PointsTo` they are pointers to
  nodes, in `LinksTo` they have eight bytes besides.  Such a link fails to be read in one way only:
  its bytes are not mapped (`fault_of_isLink`).
* `answers_broken` — a walk about to follow a broken link gives its fault, and that is all.
* **`bucketWalk_until_broken_link`** — the walk gives the value of every node up to the broken link,
  then the fault of that link, then the end for ever.
-/

namespace Postmortem

/-! ## Links -/

/-- The member `next` of a type is of a type with this property. -/
def HasNext (types : TypeTable) (property : TypeId → Prop) (id : TypeId) : Prop :=
  ∃ place, types.member id "next" = .ok place ∧ property place.type

/-- Objects of the type are pointers of eight bytes to nodes. -/
def IsLink (types : TypeTable) (node id : TypeId) : Prop :=
  ∃ info, types.get? id = some info ∧ info.kind = .pointer node ∧ info.size = 8

/-- The member `next` of a type is a pointer of eight bytes to nodes. -/
def LinksTo (types : TypeTable) (node id : TypeId) : Prop :=
  HasNext types (IsLink types node) id

/-- The member `next` of a type is a pointer to nodes, of whatever width. -/
def PointsTo (types : TypeTable) (node id : TypeId) : Prop :=
  HasNext types (fun link => types.target link = .ok node) id

variable {image : Image} {link last : Object} {nodes : List Object} {node : TypeId}

namespace HasNext

variable {property : TypeId → Prop}

lemma of_field {id : TypeId} {address : ℕ} (has : HasNext image.types property id)
    (linked : image.field ⟨address, id⟩ "next" = .ok link) : property link.type := by
  obtain ⟨place, hplace, holds⟩ := has
  obtain ⟨place', hplace', rfl⟩ := Image.field_eq_ok.mp linked
  obtain rfl : place' = place := Except.ok.inj (hplace'.symm.trans hplace)
  exact holds

/-- Of objects of one type the links lie at one distance. -/
lemma exists_offset {id : TypeId} (has : HasNext image.types property id) :
    ∃ offset, ∀ address, ∃ link, image.field ⟨address, id⟩ "next" = .ok link ∧
      link.address = address + offset ∧ property link.type := by
  obtain ⟨place, hplace, holds⟩ := has
  refine ⟨place.offset, fun address => ⟨Object.part ⟨address, id⟩ place, ?_, rfl, holds⟩⟩
  exact Image.field_eq_ok.mpr ⟨place, hplace, rfl⟩

lemma exists_link {id : TypeId} (has : HasNext image.types property id) (address : ℕ) :
    ∃ link, image.field ⟨address, id⟩ "next" = .ok link ∧ property link.type := by
  obtain ⟨offset, linked⟩ := has.exists_offset
  obtain ⟨link, hlink, -, holds⟩ := linked address
  exact ⟨link, hlink, holds⟩

end HasNext

lemma IsLink.target_eq {id : TypeId} (isLink : IsLink image.types node id) :
    image.types.target id = .ok node := by
  obtain ⟨info, found, pointer, -⟩ := isLink
  rw [TypeTable.target, TypeTable.info_of_get? found, ok_bind, pointer]
  rfl

/-- A link that cannot be read is not mapped. -/
lemma fault_of_isLink {fault : Fault} (isLink : IsLink image.types node link.type)
    (unreadable : image.readAddress link = .error fault) : fault = .unmapped link.address 8 := by
  obtain ⟨info, found, pointer, sized⟩ := isLink
  have isPointer : info.isPointer = true := by rw [TypeInfo.isPointer, pointer]
  have isScalar : info.isScalar = true := by rw [TypeInfo.isScalar, pointer, sized]; rfl
  rw [Image.readAddress, TypeTable.info_of_get? found, ok_bind, if_pos isPointer,
    Image.readUnsigned, TypeTable.info_of_get? found, ok_bind, if_pos isScalar, sized,
    Image.readBytes] at unreadable
  cases hread : image.memory.read link.address 8 with
  | some bytes =>
      rw [hread] at unreadable
      contradiction
  | none =>
      rw [hread] at unreadable
      exact (Except.error.inj unreadable).symm

/-- All nodes of a path are of the type its links point to, and its last link is one of them. -/
lemma Path.typed (links : LinksTo image.types node node) (path : Path image link nodes last)
    (isLink : IsLink image.types node link.type) :
    (∀ o ∈ nodes, o.type = node) ∧ IsLink image.types node last.type := by
  induction path with
  | here link => exact ⟨by simp, isLink⟩
  | @node link next last address type nodes _ _ typed linked _ ih =>
      obtain rfl : type = node := Except.ok.inj (typed.symm.trans isLink.target_eq)
      obtain ⟨rest, lastLink⟩ := ih (HasNext.of_field links linked)
      exact ⟨List.forall_mem_cons.mpr ⟨rfl, rest⟩, lastLink⟩

/-! ## What the walk answers -/

namespace BucketWalk

variable {table : BucketTable} {opened : ℕ}

lemma next_of_unreadable {fault : Fault} (unreadable : image.readAddress last = .error fault) :
    (⟨table, opened, .following last⟩ : BucketWalk).next image =
      (.fault fault, ⟨table, opened, .ended⟩) := by
  refine advance_settled ?_
  simp only [round, pendingNode, followLink, unreadable]
  rfl

/-- A link that cannot be read gives its fault and nothing more. -/
lemma answers_broken {fault : Fault} (unreadable : image.readAddress last = .error fault) :
    Answers (·.next image) (⟨table, opened, .following last⟩ : BucketWalk) [] (.fault fault) :=
  answers_fault (next_of_unreadable unreadable) rfl

end BucketWalk

/-- **A bucket walk over broken memory gives what it reached, and one fault.**  Bucket and node
types have links of eight bytes to nodes, and nodes hold a value.  Following heads and links in
order leads through whole chains of some buckets, and in the next bucket to a link that cannot be
read.  Then the walk gives the values of all the nodes on the way, the last of them even if its
memory is not mapped at all; after them it gives the fault of the broken link, and from then on the
end. -/
theorem bucketWalk_until_broken_link {image : Image} {container : Object} {walk : BucketWalk}
    (start : BucketWalk.start image container = .ok walk) {node : TypeId}
    (heads : LinksTo image.types node walk.table.bucketType)
    (links : LinksTo image.types node node) (holds : HoldsValue image.types node) {torn : ℕ}
    (inside : torn < walk.table.count) {chains : ℕ → List Object}
    (intact : ∀ i < torn, ∃ link, image.field (walk.table.bucket i) "next" = .ok link ∧
      Chain image link (chains i))
    {head last : Object} {nodes : List Object} {fault : Fault}
    (opened : image.field (walk.table.bucket torn) "next" = .ok head)
    (path : Path image head nodes last) (unreadable : image.readAddress last = .error fault) :
    ∃ values,
      List.Forall₂ (fun node value => nodeValue image node = .ok value)
        ((List.range torn).flatMap chains ++ nodes) values ∧
      Answers (·.next image) walk values (.fault (.unmapped last.address 8)) := by
  obtain ⟨table, -, hwalk⟩ := bind_eq_ok.mp start
  obtain rfl : BucketWalk.ofTable table = walk := Except.ok.inj hwalk
  replace inside : torn < table.count := inside
  have each : ∀ o : Object, o.type = node → ∃ value, nodeValue image o = .ok value :=
    fun o ho => nodeValue_ok (ho ▸ holds)
  choose! value hvalue using each
  have headLink {i : ℕ} {link : Object}
      (linked : image.field (table.bucket i) "next" = .ok link) :
      IsLink image.types node link.type := HasNext.of_field heads linked
  have heldBefore : ∀ i < torn, ∀ o ∈ chains i, nodeValue image o = .ok (value o) := by
    intro i hi o ho
    obtain ⟨link, linked, _, whole, -⟩ := intact i hi
    exact hvalue o ((whole.typed links (headLink linked)).1 o ho)
  have ⟨typed, lastLink⟩ := path.typed links (headLink opened)
  have held : ∀ o ∈ nodes, nodeValue image o = .ok (value o) := fun o ho => hvalue o (typed o ho)
  refine ⟨((List.range torn).flatMap chains ++ nodes).map value, ?_, ?_⟩
  · rw [List.forall₂_map_right_iff, List.forall₂_same]
    intro o ho
    rcases List.mem_append.mp ho with ho | ho
    · obtain ⟨i, hi, ho⟩ := List.mem_flatMap.mp ho
      exact heldBefore i (List.mem_range.mp hi) o ho
    · exact held o ho
  · rw [List.map_append, List.range_eq_range']
    refine BucketWalk.answers_buckets (by omega) (fun i _ hi => intact i (by omega))
      (fun i _ hi => heldBefore i (by omega)) ?_
    rw [Nat.zero_add]
    refine (answers_congr (BucketWalk.next_of_bucket inside opened)).mpr ?_
    rw [← List.append_nil (nodes.map value), ← fault_of_isLink lastLink unreadable]
    exact BucketWalk.answers_path path held (BucketWalk.answers_broken unreadable)

/-- A table whose last chain leads to a node outside the mapped memory. -/
def danglingChain : Image :=
  { threeBuckets with
    memory :=
      { segments :=
          [⟨0x10, #[0, 0, 0, 0, 0, 0, 0, 0x20, 0, 0, 0, 0, 0, 0, 0, 3]⟩,
            ⟨0x20, #[0, 0, 0, 0, 0, 0, 0, 0x40, 0, 0, 0, 0, 0, 0, 0, 0,
              0, 0, 0, 0, 0, 0, 0, 0x50]⟩,
            ⟨0x40, #[0, 0, 0, 0, 0, 0, 0, 0]⟩,
            ⟨0x50, #[0, 0, 0, 0, 0, 0, 9, 0]⟩]
        apart := by decide
        bounded := by decide } }

theorem danglingChain_given :
    ∃ walk, BucketWalk.start danglingChain ⟨0x10, 9⟩ = .ok walk ∧
      Answers (·.next danglingChain) walk [⟨0x48, 5⟩, ⟨0x58, 5⟩, ⟨0x908, 5⟩]
        (.fault (.unmapped 0x900 8)) := by
  let walk : BucketWalk := ⟨⟨0x20, 1, 8, 3⟩, 0, .between⟩
  have start : BucketWalk.start danglingChain ⟨0x10, 9⟩ = .ok walk := rfl
  have isLink : IsLink danglingChain.types 4 3 := ⟨_, rfl, rfl, rfl⟩
  let chains : ℕ → List Object
    | 0 => [⟨0x40, 4⟩]
    | _ => []
  have intact : ∀ i < 2, ∃ link, danglingChain.field (walk.table.bucket i) "next" = .ok link ∧
      Chain danglingChain link (chains i)
    | 0, _ => ⟨⟨0x20, 3⟩, rfl, _, .node rfl (by decide) rfl rfl (.here _), rfl⟩
    | 1, _ => ⟨⟨0x28, 3⟩, rfl, _, .here _, rfl⟩
  have path : Path danglingChain ⟨0x30, 3⟩ [⟨0x50, 4⟩, ⟨0x900, 4⟩] ⟨0x900, 3⟩ :=
    .node rfl (by decide) rfl rfl (.node rfl (by decide) rfl rfl (.here _))
  have inside : 2 < walk.table.count := by decide
  have opened : danglingChain.field (walk.table.bucket 2) "next" = .ok ⟨0x30, 3⟩ := rfl
  obtain ⟨values, held, answers⟩ := bucketWalk_until_broken_link start ⟨⟨0, 3⟩, rfl, isLink⟩
    ⟨⟨0, 3⟩, rfl, isLink⟩ ⟨⟨8, 6⟩, rfl, ⟨0, 5⟩, rfl⟩ inside intact opened path rfl
  have three : List.Forall₂ (fun node value => nodeValue danglingChain node = .ok value)
      [⟨0x40, 4⟩, ⟨0x50, 4⟩, ⟨0x900, 4⟩] values := held
  obtain _ | ⟨h₁, _ | ⟨h₂, _ | ⟨h₃, _ | _⟩⟩⟩ := three
  obtain rfl := Except.ok.inj h₁
  obtain rfl := Except.ok.inj h₂
  obtain rfl := Except.ok.inj h₃
  exact ⟨walk, start, answers⟩

end Postmortem
