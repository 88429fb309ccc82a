import Mathlib.Data.List.Forall2
import Mathlib.Tactic.Choose
import Postmortem.Bucket.Walk
import Postmortem.Proofs.Traversal

/-!
# A bucket walk gives the chains of its table

The walk keeps two places at once, the next bucket to open and the link to follow.  Seen from
outside they are one place in one list: the nodes of the chain under way, followed by the chains of
the buckets that are still closed.

* `BucketArray` — the bucket array of a container: where it lies and how many buckets it records.
* `Path` — the nodes met on the way from one link to another, each read without a fault; `Chain`, a
  path to a null link.
* `HoldsValue` — nodes of a type have a value, in the field `t_` of their `buf`.
* **`bucketWalk_gives_chains`** — the walk starts, and gives the value of every node of every chain,
  bucket by bucket and in link order, and nothing else.

A link that leads nowhere leaves no trace: following it is opening the next bucket
(`next_of_null`), which is why empty buckets do not show in the list.
-/

namespace Postmortem

/-! ## Tables and their chains -/

/-- The bucket array of a container, with the objects that lead to it. -/
structure BucketArray (image : Image) (container : Object) where
  table : Object
  array : Object
  sizeField : Object
  pointer : Object
  /-- The address of the first bucket, null if none was ever allocated. -/
  base : ℕ
  /-- The number of buckets that the container records. -/
  size : Word
  bucketType : TypeId
  bucketSize : ℕ
  table_eq : image.field container "table_" = .ok table
  array_eq : image.field table "buckets_" = .ok array
  sizeField_eq : image.field array "size_" = .ok sizeField
  size_eq : image.readIntegral sizeField = .ok size
  pointer_eq : image.field array "buckets" = .ok pointer
  bucketType_eq : image.types.target pointer.type = .ok bucketType
  base_eq : image.readAddress pointer = .ok base
  bucketSize_eq : image.types.byteSize bucketType = .ok bucketSize

def BucketArray.bucket {image : Image} {container : Object} (a : BucketArray image container)
    (i : ℕ) : Object :=
  ⟨a.base + i * a.bucketSize, a.bucketType⟩

/-- Following links from the first one leads through these nodes to the last link. -/
inductive Path (image : Image) : Object → List Object → Object → Prop
  | here (link : Object) : Path image link [] link
  | node {link next last : Object} {address : ℕ} {type : TypeId} {nodes : List Object}
      (read : image.readAddress link = .ok address) (nonnull : address ≠ 0)
      (typed : image.types.target link.type = .ok type)
      (linked : image.field ⟨address, type⟩ "next" = .ok next) (rest : Path image next nodes last) :
      Path image link (⟨address, type⟩ :: nodes) last

/-- Following links from the first one leads through these nodes to a null link. -/
def Chain (image : Image) (link : Object) (nodes : List Object) : Prop :=
  ∃ last, Path image link nodes last ∧ image.readAddress last = .ok 0

/-- A node type has a `buf` with a field `t_`. -/
def HoldsValue (types : TypeTable) (type : TypeId) : Prop :=
  ∃ buf, types.member type "buf" = .ok buf ∧ ∃ value, types.member buf.type "t_" = .ok value

/-- Where a value is held is a question to the type alone. -/
lemma nodeValue_ok {image : Image} {node : Object} (h : HoldsValue image.types node.type) :
    ∃ value, nodeValue image node = .ok value := by
  obtain ⟨buf, hbuf, value, hvalue⟩ := h
  refine ⟨(node.part buf).part value, ?_⟩
  simp [nodeValue, Image.field, Object.part, hbuf, hvalue, bind, Except.bind, pure, Except.pure]

namespace BucketWalk

variable {image : Image} {table : BucketTable} {opened : ℕ}

/-! ## One call -/

/-- A call whose first round settles gives what the round gave. -/
lemma advance_settled {w w' : BucketWalk} {entry : Entry Object}
    (h : w.round image = .settled entry w') : w.advance image = (entry, w') := by
  rw [advance]
  split <;> simp_all

lemma advance_onward {w w' : BucketWalk} (h : w.round image = .onward w') :
    w.advance image = w'.advance image := by
  rw [advance]
  split <;> simp_all

/-- Following a null link is opening the next bucket. -/
lemma next_of_null {link : Object} (h : image.readAddress link = .ok 0) :
    (⟨table, opened, .following link⟩ : BucketWalk).next image =
      (⟨table, opened, .between⟩ : BucketWalk).next image := by
  have hround : (⟨table, opened, .following link⟩ : BucketWalk).round image =
      (⟨table, opened, .between⟩ : BucketWalk).round image := by
    simp [round, pendingNode, followLink, openBucket, finish, h, bind, Except.bind, pure,
      Except.pure]
  show advance _ image = advance _ image
  cases hr : (⟨table, opened, .between⟩ : BucketWalk).round image with
  | settled entry w => rw [advance_settled (hround.trans hr), advance_settled hr]
  | onward w => rw [advance_onward (hround.trans hr), advance_onward hr]

lemma next_of_node {link next value : Object} {address : ℕ} {type : TypeId}
    (here : image.readAddress link = .ok address) (nonnull : address ≠ 0)
    (typed : image.types.target link.type = .ok type)
    (linked : image.field ⟨address, type⟩ "next" = .ok next)
    (held : nodeValue image ⟨address, type⟩ = .ok value) :
    (⟨table, opened, .following link⟩ : BucketWalk).next image =
      (.item value, ⟨table, opened, .following next⟩) := by
  refine advance_settled ?_
  simp [round, pendingNode, followLink, visit, here, nonnull, typed, linked, held, bind,
    Except.bind, pure, Except.pure]

lemma next_of_bucket {link : Object} (h : opened < table.count)
    (linked : image.field (table.bucket opened) "next" = .ok link) :
    (⟨table, opened, .between⟩ : BucketWalk).next image =
      (⟨table, opened + 1, .following link⟩ : BucketWalk).next image := by
  refine advance_onward ?_
  simp [round, pendingNode, openBucket, h, linked, pure, Except.pure]

lemma next_of_all_opened (h : table.count ≤ opened) :
    (⟨table, opened, .between⟩ : BucketWalk).next image = (.done, ⟨table, opened, .ended⟩) := by
  refine advance_settled ?_
  simp [round, pendingNode, openBucket, finish, Nat.not_lt.mpr h, pure, Except.pure]

/-! ## All calls -/

variable {value : Object → Object}

/-- **Along a path the walk gives its nodes**, and then what it gives at the end of the path. -/
lemma answers_path {link last : Object} {nodes rest : List Object} {ending : Ending}
    (path : Path image link nodes last)
    (held : ∀ node ∈ nodes, nodeValue image node = .ok (value node))
    (after : Answers (·.next image) (⟨table, opened, .following last⟩ : BucketWalk) rest ending) :
    Answers (·.next image) (⟨table, opened, .following link⟩ : BucketWalk)
      (nodes.map value ++ rest) ending := by
  induction path with
  | here link => exact after
  | node read nonnull typed linked _ ih =>
      rw [List.forall_mem_cons] at held
      exact answers_cons (next_of_node read nonnull typed linked held.1) (ih held.2 after)

/-- The chains of some buckets are given one after the other, before what comes after them. -/
lemma answers_buckets {chains : ℕ → List Object} {closed : ℕ} {rest : List Object}
    {ending : Ending} (inside : opened + closed ≤ table.count)
    (reached : ∀ i, opened ≤ i → i < opened + closed →
      ∃ link, image.field (table.bucket i) "next" = .ok link ∧ Chain image link (chains i))
    (held : ∀ i, opened ≤ i → i < opened + closed →
      ∀ node ∈ chains i, nodeValue image node = .ok (value node))
    (after : Answers (·.next image) (⟨table, opened + closed, .between⟩ : BucketWalk) rest ending) :
    Answers (·.next image) (⟨table, opened, .between⟩ : BucketWalk)
      (((List.range' opened closed).flatMap chains).map value ++ rest) ending := by
  induction closed generalizing opened with
  | zero => exact after
  | succ closed ih =>
      obtain ⟨link, linked, last, path, null⟩ := reached opened (Nat.le_refl _) (by omega)
      rw [List.range'_succ, List.flatMap_cons, List.map_append, List.append_assoc]
      refine (answers_congr (next_of_bucket (by omega) linked)).mpr ?_
      refine answers_path path (held opened (Nat.le_refl _) (by omega)) ?_
      refine (answers_congr (next_of_null null)).mpr ?_
      refine ih (by omega) (fun i hi hlt => reached i (by omega) (by omega))
        (fun i hi hlt => held i (by omega) (by omega)) ?_
      rwa [Nat.add_assoc, Nat.add_comm 1]

/-- With `closed` buckets still to open, the walk gives their chains one after the other. -/
lemma gives_buckets {chains : ℕ → List Object} {closed : ℕ} (h : opened + closed = table.count)
    (reached : ∀ i < table.count, ∃ link, image.field (table.bucket i) "next" = .ok link ∧
      Chain image link (chains i))
    (held : ∀ i < table.count, ∀ node ∈ chains i, nodeValue image node = .ok (value node)) :
    Gives (·.next image) (⟨table, opened, .between⟩ : BucketWalk)
      (((List.range' opened closed).flatMap chains).map value) := by
  have ended : Answers (·.next image) (⟨table, opened + closed, .between⟩ : BucketWalk) [] .done :=
    answers_done (next_of_all_opened (Nat.le_of_eq h.symm)) rfl
  have answers := answers_buckets (Nat.le_of_eq h) (fun i _ hi => reached i (h ▸ hi))
    (fun i _ hi => held i (h ▸ hi)) ended
  rw [List.append_nil] at answers
  exact gives_iff_answers.mpr answers

end BucketWalk

/-- A walk through the bucket array of a container starts as its table says. -/
lemma start_of_bucketArray {image : Image} {container : Object}
    (a : BucketArray image container) :
    BucketWalk.start image container = .ok (.ofTable
      ⟨a.base, a.bucketType, a.bucketSize, if a.base = 0 then 0 else a.size.toNat⟩) := by
  simp [BucketWalk.start, BucketTable.read, a.table_eq, a.array_eq, a.sizeField_eq, a.size_eq,
    a.pointer_eq, a.bucketType_eq, a.base_eq, a.bucketSize_eq, bind, Except.bind, pure, Except.pure]

/-- **A bucket walk recovers the table.**  It always starts.  If there is an array of buckets, and
links lead from each bucket through a chain of nodes whose types have a value, it gives the values
of all chains, in the order of the buckets; without an array it gives nothing, whatever number of
buckets is recorded. -/
theorem bucketWalk_gives_chains {image : Image} {container : Object}
    (a : BucketArray image container) :
    ∃ walk, BucketWalk.start image container = .ok walk ∧
      (a.base = 0 → Gives (·.next image) walk []) ∧
      (a.base ≠ 0 → ∀ chains : ℕ → List Object,
        (∀ i < a.size.toNat, ∃ link, image.field (a.bucket i) "next" = .ok link ∧
          Chain image link (chains i)) →
        (∀ i < a.size.toNat, ∀ node ∈ chains i, HoldsValue image.types node.type) →
        ∃ values,
          List.Forall₂ (fun node value => nodeValue image node = .ok value)
            ((List.range a.size.toNat).flatMap chains) values ∧
          Gives (·.next image) walk values) := by
  refine ⟨_, start_of_bucketArray a, fun null => ?_, fun nonnull chains reached holds => ?_⟩
  · exact gives_nil (BucketWalk.next_of_all_opened (by simp [null])) rfl
  · have each : ∀ node, (∃ i < a.size.toNat, node ∈ chains i) →
        ∃ value, nodeValue image node = .ok value := by
      rintro node ⟨i, hi, hnode⟩
      exact nodeValue_ok (holds i hi node hnode)
    choose! value hvalue using each
    refine ⟨((List.range a.size.toNat).flatMap chains).map value, ?_, ?_⟩
    · rw [List.forall₂_map_right_iff, List.forall₂_same]
      intro node hnode
      obtain ⟨i, hi, hnode⟩ := List.mem_flatMap.mp hnode
      exact hvalue node ⟨i, List.mem_range.mp hi, hnode⟩
    · rw [List.range_eq_range', if_neg nonnull]
      exact BucketWalk.gives_buckets (by simp) reached fun i hi node hnode =>
        hvalue node ⟨i, hi, hnode⟩

/-- A big-endian table of three buckets: two nodes, none, and one. -/
def threeBuckets : Image where
  order := .big
  memory :=
    { segments :=
        [⟨0x10, #[0, 0, 0, 0, 0, 0, 0, 0x20, 0, 0, 0, 0, 0, 0, 0, 3]⟩,
          ⟨0x20, #[0, 0, 0, 0, 0, 0, 0, 0x40, 0, 0, 0, 0, 0, 0, 0, 0,
            0, 0, 0, 0, 0, 0, 0, 0x60]⟩,
          ⟨0x40, #[0, 0, 0, 0, 0, 0, 0, 0x50]⟩,
          ⟨0x50, #[0, 0, 0, 0, 0, 0, 0, 0]⟩,
          ⟨0x60, #[0, 0, 0, 0, 0, 0, 0, 0]⟩]
      apart := by decide
      bounded := by decide }
  types := ⟨#[some (.plain "unsigned long" 8 .unsigned),
    some (.plain "bucket" 8 (.record [⟨"next", 0, 3, false⟩])),
    some (.plain "bucket *" 8 (.pointer 1)),
    some (.plain "node *" 8 (.pointer 4)),
    some (.plain "node" 12 (.record [⟨"bucket", 0, 1, true⟩, ⟨"buf", 8, 6, false⟩])),
    some (.plain "unsigned int" 4 .unsigned),
    some (.plain "storage" 4 (.record [⟨"t_", 0, 5, false⟩])),
    some (.plain "bucket_array" 16 (.record [⟨"buckets", 0, 2, false⟩, ⟨"size_", 8, 0, false⟩])),
    some (.plain "table" 16 (.record [⟨"buckets_", 0, 7, false⟩])),
    some (.plain "set" 16 (.record [⟨"table_", 0, 8, false⟩]))]⟩

theorem threeBuckets_given :
    ∃ walk, BucketWalk.start threeBuckets ⟨0x10, 9⟩ = .ok walk ∧
      Gives (·.next threeBuckets) walk [⟨0x48, 5⟩, ⟨0x58, 5⟩, ⟨0x68, 5⟩] := by
  let a : BucketArray threeBuckets ⟨0x10, 9⟩ :=
    { table := ⟨0x10, 8⟩, array := ⟨0x10, 7⟩, sizeField := ⟨0x18, 0⟩, pointer := ⟨0x10, 2⟩,
      base := 0x20, size := 3, bucketType := 1, bucketSize := 8, table_eq := rfl, array_eq := rfl,
      sizeField_eq := rfl, size_eq := rfl, pointer_eq := rfl, bucketType_eq := rfl, base_eq := rfl,
      bucketSize_eq := rfl }
  let chains : ℕ → List Object
    | 0 => [⟨0x40, 4⟩, ⟨0x50, 4⟩]
    | 2 => [⟨0x60, 4⟩]
    | _ => []
  have reached : ∀ i < 3, ∃ link, threeBuckets.field (a.bucket i) "next" = .ok link ∧
      Chain threeBuckets link (chains i)
    | 0, _ => ⟨⟨0x20, 3⟩, rfl, _, .node rfl (by decide) rfl rfl (.node rfl (by decide) rfl rfl
        (.here _)), rfl⟩
    | 1, _ => ⟨⟨0x28, 3⟩, rfl, _, .here _, rfl⟩
    | 2, _ => ⟨⟨0x30, 3⟩, rfl, _, .node rfl (by decide) rfl rfl (.here _), rfl⟩
  have holds : HoldsValue threeBuckets.types 4 := ⟨⟨8, 6⟩, rfl, ⟨0, 5⟩, rfl⟩
  obtain ⟨walk, start, -, recovers⟩ := bucketWalk_gives_chains a
  obtain ⟨values, held, gives⟩ := recovers (by decide) chains reached (by
    rintro (_ | _ | _ | i) hi node hnode
    all_goals simp only [chains, List.mem_cons, List.not_mem_nil, or_false] at hnode
    · rcases hnode with rfl | rfl <;> exact holds
    · rw [hnode]; exact holds)
  have three : List.Forall₂ (fun node value => nodeValue threeBuckets node = .ok value)
      [⟨0x40, 4⟩, ⟨0x50, 4⟩, ⟨0x60, 4⟩] values := held
  obtain _ | ⟨h₁, _ | ⟨h₂, _ | ⟨h₃, _ | _⟩⟩⟩ := three
  obtain rfl := Except.ok.inj h₁
  obtain rfl := Except.ok.inj h₂
  obtain rfl := Except.ok.inj h₃
  exact ⟨walk, start, gives⟩

end Postmortem
