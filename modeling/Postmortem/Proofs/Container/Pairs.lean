import Mathlib.Algebra.Group.Even
import Postmortem.Proofs.Bucket.BrokenChains
import Postmortem.Proofs.Container.Limit

/-!
# Children come in pairs

A sequence of children keeps the second half of an element for the call after the one that gave the
first.  Between two elements it therefore stands exactly where its traversal of elements stands, and
everything said of it can be read off that traversal: the elements in order, two children for each,
and the same ending.

* `PairOf`, `NoPair` — the two halves of an element, or why it has none.
* `Pairing` — the pairs made of the elements from one on, and what comes after them.
* `answers_of_pairing` — the sequence gives both halves of each pair, and then that ending.
* `exists_pairing` — any number of elements make pairs, unless an ending comes first.
* `InStep` — the stage goes with the parity of the number of calls.
* **`children_in_pairs`** — all of it together, for the children of a container.
-/

namespace Postmortem

namespace Children

/-- The two halves of the element that is `ordinal`-th in its traversal. -/
inductive PairOf (image : Image) (ordinal : ℕ) (element : Object) :
    Kind → ChildValue × ChildValue → Prop
  | set : PairOf image ordinal element .set (.ordinal ordinal, .object element)
  | map {first second : Object} (key : image.field element "first" = .ok first)
      (value : image.field element "second" = .ok second) :
      PairOf image ordinal element .map (.object first, .object second)

/-- The fault for which an element has no two halves. -/
inductive NoPair (image : Image) (element : Object) : Kind → Fault → Prop
  | first {fault : Fault} (key : image.field element "first" = .error fault) :
      NoPair image element .map fault
  | second {first : Object} {fault : Fault} (key : image.field element "first" = .ok first)
      (value : image.field element "second" = .error fault) : NoPair image element .map fault

/-- The elements of a traversal, the first of them being `ordinal`-th, make these pairs, and after
the pairs comes this ending. -/
inductive Pairing (image : Image) (kind : Kind) :
    ℕ → Elements → List (ChildValue × ChildValue) → Ending → Prop
  | more {ordinal : ℕ} {elements : Elements} : Pairing image kind ordinal elements [] .more
  | done {ordinal : ℕ} {elements : Elements} (ended : (elements.call image).1 = .done) :
      Pairing image kind ordinal elements [] .done
  | fault {ordinal : ℕ} {elements : Elements} {fault : Fault}
      (failed : (elements.call image).1 = .fault fault) :
      Pairing image kind ordinal elements [] (.fault fault)
  | noPair {ordinal : ℕ} {elements : Elements} {element : Object} {fault : Fault}
      (given : (elements.call image).1 = .item element)
      (lacks : NoPair image element kind fault) :
      Pairing image kind ordinal elements [] (.fault fault)
  | pair {ordinal : ℕ} {elements : Elements} {element : Object} {pair : ChildValue × ChildValue}
      {pairs : List (ChildValue × ChildValue)} {ending : Ending}
      (given : (elements.call image).1 = .item element)
      (made : PairOf image ordinal element kind pair)
      (rest : Pairing image kind (ordinal + 1) (elements.call image).2 pairs ending) :
      Pairing image kind ordinal elements (pair :: pairs) ending

/-- The children of some pairs, two for each. -/
def ofPairs (pairs : List (ChildValue × ChildValue)) : List Child :=
  pairs.flatMap fun pair => [.unlabeled pair.1, .unlabeled pair.2]

variable {image : Image} {elements : Elements} {kind : Kind} {ordinal : ℕ} {element : Object}
  {pairs : List (ChildValue × ChildValue)} {ending : Ending}

lemma length_ofPairs (pairs : List (ChildValue × ChildValue)) :
    (ofPairs pairs).length = 2 * pairs.length := by
  simp [ofPairs, Nat.mul_comm]

/-! ## One element -/

lemma PairOf.halves_eq {pair : ChildValue × ChildValue}
    (made : PairOf image ordinal element kind pair) :
    halves image kind ordinal element = .ok pair := by
  cases made with
  | set => rfl
  | map key value =>
      rw [halves, key, ok_bind, value]
      rfl

lemma NoPair.halves_eq {fault : Fault} (lacks : NoPair image element kind fault) :
    halves image kind ordinal element = .error fault := by
  cases lacks with
  | first key =>
      rw [halves, key]
      rfl
  | second key value =>
      rw [halves, key, ok_bind, value]
      rfl

/-- An element has two halves, or a fault for which it has none. -/
lemma pairOf_or_noPair (image : Image) (kind : Kind) (ordinal : ℕ) (element : Object) :
    (∃ pair, PairOf image ordinal element kind pair) ∨
      ∃ fault, NoPair image element kind fault := by
  cases kind with
  | set => exact .inl ⟨_, .set⟩
  | map =>
      cases key : image.field element "first" with
      | error fault => exact .inr ⟨fault, .first key⟩
      | ok first =>
          cases value : image.field element "second" with
          | error fault => exact .inr ⟨fault, .second key value⟩
          | ok second => exact .inl ⟨_, .map key value⟩

/-! ## All elements -/

/-- **The children of a traversal are its elements in pairs.** -/
lemma answers_of_pairing (pairing : Pairing image kind ordinal elements pairs ending) :
    Answers (call image) (asking elements kind none ordinal) (ofPairs pairs) ending := by
  have unlimited (n : ℕ) : none ≠ some n := nofun
  induction pairing with
  | more => exact answers_more _ _
  | done ended => exact answers_done (call_of_done (unlimited _) ended) (call_of_closed rfl)
  | fault failed => exact answers_fault (call_of_fault (unlimited _) failed) (call_of_closed rfl)
  | noPair given lacks =>
      exact answers_fault (call_of_no_halves (unlimited _) given lacks.halves_eq)
        (call_of_closed rfl)
  | pair given made _ ih =>
      refine answers_cons (call_of_halves (unlimited _) given made.halves_eq) ?_
      exact answers_cons (call_of_halfway rfl) ih

/-- As many elements as one likes make pairs, unless an ending comes first. -/
lemma exists_pairing (image : Image) (kind : Kind) (ordinal : ℕ) (elements : Elements) (n : ℕ) :
    ∃ pairs ending, Pairing image kind ordinal elements pairs ending ∧
      (ending = .more → n ≤ pairs.length) := by
  induction n generalizing ordinal elements with
  | zero => exact ⟨[], .more, .more, fun _ => Nat.le_refl _⟩
  | succ n ih =>
      cases given : (elements.call image).1 with
      | done => exact ⟨[], .done, .done given, nofun⟩
      | fault fault => exact ⟨[], .fault fault, .fault given, nofun⟩
      | item element =>
          rcases pairOf_or_noPair image kind ordinal element with ⟨pair, made⟩ | ⟨fault, lacks⟩
          · obtain ⟨pairs, ending, rest, reached⟩ := ih (ordinal + 1) (elements.call image).2
            exact ⟨pair :: pairs, ending, .pair given made rest,
              fun more => Nat.succ_le_succ (reached more)⟩
          · exact ⟨[], .fault fault, .noPair given lacks, nofun⟩

/-- As much of a sequence as one likes is told by some pairs and what comes after them. -/
lemma exists_answers (image : Image) (kind : Kind) (ordinal : ℕ) (elements : Elements) (n : ℕ) :
    ∃ pairs ending,
      Answers (call image) (asking elements kind none ordinal) (ofPairs pairs) ending ∧
      (ending = .more → n ≤ pairs.length) := by
  obtain ⟨pairs, ending, pairing, reached⟩ := exists_pairing image kind ordinal elements n
  exact ⟨pairs, ending, answers_of_pairing pairing, reached⟩

/-- A fault never comes between the two halves of a pair. -/
lemma even_of_fault {n : ℕ} {fault : Fault}
    (failed : entryAt (call image) (asking elements kind none ordinal) n = .fault fault) :
    Even n := by
  obtain ⟨pairs, ending, answers, reached⟩ := exists_answers image kind ordinal elements (n + 1)
  have noItem : ¬ n < (ofPairs pairs).length := by
    intro inside
    obtain ⟨child, given⟩ := answers.item_of_lt inside
    simp [given] at failed
  rw [length_ofPairs] at noItem
  by_cases ends : ending = .more
  · have := reached ends
    omega
  · have notLater : ¬ (ofPairs pairs).length < n := by
      intro later
      simp [answers.done_of_gt ends later] at failed
    rw [length_ofPairs] at notLater
    exact ⟨pairs.length, by omega⟩

/-- A key is given with its value. -/
lemma second_of_first {k : ℕ} {first : Child}
    (given : entryAt (call image) (asking elements kind none ordinal) (2 * k) = .item first) :
    ∃ second, entryAt (call image) (asking elements kind none ordinal) (2 * k + 1) =
      .item second := by
  obtain ⟨pairs, ending, answers, reached⟩ := exists_answers image kind ordinal elements (k + 1)
  refine answers.item_of_lt ?_
  rw [length_ofPairs]
  by_cases ends : ending = .more
  · have := reached ends
    omega
  · have inside := (answers.item_iff ends).mp ⟨first, given⟩
    rw [length_ofPairs] at inside
    omega

/-! ## The number of visited elements -/

/-- After an even number of calls no second half is pending; after an odd number one is, or the
sequence is closed. -/
def InStep (n : ℕ) (c : Children) : Prop :=
  (∀ second, c.stage = .halfway second → n % 2 = 1) ∧ (c.stage = .between → n % 2 = 0)

/-- **Every call keeps step**, and counts an element if it gives a first half. -/
lemma inStep_call {n : ℕ} {c : Children} (h : c.InStep n) :
    (c.call image).2.InStep (n + 1) ∧ (c.call image).2.visited =
      c.visited + if n % 2 = 0 && (c.call image).1.isItem then 1 else 0 := by
  obtain ⟨odd, even⟩ := h
  rcases call_cases image c with ⟨hstage, hcall⟩ | ⟨second, hstage, hcall⟩ |
    ⟨first, second, hstage, -, hcall⟩ | ⟨entry, hstage, noItem, hcall⟩
  · simp [hcall, InStep, hstage, Entry.isItem]
  · have := odd second hstage
    simp only [hcall, InStep, Entry.isItem]
    refine ⟨⟨nofun, fun _ => by omega⟩, ?_⟩
    simp [this]
  · have := even hstage
    simp only [hcall, InStep, Entry.isItem]
    refine ⟨⟨fun _ _ => by omega, nofun⟩, ?_⟩
    simp [this]
  · have stops : entry.isItem = false := by
      cases entry with
      | item child => exact absurd rfl (noItem child)
      | fault fault => rfl
      | done => rfl
    simp [hcall, InStep, stops]

lemma inStep_afterCalls {c : Children} (h : c.stage = .between) (n : ℕ) :
    (afterCalls (call image) c n).InStep n := by
  induction n with
  | zero => simp [afterCalls, InStep, h]
  | succ n ih =>
      rw [afterCalls_succ]
      exact (inStep_call ih).1

/-- The number of visited elements is that of the first halves given. -/
lemma visited_afterCalls {c : Children} (h : c.stage = .between) (n : ℕ) :
    (afterCalls (call image) c n).visited = c.visited +
      (List.range n).countP fun i => i % 2 = 0 && (entryAt (call image) c i).isItem := by
  induction n with
  | zero => rfl
  | succ n ih =>
      rw [afterCalls_succ, (inStep_call (inStep_afterCalls h n)).2, ih, List.range_succ,
        List.countP_append, List.countP_singleton, Nat.add_assoc, entryAt]

end Children

/-- **Children come in complete pairs that follow the elements.**  Without a limit, the sequence
gives the two halves of each element, in the order of the elements: the ordinal and the element in a
set, the fields `first` and `second` in a map.  It goes on as long as elements come and have both
halves; then it ends as the elements do, or with the fault of the half that is missing.  A fault
comes once, with an even number of children before it, and after it or the end there is nothing, so
no first half is left without its second.  At any time the number of visited elements is that of the
first halves given. -/
theorem children_in_pairs {image : Image} {container : Container} {elements : Elements}
    (started : container.elements image = .ok elements) :
    ∃ children, container.children image none = .ok children ∧
      (∀ pairs ending,
        Children.Pairing image container.classification.kind 0 elements pairs ending →
        Answers (Children.call image) children (Children.ofPairs pairs) ending) ∧
      (∀ n, ∃ pairs ending,
        Children.Pairing image container.classification.kind 0 elements pairs ending ∧
        (ending = .more → n ≤ pairs.length)) ∧
      (∀ n fault, entryAt (Children.call image) children n = .fault fault →
        Even n ∧ (∀ k < n, ∃ child, entryAt (Children.call image) children k = .item child) ∧
        ∀ k, n < k → entryAt (Children.call image) children k = .done) ∧
      (∀ n, entryAt (Children.call image) children n = .done →
        ∀ k, n ≤ k → entryAt (Children.call image) children k = .done) ∧
      (∀ k first, entryAt (Children.call image) children (2 * k) = .item first →
        ∃ second, entryAt (Children.call image) children (2 * k + 1) = .item second) ∧
      ∀ n, (afterCalls (Children.call image) children n).visited =
        (List.range n).countP fun i =>
          i % 2 = 0 && (entryAt (Children.call image) children i).isItem := by
  refine ⟨_, Container.children_of_elements started none,
    fun pairs ending => Children.answers_of_pairing, Children.exists_pairing image _ 0 elements,
    fun n fault failed => ⟨?_, ?_, ?_⟩, ?_, fun k first => Children.second_of_first, fun n => ?_⟩
  · exact Children.even_of_fault failed
  · intro k hk
    by_contra noItem
    push Not at noItem
    simp [Children.entryAt_of_no_item noItem hk] at failed
  · exact fun k hk => Children.entryAt_of_no_item (by simp [failed]) hk
  · intro n ended k hk
    rcases Nat.eq_or_lt_of_le hk with rfl | hlt
    · exact ended
    · exact Children.entryAt_of_no_item (by simp [ended]) hlt
  · exact (Children.visited_afterCalls rfl n).trans (Nat.zero_add _)

theorem danglingChain_in_pairs :
    let container : Container := ⟨⟨0x10, 9⟩, ⟨.bucket, .set, "boost::unordered_set"⟩⟩
    ∃ children, container.children danglingChain none = .ok children ∧
      Answers (Children.call danglingChain) children
        [.unlabeled (.ordinal 0), .unlabeled (.object ⟨0x48, 5⟩), .unlabeled (.ordinal 1),
          .unlabeled (.object ⟨0x58, 5⟩), .unlabeled (.ordinal 2),
          .unlabeled (.object ⟨0x908, 5⟩)] (.fault (.unmapped 0x900 8)) ∧
      (afterCalls (Children.call danglingChain) children 5).visited = 3 := by
  intro container
  let elements : Elements := .buckets ⟨⟨0x20, 1, 8, 3⟩, 0, .between⟩
  have start : BucketWalk.start danglingChain ⟨0x10, 9⟩ = .ok ⟨⟨0x20, 1, 8, 3⟩, 0, .between⟩ := rfl
  have started : container.elements danglingChain = .ok elements :=
    Container.elements_of_start rfl start
  have given : entryAt (Elements.call danglingChain) elements 0 = .item ⟨0x48, 5⟩ ∧
      entryAt (Elements.call danglingChain) elements 1 = .item ⟨0x58, 5⟩ ∧
      entryAt (Elements.call danglingChain) elements 2 = .item ⟨0x908, 5⟩ ∧
      entryAt (Elements.call danglingChain) elements 3 = .fault (.unmapped 0x900 8) := by
    decide +kernel
  have pairing : Children.Pairing danglingChain .set 0 elements
      [(.ordinal 0, .object ⟨0x48, 5⟩), (.ordinal 1, .object ⟨0x58, 5⟩),
        (.ordinal 2, .object ⟨0x908, 5⟩)] (.fault (.unmapped 0x900 8)) :=
    .pair given.1 .set (.pair given.2.1 .set (.pair given.2.2.1 .set (.fault given.2.2.2)))
  obtain ⟨children, hchildren, pairs, -, -, -, -, visited⟩ := children_in_pairs started
  have answers := pairs _ _ pairing
  refine ⟨children, hchildren, answers, ?_⟩
  rw [visited 5]
  have item (i : ℕ) (hi : i < 6) : (entryAt (Children.call danglingChain) children i).isItem := by
    obtain ⟨child, given⟩ := answers.item_of_lt hi
    rw [given]
    rfl
  simp [List.range_succ, item 0, item 2, item 4]

end Postmortem
