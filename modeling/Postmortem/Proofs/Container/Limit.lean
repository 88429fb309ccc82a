import Postmortem.Container.Children
import Postmortem.Proofs.Bucket.Chains
import Postmortem.Proofs.Reading

/-!
# The limit on elements cuts a sequence short, and does nothing else

Two sequences of children over the same elements are compared, one with a limit and one without.
The limit is looked at late, after the element past it was asked for, and between the two calls that
give a pair it is not looked at.  So the two sequences agree pair by pair up to the limit, and all
that the limit decides is what is said there.

* `Elements.call`, `Children.call` — one call, without what it logs.
* `Splits` — so many elements are given, and each splits in two halves.
* `call_cases` — the four things a call can do.
* **`entryAt_asking_congr`** — before the limit, and for ever if fewer elements can be split, a
  limit makes no difference.
* `afterCalls_asking` — once that many elements are split, the sequence asks for the next.
* `budget`, `asked` — how many elements a limit leaves to be asked for, and how many calls ask.
* **`limit_only_truncates`** — all of it together, for the children of a container.
-/

namespace Postmortem

/-- One call of a traversal of elements, without what it logs. -/
def Elements.call (image : Image) (elements : Elements) : Entry Object × Elements :=
  (elements.next image).value

namespace Children

/-- One call of a sequence of children, without what it logs. -/
def call (image : Image) (c : Children) : Entry Child × Children :=
  (c.next image).value

/-- A sequence whose next call asks for an element. -/
def asking (elements : Elements) (kind : Kind) (limit : Option ℕ) (visited : ℕ) : Children :=
  ⟨elements, kind, limit, visited, .between⟩

/-- The next `count` elements are given, and each splits in two halves, when `visited` elements were
given before. -/
def Splits (image : Image) (kind : Kind) (elements : Elements) (visited count : ℕ) : Prop :=
  ∀ k < count, ∃ element pair, entryAt (Elements.call image) elements k = .item element ∧
    halves image kind (visited + k) element = .ok pair

variable {image : Image} {elements : Elements} {kind : Kind} {limit limit' : Option ℕ}
  {visited count : ℕ}

/-! ## One call -/

lemma call_of_closed {c : Children} (h : c.stage = .closed) : c.call image = (.done, c) := by
  rw [call, next, h]
  rfl

lemma afterCalls_of_closed {c : Children} (h : c.stage = .closed) (n : ℕ) :
    afterCalls (call image) c n = c :=
  @afterCalls_of_fixed _ _ (call image) c (congrArg Prod.snd (call_of_closed h)) n

lemma call_of_halfway {c : Children} {second : ChildValue} (h : c.stage = .halfway second) :
    c.call image = (.item (.unlabeled second), { c with stage := .between }) := by
  rw [call, next, h]
  rfl

lemma call_of_between {c : Children} (h : c.stage = .between) (inside : c.limit ≠ some c.visited) :
    c.call image = ({ c with elements := (c.elements.call image).2 }.within image
      (c.elements.call image).1).value := by
  simp only [call, next, h, Elements.call, Logged.value_bind, if_neg inside]

lemma call_at_limit {c : Children} (h : c.stage = .between) (reached : c.limit = some c.visited) :
    c.call image = ({ c with elements := (c.elements.call image).2 }.beyond
      (c.elements.call image).1).value := by
  simp only [call, next, h, Elements.call, Logged.value_bind, if_pos reached]

section Asking

variable (inside : limit ≠ some visited)
include inside

lemma call_of_halves {element : Object} {first second : ChildValue}
    (given : (elements.call image).1 = .item element)
    (split : halves image kind visited element = .ok (first, second)) :
    (asking elements kind limit visited).call image = (.item (.unlabeled first),
      ⟨(elements.call image).2, kind, limit, visited + 1, .halfway second⟩) := by
  rw [call_of_between rfl inside, asking, given, within, Logged.value_pure, Children.split]
  simp only [split]

lemma call_of_no_halves {element : Object} {fault : Fault}
    (given : (elements.call image).1 = .item element)
    (split : halves image kind visited element = .error fault) :
    (asking elements kind limit visited).call image =
      (.fault fault, ⟨(elements.call image).2, kind, limit, visited, .closed⟩) := by
  rw [call_of_between rfl inside, asking, given, within, Logged.value_pure, Children.split]
  simp only [split]
  rfl

lemma call_of_fault {fault : Fault} (given : (elements.call image).1 = .fault fault) :
    (asking elements kind limit visited).call image =
      (.fault fault, ⟨(elements.call image).2, kind, limit, visited, .closed⟩) := by
  rw [call_of_between rfl inside, asking, given]
  rfl

lemma call_of_done (given : (elements.call image).1 = .done) :
    (asking elements kind limit visited).call image =
      (.done, ⟨(elements.call image).2, kind, limit, visited, .closed⟩) := by
  rw [call_of_between rfl inside, asking, given]
  rfl

end Asking

/-- **What a call can do.**  It gives the second half that is pending; or it asks for an element and
gives its first half; or it asks and then closes the sequence; or the sequence is closed. -/
lemma call_cases (image : Image) (c : Children) :
    (c.stage = .closed ∧ c.call image = (.done, c)) ∨
    (∃ second, c.stage = .halfway second ∧
      c.call image = (.item (.unlabeled second), { c with stage := .between })) ∨
    (∃ first second, c.stage = .between ∧ c.limit ≠ some c.visited ∧
      c.call image = (.item (.unlabeled first),
        { c with
          elements := (c.elements.call image).2
          visited := c.visited + 1
          stage := .halfway second })) ∨
    (∃ entry, c.stage = .between ∧ (∀ child, entry ≠ .item child) ∧
      c.call image =
        (entry, { c with elements := (c.elements.call image).2, stage := .closed })) := by
  cases hstage : c.stage with
  | closed => exact .inl ⟨rfl, call_of_closed hstage⟩
  | halfway second => exact .inr (.inl ⟨second, rfl, call_of_halfway hstage⟩)
  | between =>
      right; right
      by_cases reached : c.limit = some c.visited
      · refine .inr ?_
        rw [call_at_limit hstage reached]
        cases (c.elements.call image).1 with
        | item element => exact ⟨.done, rfl, by simp, rfl⟩
        | fault fault => exact ⟨.fault fault, rfl, by simp, rfl⟩
        | done => exact ⟨.done, rfl, by simp, rfl⟩
      · rw [call_of_between hstage reached]
        cases (c.elements.call image).1 with
        | item element =>
            rw [within, Logged.value_pure, split]
            cases halves image c.kind c.visited element with
            | ok pair => exact .inl ⟨pair.1, pair.2, rfl, reached, rfl⟩
            | error fault => exact .inr ⟨.fault fault, rfl, by simp, rfl⟩
        | fault fault => exact .inr ⟨.fault fault, rfl, by simp, rfl⟩
        | done => exact .inr ⟨.done, rfl, by simp, rfl⟩

/-! ## Pair by pair -/

/-- Elements split one after the other. -/
lemma splits_add_iff {later : ℕ} : Splits image kind elements visited (count + later) ↔
    Splits image kind elements visited count ∧
      Splits image kind (afterCalls (Elements.call image) elements count) (visited + count)
        later := by
  constructor
  · intro splits
    refine ⟨fun k hk => splits k (by omega), fun k hk => ?_⟩
    obtain ⟨element, pair, given, split⟩ := splits (count + k) (by omega)
    rw [entryAt_add] at given
    exact ⟨element, pair, given, by rwa [Nat.add_assoc]⟩
  · rintro ⟨first, rest⟩ k hk
    rcases Nat.lt_or_ge k count with before | reached
    · exact first k before
    · obtain ⟨k, rfl⟩ := Nat.exists_eq_add_of_le reached
      obtain ⟨element, pair, given, split⟩ := rest k (by omega)
      rw [← entryAt_add] at given
      exact ⟨element, pair, given, by rwa [Nat.add_assoc] at split⟩

/-- The first of the next elements is given and splits. -/
lemma splits_succ_iff : Splits image kind elements visited (count + 1) ↔
    Splits image kind elements visited 1 ∧
      Splits image kind (elements.call image).2 (visited + 1) count := by
  rw [Nat.add_comm]
  exact splits_add_iff

/-- Two calls give the halves of an element that splits, whatever the limit is. -/
lemma exists_pair (splits : Splits image kind elements visited 1) :
    ∃ first second, ∀ limit, limit ≠ some visited →
      entryAt (call image) (asking elements kind limit visited) 0 = .item (.unlabeled first) ∧
      entryAt (call image) (asking elements kind limit visited) 1 = .item (.unlabeled second) ∧
      ∀ n, afterCalls (call image) (asking elements kind limit visited) (n + 2) =
        afterCalls (call image)
          (asking (elements.call image).2 kind limit (visited + 1)) n := by
  obtain ⟨element, ⟨first, second⟩, given, split⟩ := splits 0 Nat.one_pos
  refine ⟨first, second, fun limit inside => ?_⟩
  have hcall : (asking elements kind limit visited).call image = (.item (.unlabeled first),
      ⟨(elements.call image).2, kind, limit, visited + 1, .halfway second⟩) :=
    call_of_halves inside given split
  refine ⟨congrArg Prod.fst hcall, ?_, fun n => ?_⟩
  · rw [entryAt_succ, hcall]
    rfl
  · rw [afterCalls, hcall]
    rfl

/-- A call that meets no element that splits closes the sequence, whatever the limit is. -/
lemma exists_call_of_stuck (stuck : ¬ Splits image kind elements visited 1) :
    ∃ entry, ∀ limit, limit ≠ some visited →
      (asking elements kind limit visited).call image =
        (entry, ⟨(elements.call image).2, kind, limit, visited, .closed⟩) := by
  cases given : (elements.call image).1 with
  | item element =>
      cases split : halves image kind visited element with
      | ok pair =>
          refine absurd (fun k hk => ?_) stuck
          obtain rfl : k = 0 := by omega
          exact ⟨element, pair, given, split⟩
      | error fault => exact ⟨_, fun limit inside => call_of_no_halves inside given split⟩
  | fault fault => exact ⟨_, fun limit inside => call_of_fault inside given⟩
  | done => exact ⟨_, fun limit inside => call_of_done inside given⟩

lemma exists_last (stuck : ¬ Splits image kind elements visited 1) :
    ∃ entry, ∀ limit, limit ≠ some visited →
      entryAt (call image) (asking elements kind limit visited) 0 = entry ∧
      ∀ n, entryAt (call image) (asking elements kind limit visited) (n + 1) = .done := by
  obtain ⟨entry, hcall⟩ := exists_call_of_stuck stuck
  refine ⟨entry, fun limit inside => ⟨congrArg Prod.fst (hcall limit inside), fun n => ?_⟩⟩
  rw [entryAt_succ, hcall limit inside]
  exact gives_nil_of_fixed (call_of_closed rfl) n

/-- **Before the limit is reached, it makes no difference**, and if fewer elements can be split it
makes none at all.  The induction is on the number of elements before the limit. -/
lemma entryAt_asking_congr {n : ℕ} (inside : ∀ k < count, limit ≠ some (visited + k))
    (inside' : ∀ k < count, limit' ≠ some (visited + k))
    (early : Splits image kind elements visited count → n < 2 * count) :
    entryAt (call image) (asking elements kind limit visited) n =
      entryAt (call image) (asking elements kind limit' visited) n := by
  induction count generalizing elements visited n with
  | zero => exact absurd (early fun k hk => absurd hk (Nat.not_lt_zero k)) (Nat.not_lt_zero n)
  | succ count ih =>
      have here : limit ≠ some visited := inside 0 (Nat.succ_pos count)
      have here' : limit' ≠ some visited := inside' 0 (Nat.succ_pos count)
      by_cases first : Splits image kind elements visited 1
      · obtain ⟨_, _, given⟩ := exists_pair first
        obtain ⟨zero, one, rest⟩ := given limit here
        obtain ⟨zero', one', rest'⟩ := given limit' here'
        match n with
        | 0 => rw [zero, zero']
        | 1 => rw [one, one']
        | n + 2 =>
            have later : Splits image kind (elements.call image).2 (visited + 1) count →
                n < 2 * count := fun splits => by
              have := early (splits_succ_iff.mpr ⟨first, splits⟩)
              omega
            rw [entryAt, entryAt, rest, rest']
            refine ih (fun k hk => ?_) (fun k hk => ?_) later
            · rw [Nat.add_assoc, Nat.add_comm 1]
              exact inside (k + 1) (by omega)
            · rw [Nat.add_assoc, Nat.add_comm 1]
              exact inside' (k + 1) (by omega)
      · obtain ⟨entry, given⟩ := exists_last first
        cases n with
        | zero => rw [(given limit here).1, (given limit' here').1]
        | succ n => rw [(given limit here).2, (given limit' here').2]

/-- Once `count` elements are split, the sequence asks for the one after them. -/
lemma afterCalls_asking (splits : Splits image kind elements visited count)
    (inside : ∀ k < count, limit ≠ some (visited + k)) :
    afterCalls (call image) (asking elements kind limit visited) (2 * count) =
      asking (afterCalls (Elements.call image) elements count) kind limit (visited + count) := by
  induction count generalizing elements visited with
  | zero => rfl
  | succ count ih =>
      obtain ⟨first, rest⟩ := splits_succ_iff.mp splits
      obtain ⟨_, _, given⟩ := exists_pair first
      obtain ⟨-, -, after⟩ := given limit (inside 0 (Nat.succ_pos count))
      rw [Nat.mul_succ, after, ih rest, afterCalls, Nat.add_assoc, Nat.add_comm 1]
      intro k hk
      rw [Nat.add_assoc, Nat.add_comm 1]
      exact inside (k + 1) (by omega)

/-! ## At the limit -/

/-- The call at the limit gives the fault of the element past it, or the end. -/
lemma entryAt_limit (image : Image) (elements : Elements) (kind : Kind) (visited : ℕ) :
    (∀ fault, (elements.call image).1 = .fault fault →
      entryAt (call image) (asking elements kind (some visited) visited) 0 = .fault fault) ∧
    ((∀ fault, (elements.call image).1 ≠ .fault fault) →
      entryAt (call image) (asking elements kind (some visited) visited) 0 = .done) ∧
    ∀ n, entryAt (call image) (asking elements kind (some visited) visited) (n + 1) = .done := by
  have hcall : (asking elements kind (some visited) visited).call image =
      ((asking (elements.call image).2 kind (some visited) visited).beyond
        (elements.call image).1).value := call_at_limit rfl rfl
  have hentry : entryAt (call image) (asking elements kind (some visited) visited) 0 =
      ((asking (elements.call image).2 kind (some visited) visited).beyond
        (elements.call image).1).value.1 := congrArg Prod.fst hcall
  refine ⟨fun fault given => ?_, fun given => ?_, fun n => ?_⟩
  · rw [hentry, given]
    rfl
  · rw [hentry]
    cases h : (elements.call image).1 with
    | fault fault => exact absurd h (given fault)
    | _ => rfl
  · rw [entryAt_succ, hcall]
    refine gives_nil_of_fixed (call_of_closed ?_) n
    cases (elements.call image).1 <;> rfl

/-! ## How much a limit allows -/

/-- Whether the next call asks for an element, as a number of elements. -/
def asks (c : Children) : ℕ :=
  if c.stage = .between then 1 else 0

/-- How many of the next calls ask for an element. -/
def asked (image : Image) : Children → ℕ → ℕ
  | _, 0 => 0
  | c, n + 1 => c.asks + asked image (c.call image).2 n

/-- How many elements a limit leaves to be asked for. -/
def budget (limit : ℕ) (c : Children) : ℕ :=
  match c.stage with
  | .closed => 0
  | .between | .halfway _ => limit + 1 - c.visited

/-- How many entries that are no fault and no end a limit leaves. -/
def allowance (limit : ℕ) (c : Children) : ℕ :=
  match c.stage with
  | .closed => 0
  | .between => 2 * (limit - c.visited)
  | .halfway _ => 2 * (limit - c.visited) + 1

/-- A sequence with a limit has not visited more elements than that. -/
def WithinLimit (limit : ℕ) (c : Children) : Prop :=
  c.limit = some limit ∧ c.visited ≤ limit

variable {c : Children} {bound n : ℕ}

/-- **A call keeps to the limit**, and what it asks for or gives is taken from what is left. -/
lemma withinLimit_call (h : c.WithinLimit bound) :
    (c.call image).2.WithinLimit bound ∧ c.asks + (c.call image).2.budget bound ≤ c.budget bound ∧
      (c.call image).2.allowance bound ≤ c.allowance bound - 1 ∧
      ∀ child, (c.call image).1 = .item child → 0 < c.allowance bound := by
  obtain ⟨hlimit, hvisited⟩ := h
  rcases call_cases image c with ⟨hstage, hcall⟩ | ⟨second, hstage, hcall⟩ |
    ⟨first, second, hstage, inside, hcall⟩ | ⟨entry, hstage, noItem, hcall⟩
  · simp [hcall, hstage, WithinLimit, asks, budget, allowance, hlimit, hvisited]
  · simp [hcall, hstage, WithinLimit, asks, budget, allowance, hlimit, hvisited]
  · have strict : c.visited < bound := by
      refine Nat.lt_of_le_of_ne hvisited fun reached => inside ?_
      rw [hlimit, reached]
    simp only [hcall, hstage, WithinLimit, asks, budget, allowance, hlimit, if_true, true_and]
    exact ⟨strict, by omega, by omega, fun _ _ => by omega⟩
  · simp only [hcall, hstage, WithinLimit, asks, budget, allowance, hlimit, if_true, true_and]
    exact ⟨hvisited, by omega, by omega, fun child hchild => absurd hchild (noItem child)⟩

lemma withinLimit_afterCalls (h : c.WithinLimit bound) (n : ℕ) :
    (afterCalls (call image) c n).WithinLimit bound := by
  induction n generalizing c with
  | zero => exact h
  | succ n ih => exact ih (withinLimit_call h).1

lemma asked_le_budget (h : c.WithinLimit bound) (n : ℕ) : asked image c n ≤ c.budget bound := by
  induction n generalizing c with
  | zero => exact Nat.zero_le _
  | succ n ih =>
      obtain ⟨kept, spent, -⟩ := @withinLimit_call image c bound h
      have later := ih kept
      rw [asked]
      omega

lemma lt_allowance_of_item (h : c.WithinLimit bound) {child : Child}
    (given : entryAt (call image) c n = .item child) : n < c.allowance bound := by
  induction n generalizing c with
  | zero => exact (withinLimit_call h).2.2.2 child given
  | succ n ih =>
      obtain ⟨kept, -, left, -⟩ := @withinLimit_call image c bound h
      have later := ih kept given
      omega

/-- The elements that were asked for are those that the traversal has gone through. -/
lemma elements_afterCalls (image : Image) (c : Children) (n : ℕ) :
    (afterCalls (call image) c n).elements =
      afterCalls (Elements.call image) c.elements (asked image c n) := by
  induction n generalizing c with
  | zero => rfl
  | succ n ih =>
      rw [afterCalls, ih, asked]
      rcases call_cases image c with ⟨hstage, hcall⟩ | ⟨second, hstage, hcall⟩ |
        ⟨first, second, hstage, -, hcall⟩ | ⟨entry, hstage, -, hcall⟩
      · simp [asks, hcall, hstage]
      · simp [asks, hcall, hstage]
      · simp only [asks, hcall, hstage, if_true, Nat.add_comm 1, afterCalls]
      · simp only [asks, hcall, hstage, if_true, Nat.add_comm 1, afterCalls]

/-- Nothing comes after an entry that is a fault or the end. -/
lemma entryAt_of_no_item {m : ℕ} (h : ∀ child, entryAt (call image) c m ≠ .item child)
    (later : m < n) : entryAt (call image) c n = .done := by
  obtain ⟨k, rfl⟩ := Nat.exists_eq_add_of_lt later
  have closed : ((afterCalls (call image) c m).call image).2.stage = .closed := by
    rcases call_cases image (afterCalls (call image) c m) with ⟨hstage, hcall⟩ |
      ⟨second, -, hcall⟩ | ⟨first, second, -, -, hcall⟩ | ⟨entry, -, -, hcall⟩
    · rw [hcall]
      exact hstage
    · exact absurd (congrArg Prod.fst hcall) (h _)
    · exact absurd (congrArg Prod.fst hcall) (h _)
    · rw [hcall]
  rw [Nat.add_assoc, entryAt_add, entryAt_succ]
  exact gives_nil_of_fixed (call_of_closed closed) k

lemma not_lt_of_fault {m : ℕ} {fault fault' : Fault}
    (hm : entryAt (call image) c m = .fault fault)
    (hn : entryAt (call image) c n = .fault fault') : ¬ m < n := by
  intro hlt
  have noItem : ∀ child, entryAt (call image) c m ≠ .item child := by
    intro child given
    rw [hm] at given
    contradiction
  rw [entryAt_of_no_item noItem hlt] at hn
  contradiction

end Children

namespace Container

variable {image : Image} {container : Container}

lemma elements_of_start {walk : BucketWalk} (family : container.classification.family = .bucket)
    (start : BucketWalk.start image container.object = .ok walk) :
    container.elements image = .ok (.buckets walk) := by
  rw [elements, family]
  show BucketWalk.start image container.object >>= _ = _
  rw [start]
  rfl

/-- The elements of a container are those of the walk of its family. -/
lemma elements_cases {elements : Elements} (started : container.elements image = .ok elements) :
    (container.classification.family = .bucket ∧ ∃ walk,
      BucketWalk.start image container.object = .ok walk ∧ elements = .buckets walk) ∨
    (container.classification.family = .grouped ∧ ∃ walk,
      GroupWalk.start image container.object = .ok walk ∧ elements = .groups walk) := by
  rw [Container.elements] at started
  split at started
  next family =>
    obtain ⟨walk, start, started⟩ := bind_eq_ok.mp started
    exact .inl ⟨family, walk, start, (Except.ok.inj started).symm⟩
  next family =>
    obtain ⟨walk, start, started⟩ := bind_eq_ok.mp started
    exact .inr ⟨family, walk, start, (Except.ok.inj started).symm⟩

/-- The children of a container begin where its elements do. -/
lemma children_of_elements {elements : Elements} (started : container.elements image = .ok elements)
    (limit : Option ℕ) : container.children image limit =
      .ok (.asking elements container.classification.kind limit 0) := by
  rw [children, started]
  rfl

end Container

/-- **A limit on elements truncates and does nothing else.**  If the elements end or fail before
`limit` of them are split, the sequence of children with the limit is the one without.  Otherwise
its first `2 * limit` entries are those of the one without; the next is the fault of the element
past the limit, or else the end; and all later ones are the end.  So it gives at most `2 * limit`
children and one fault, asks for at most one element more than the limit, and never visits more. -/
theorem limit_only_truncates {image : Image} {container : Container} {elements : Elements}
    (started : container.elements image = .ok elements) (limit : ℕ) :
    ∃ unlimited limited, container.children image none = .ok unlimited ∧
      container.children image (some limit) = .ok limited ∧
      (¬ Children.Splits image container.classification.kind elements 0 limit →
        ∀ n, entryAt (Children.call image) limited n =
          entryAt (Children.call image) unlimited n) ∧
      (Children.Splits image container.classification.kind elements 0 limit →
        (∀ n < 2 * limit, entryAt (Children.call image) limited n =
          entryAt (Children.call image) unlimited n) ∧
        (∀ fault, entryAt (Elements.call image) elements limit = .fault fault →
          entryAt (Children.call image) limited (2 * limit) = .fault fault) ∧
        ((∀ fault, entryAt (Elements.call image) elements limit ≠ .fault fault) →
          entryAt (Children.call image) limited (2 * limit) = .done) ∧
        ∀ n, 2 * limit < n → entryAt (Children.call image) limited n = .done) ∧
      (∀ n child, entryAt (Children.call image) limited n = .item child → n < 2 * limit) ∧
      (∀ m n fault fault', entryAt (Children.call image) limited m = .fault fault →
        entryAt (Children.call image) limited n = .fault fault' → m = n) ∧
      ∀ n, (afterCalls (Children.call image) limited n).elements =
          afterCalls (Elements.call image) elements (Children.asked image limited n) ∧
        Children.asked image limited n ≤ limit + 1 ∧
        (afterCalls (Children.call image) limited n).visited ≤ limit := by
  have hchildren := container.children_of_elements started
  set kind := container.classification.kind
  have unreached : ∀ k < limit, some limit ≠ some (0 + k) := by
    intro k hk
    rw [Nat.zero_add]
    exact fun h => Nat.ne_of_gt hk (Option.some.inj h)
  have within : (Children.asking elements kind (some limit) 0).WithinLimit limit :=
    ⟨rfl, Nat.zero_le _⟩
  refine ⟨_, _, hchildren none, hchildren (some limit), fun few n => ?_, fun splits => ?_,
    fun n child given => ?_, fun m n fault fault' hm hn => ?_, fun n => ⟨?_, ?_, ?_⟩⟩
  · exact Children.entryAt_asking_congr unreached (fun k _ => nofun) fun splits => absurd splits few
  · have arrived := Children.afterCalls_asking splits unreached
    rw [Nat.zero_add] at arrived
    obtain ⟨unreadable, otherwise, after⟩ := Children.entryAt_limit image
      (afterCalls (Elements.call image) elements limit) kind limit
    refine ⟨fun n hn => ?_, fun fault given => ?_, fun given => ?_, fun n hn => ?_⟩
    · exact Children.entryAt_asking_congr unreached (fun k _ => nofun) fun _ => hn
    · rw [← Nat.add_zero (2 * limit), entryAt_add, arrived]
      exact unreadable fault given
    · rw [← Nat.add_zero (2 * limit), entryAt_add, arrived]
      exact otherwise given
    · obtain ⟨k, rfl⟩ := Nat.exists_eq_add_of_lt hn
      rw [Nat.add_assoc, entryAt_add, arrived]
      exact after k
  · exact Children.lt_allowance_of_item within given
  · exact Nat.le_antisymm (Nat.not_lt.mp (Children.not_lt_of_fault hn hm))
      (Nat.not_lt.mp (Children.not_lt_of_fault hm hn))
  · exact Children.elements_afterCalls image _ n
  · exact Children.asked_le_budget within n
  · exact (Children.withinLimit_afterCalls within n).2

/-- A table of one bucket whose only node is its own successor. -/
def cyclicChain : Image :=
  { threeBuckets with
    memory :=
      { segments :=
          [⟨0x10, #[0, 0, 0, 0, 0, 0, 0, 0x20, 0, 0, 0, 0, 0, 0, 0, 1]⟩,
            ⟨0x20, #[0, 0, 0, 0, 0, 0, 0, 0x40]⟩,
            ⟨0x40, #[0, 0, 0, 0, 0, 0, 0, 0x40]⟩]
        apart := by decide
        bounded := by decide } }

theorem cyclicChain_truncated :
    let container : Container := ⟨⟨0x10, 9⟩, ⟨.bucket, .set, "boost::unordered_set"⟩⟩
    ∃ limited, container.children cyclicChain (some 2) = .ok limited ∧
      (∀ n child, entryAt (Children.call cyclicChain) limited n = .item child → n < 4) ∧
      ∀ n, 4 ≤ n → entryAt (Children.call cyclicChain) limited n = .done := by
  intro container
  let elements : Elements := .buckets ⟨⟨0x20, 1, 8, 1⟩, 0, .between⟩
  have start : BucketWalk.start cyclicChain ⟨0x10, 9⟩ = .ok ⟨⟨0x20, 1, 8, 1⟩, 0, .between⟩ := rfl
  have started : container.elements cyclicChain = .ok elements :=
    Container.elements_of_start rfl start
  have given : entryAt (Elements.call cyclicChain) elements 0 = .item ⟨0x48, 5⟩ ∧
      entryAt (Elements.call cyclicChain) elements 1 = .item ⟨0x48, 5⟩ ∧
      entryAt (Elements.call cyclicChain) elements 2 = .item ⟨0x48, 5⟩ := by
    decide +kernel
  have splits : Children.Splits cyclicChain .set elements 0 2
    | 0, _ => ⟨_, _, given.1, rfl⟩
    | 1, _ => ⟨_, _, given.2.1, rfl⟩
  obtain ⟨_, limited, -, children, -, truncated, items, -⟩ := limit_only_truncates started 2
  obtain ⟨-, -, past, after⟩ := truncated splits
  refine ⟨limited, children, items, fun n hn => ?_⟩
  rcases Nat.eq_or_lt_of_le hn with rfl | hlt
  · exact past fun fault hfault => by simp [given.2.2] at hfault
  · exact after n hlt

end Postmortem
