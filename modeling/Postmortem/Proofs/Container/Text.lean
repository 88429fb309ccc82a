import Postmortem.Proofs.Container.Bounds
import Postmortem.Proofs.Growth.Traversals

/-!
# The text of a container is its summary with all pairs, or the first fault

The pairs of a container are written one after the other, while its children are still being asked
for.  So a child that is not given and one that has no text stop the writing alike, and what comes of
it is told by one sequence: that of the texts of the children.

* `Children.textAt` — what a call comes to: the text of the child that it gives, the fault of the
  call or of that text, or the end.
* `Children.PairTexts`, `Children.FirstFault` — the texts are those of certain pairs; or a fault is
  the first among them.
* `Children.between_cases` — a sequence between two elements closes, or gives both halves of the
  next, under any limit.
* **`Children.renderPairs_cases`** — pairs are written up to the end or up to the first fault.  How
  many there may be at most has to be known for that, and is if there is an end (`lt_bound_of_item`).
* **`render_eq_summary_and_pairs`** — all of it together, for a container.
-/

namespace Postmortem

/-- An entry with its value read on. -/
def Entry.read {α β : Type} (f : α → Reading β) : Entry α → Entry β
  | .item a => .ofReading (f a)
  | .fault failed => .fault failed
  | .done => .done

namespace Children

/-- The text of the child that a call gives, or the first fault in getting it. -/
def textAt (image : Image) (c : Children) (n : ℕ) : Entry String :=
  (entryAt (call image) c n).read image.renderChild

/-- The texts of the children are those of these pairs. -/
def PairTexts (image : Image) (c : Children) (pairs : List (String × String)) : Prop :=
  ∀ n, c.textAt image n = ((pairs.flatMap fun pair => [pair.1, pair.2])[n]?).elim .done .item

/-- The children before some call have texts, and that call comes to this fault. -/
def FirstFault (image : Image) (c : Children) (fault : Fault) : Prop :=
  ∃ n, c.textAt image n = .fault fault ∧ ∀ k < n, ∃ text, c.textAt image k = .item text

variable {image : Image} {c c₁ c' : Children} {fault : Fault} {pairs : List (String × String)}

/-- Where all children have texts, none comes to a fault. -/
lemma PairTexts.not_fault (texts : c.PairTexts image pairs) (n : ℕ) :
    c.textAt image n ≠ .fault fault := by
  rw [texts n]
  cases (pairs.flatMap fun pair => [pair.1, pair.2])[n]? <;> simp

/-- There is only one first fault. -/
lemma FirstFault.unique {fault' : Fault} (first : c.FirstFault image fault)
    (first' : c.FirstFault image fault') : fault = fault' := by
  obtain ⟨n, failed, before⟩ := first
  obtain ⟨n', failed', before'⟩ := first'
  rcases Nat.lt_trichotomy n n' with lt | rfl | gt
  · obtain ⟨text, given⟩ := before' n lt
    cases failed.symm.trans given
  · exact Entry.fault.inj (failed.symm.trans failed')
  · obtain ⟨text, given⟩ := before n' gt
    cases failed'.symm.trans given

/-! ## One call or two -/

lemma textAt_of_entry {n : ℕ} {entry : Entry Child} (given : entryAt (call image) c n = entry) :
    c.textAt image n = entry.read image.renderChild := by
  rw [textAt, given]

/-- **Between two elements** a call closes the sequence, or it gives the first half of the next, and
the call after it gives the second. -/
lemma between_cases (image : Image) (between : c.stage = .between) :
    (∃ entry c', c.call image = (entry, c') ∧ (∀ child, entry ≠ .item child) ∧
      c'.stage = .closed ∧ c'.visited = c.visited) ∨
    ∃ first second c₁ c', c.call image = (.item first, c₁) ∧ c₁.call image = (.item second, c') ∧
      c'.stage = .between ∧ c'.visited = c.visited + 1 := by
  rcases call_cases image c with ⟨closed, -⟩ | ⟨second, halfway, -⟩ |
    ⟨first, second, -, -, hcall⟩ | ⟨entry, -, noItem, hcall⟩
  · simp [between] at closed
  · simp [between] at halfway
  · exact .inr ⟨_, _, _, _, hcall, call_of_halfway rfl, rfl, rfl⟩
  · exact .inl ⟨entry, _, hcall, noItem, rfl, rfl⟩

/-- A key is given with its value, under any limit. -/
lemma second_of_first_half (between : c.stage = .between) {k : ℕ} {first : Child}
    (given : entryAt (call image) c (2 * k) = .item first) :
    ∃ second, entryAt (call image) c (2 * k + 1) = .item second := by
  have inStep := @inStep_afterCalls image c between (2 * k)
  rw [entryAt] at given
  rw [entryAt, afterCalls_succ]
  cases stage : (afterCalls (call image) c (2 * k)).stage with
  | closed =>
      rw [call_of_closed stage] at given
      cases given
  | halfway second =>
      have := inStep.1 second stage
      omega
  | between =>
      rcases between_cases image stage with ⟨entry, c', hcall, noItem, -⟩ |
        ⟨first, second, c₁, c', one, two, -⟩
      · rw [hcall] at given
        exact absurd given (noItem first)
      · rw [one]
        exact ⟨second, congrArg Prod.fst two⟩

section Last

variable {entry : Entry Child} (last : c.call image = (entry, c')) (closed : c'.stage = .closed)
include last closed

lemma afterCalls_of_last (n : ℕ) : afterCalls (call image) c (n + 1) = c' := by
  rw [afterCalls, last]
  exact afterCalls_of_closed closed n

lemma textAt_of_last : c.textAt image 0 = entry.read image.renderChild ∧
    ∀ n, c.textAt image (n + 1) = .done := by
  refine ⟨textAt_of_entry (congrArg Prod.fst last), fun n => ?_⟩
  rw [textAt, entryAt, afterCalls_of_last last closed, call_of_closed closed]
  rfl

end Last

section Pair

variable {first second : Child} (one : c.call image = (.item first, c₁))
  (two : c₁.call image = (.item second, c'))
include one two

lemma afterCalls_of_pair (n : ℕ) :
    afterCalls (call image) c (n + 2) = afterCalls (call image) c' n := by
  rw [afterCalls, afterCalls, one, two]

lemma textAt_of_pair : c.textAt image 0 = .ofReading (image.renderChild first) ∧
    c.textAt image 1 = .ofReading (image.renderChild second) ∧
    ∀ n, c.textAt image (n + 2) = c'.textAt image n := by
  have given : entryAt (call image) c 0 = .item first := congrArg Prod.fst one
  have given' : entryAt (call image) c 1 = .item second := by
    rw [entryAt_succ, one]
    exact congrArg Prod.fst two
  refine ⟨textAt_of_entry given, textAt_of_entry given', fun n => ?_⟩
  rw [textAt, textAt, entryAt, entryAt, afterCalls_of_pair one two]

/-- A pair is written before what comes after it is asked for. -/
lemma result_renderPairs_of_pair (bound : ℕ) :
    (renderPairs image (bound + 1) c).result =
      image.renderChild first >>= fun key => image.renderChild second >>= fun value =>
        (renderPairs image bound c').result >>= fun pairs =>
          pure (pairText key value :: pairs) := by
  rw [result_renderPairs_succ, one, readOn, two]
  rfl

end Pair

/-! ## All pairs -/

section Cons

variable {key value : String} (zero : c.textAt image 0 = .item key)
  (one : c.textAt image 1 = .item value)
  (later : ∀ n, c.textAt image (n + 2) = c'.textAt image n)
include zero one later

lemma PairTexts.cons (rest : c'.PairTexts image pairs) :
    c.PairTexts image ((key, value) :: pairs)
  | 0 => zero
  | 1 => one
  | n + 2 => (later n).trans (rest n)

lemma FirstFault.cons (rest : c'.FirstFault image fault) : c.FirstFault image fault := by
  obtain ⟨n, failed, before⟩ := rest
  refine ⟨n + 2, (later n).trans failed, fun k hk => ?_⟩
  match k with
  | 0 => exact ⟨key, zero⟩
  | 1 => exact ⟨value, one⟩
  | k + 2 =>
      obtain ⟨text, given⟩ := before k (by omega)
      exact ⟨text, (later k).trans given⟩

end Cons

/-- **Pairs are written up to the end, or up to the first fault.**  The induction is on the number of
pairs there may be. -/
lemma renderPairs_cases {bound : ℕ} (between : c.stage = .between)
    (bounded : ∀ k child, entryAt (call image) c (2 * k) = .item child → k < bound) :
    (∃ pairs, c.PairTexts image pairs ∧
      (∀ n, 2 * pairs.length ≤ n →
        (afterCalls (call image) c n).visited = c.visited + pairs.length) ∧
      (renderPairs image (bound + 1) c).result =
        .ok (pairs.map fun pair => pairText pair.1 pair.2)) ∨
    ∃ fault, c.FirstFault image fault ∧
      (renderPairs image (bound + 1) c).result = .error fault := by
  induction bound using Nat.strong_induction_on generalizing c with
  | _ bound ih =>
  rcases between_cases image between with ⟨entry, c', last, noItem, closed, visited⟩ |
    ⟨first, second, c₁, c', one, two, between', visited⟩
  · obtain ⟨zero, later⟩ := textAt_of_last last closed
    have written := result_renderPairs_succ image bound c
    rw [last] at written
    cases entry with
    | item child => exact absurd rfl (noItem child)
    | fault fault => exact .inr ⟨fault, ⟨0, zero, nofun⟩, written⟩
    | done =>
        refine .inl ⟨[], fun n => ?_, fun n _ => ?_, written⟩
        · cases n with
          | zero => exact zero
          | succ n => exact later n
        · cases n with
          | zero => rfl
          | succ n => rw [afterCalls_of_last last closed, visited]; rfl
  · obtain ⟨zero, next, later⟩ := textAt_of_pair one two
    have written := result_renderPairs_of_pair one two bound
    cases hkey : image.renderChild first with
    | error fault =>
        rw [hkey] at zero written
        exact .inr ⟨fault, ⟨0, zero, nofun⟩, written⟩
    | ok key =>
    cases hvalue : image.renderChild second with
    | error fault =>
        rw [hkey] at zero written
        rw [hvalue] at next written
        refine .inr ⟨fault, ⟨1, next, fun k hk => ?_⟩, written⟩
        obtain rfl : k = 0 := by omega
        exact ⟨key, zero⟩
    | ok value =>
    rw [hkey] at zero written
    rw [hvalue] at next written
    -- the rest of the sequence has one pair less
    have some_left := bounded 0 first (congrArg Prod.fst one)
    obtain ⟨rest, rfl⟩ := Nat.exists_eq_succ_of_ne_zero (Nat.ne_of_gt some_left)
    have bounded' : ∀ k child, entryAt (call image) c' (2 * k) = .item child → k < rest := by
      intro k child given
      rw [entryAt, ← afterCalls_of_pair one two] at given
      exact Nat.lt_of_succ_lt_succ (bounded (k + 1) child given)
    rcases ih rest (Nat.lt_succ_self rest) between' bounded' with
      ⟨pairs, texts, counted, rest_eq⟩ | ⟨fault, failed, rest_eq⟩
    · rw [rest_eq] at written
      refine .inl ⟨(key, value) :: pairs, .cons zero next later texts, fun n hn => ?_, written⟩
      rw [List.length_cons] at hn ⊢
      obtain ⟨n, rfl⟩ := Nat.exists_eq_add_of_le' (show 2 ≤ n by omega)
      rw [afterCalls_of_pair one two, counted n (by omega), visited]
      omega
    · rw [rest_eq] at written
      exact .inr ⟨fault, .cons zero next later failed, written⟩

end Children

/-! ## Containers -/

namespace Container

variable {image : Image} {c : Container} {limit : Option ℕ} {children : Children}

lemma between_of_children (begun : c.children image limit = .ok children) :
    children.stage = .between ∧ children.visited = 0 := by
  obtain ⟨elements, -, begun⟩ := bind_eq_ok.mp begun
  obtain rfl := Except.ok.inj begun
  exact ⟨rfl, rfl⟩

lemma result_render (c : Container) (image : Image) (limit : Option ℕ) :
    (c.render image limit).result =
      c.summary image >>= fun summary => c.children image limit >>= fun children =>
        (Children.renderPairs image (children.bound image + 1) children).result >>= fun pairs =>
          pure (summary ++ " = " ++ braced pairs) := by
  simp only [render, Inspection.result_bind, Inspection.result_reading]
  rfl

/-- **What can become of a container's text.**  There is no summary, or there are no children, or one
of them comes to a fault; or there are all pairs. -/
lemma render_cases (finite : ∀ children, c.children image limit = .ok children →
      ∃ n, entryAt (Children.call image) children n = .done) :
    (∃ fault, c.summary image = .error fault ∧ (c.render image limit).result = .error fault) ∨
    ∃ summary, c.summary image = .ok summary ∧
      ((∃ fault, c.children image limit = .error fault ∧
        (c.render image limit).result = .error fault) ∨
      ∃ children, c.children image limit = .ok children ∧
        ((∃ fault, children.FirstFault image fault ∧
          (c.render image limit).result = .error fault) ∨
        ∃ pairs, children.PairTexts image pairs ∧
          (∀ n, 2 * pairs.length ≤ n →
            (afterCalls (Children.call image) children n).visited = pairs.length) ∧
          (c.render image limit).result =
            .ok (summary ++ " = " ++ braced (pairs.map fun pair => pairText pair.1 pair.2)))) := by
  rw [result_render]
  cases summarized : c.summary image with
  | error fault => exact .inl ⟨fault, rfl, rfl⟩
  | ok summary =>
  refine .inr ⟨summary, rfl, ?_⟩
  rw [ok_bind]
  cases begun : c.children image limit with
  | error fault => exact .inl ⟨fault, rfl, rfl⟩
  | ok children =>
  refine .inr ⟨children, rfl, ?_⟩
  obtain ⟨between, none_visited⟩ := between_of_children begun
  rw [ok_bind]
  rcases Children.renderPairs_cases between fun k child given =>
      Children.lt_bound_of_item begun (finite children begun) given with
    ⟨pairs, texts, visited, written⟩ | ⟨fault, failed, stopped⟩
  · rw [written]
    simp only [none_visited, Nat.zero_add] at visited
    exact .inr ⟨pairs, texts, visited, rfl⟩
  · rw [stopped]
    exact .inl ⟨fault, failed, rfl⟩

end Container

/-- **The text of a container is its summary with all pairs, or the first fault.**  The sequence of
its children is finite.  Then there is a text if and only if there are a summary and the children,
and no call for a child comes to a fault, of its own or in writing the child, the call past the limit
included.  The text is the summary with the pairs that consecutive children make, in their order and
as many as elements were visited.  Otherwise the first of these faults is what comes of it: that of
the summary, that of the children, and then call by call.  No key is ever given without a value. -/
theorem render_eq_summary_and_pairs (c : Container) (image : Image) (limit : Option ℕ)
    (finite : ∀ children, c.children image limit = .ok children →
      ∃ n, entryAt (Children.call image) children n = .done) :
    ((∃ text, (c.render image limit).result = .ok text) ↔
      (∃ summary, c.summary image = .ok summary) ∧
      ∃ children, c.children image limit = .ok children ∧
        ∀ n fault, children.textAt image n ≠ .fault fault) ∧
    (∀ text, (c.render image limit).result = .ok text →
      ∃ summary children pairs, c.summary image = .ok summary ∧
        c.children image limit = .ok children ∧ children.PairTexts image pairs ∧
        (∀ n, 2 * pairs.length ≤ n →
          (afterCalls (Children.call image) children n).visited = pairs.length) ∧
        text = summary ++ " = \x7b" ++
          ", ".intercalate (pairs.map fun pair => "[" ++ pair.1 ++ "] = " ++ pair.2) ++ "\x7d") ∧
    (∀ fault, (c.render image limit).result = .error fault ↔
      c.summary image = .error fault ∨
      (∃ summary, c.summary image = .ok summary) ∧
        (c.children image limit = .error fault ∨
        ∃ children, c.children image limit = .ok children ∧ children.FirstFault image fault)) ∧
    ∀ children, c.children image limit = .ok children → ∀ k first,
      entryAt (Children.call image) children (2 * k) = .item first →
      ∃ second, entryAt (Children.call image) children (2 * k + 1) = .item second := by
  have keyed (children : Children) (begun : c.children image limit = .ok children) (k : ℕ)
      (first : Child) (given : entryAt (Children.call image) children (2 * k) = .item first) :
      ∃ second, entryAt (Children.call image) children (2 * k + 1) = .item second :=
    Children.second_of_first_half (Container.between_of_children begun).1 given
  rcases Container.render_cases finite with ⟨fault, noSummary, result⟩ | ⟨summary, summarized,
    ⟨fault, noChildren, result⟩ | ⟨children, begun, ⟨fault, failed, result⟩ |
    ⟨pairs, texts, visited, result⟩⟩⟩
  · refine ⟨?_, ?_, ?_, keyed⟩ <;> simp [noSummary, result]
  · refine ⟨?_, ?_, ?_, keyed⟩ <;> simp [summarized, noChildren, result]
  · rw [result, summarized, begun]
    refine ⟨⟨nofun, fun ⟨_, children', same, sound⟩ => ?_⟩, nofun, fun fault' => ⟨fun same => ?_, ?_⟩,
      begun ▸ keyed⟩
    · obtain rfl := Except.ok.inj same
      obtain ⟨n, met, -⟩ := failed
      exact absurd met (sound n fault)
    · obtain rfl := Except.error.inj same
      exact .inr ⟨⟨summary, rfl⟩, .inr ⟨children, rfl, failed⟩⟩
    · rintro (noSummary | ⟨-, noChildren | ⟨children', same, failed'⟩⟩)
      · cases noSummary
      · cases noChildren
      · obtain rfl := Except.ok.inj same
        rw [failed.unique failed']
  · rw [result, summarized, begun]
    refine ⟨⟨fun _ => ⟨⟨summary, rfl⟩, children, rfl, fun n fault => texts.not_fault n⟩, fun _ =>
      ⟨_, rfl⟩⟩, fun text same => ?_, fun fault' => ⟨nofun, ?_⟩, begun ▸ keyed⟩
    · obtain rfl := Except.ok.inj same
      refine ⟨summary, children, pairs, rfl, rfl, texts, visited, ?_⟩
      simp only [braced, pairText, String.append_assoc]
      rfl
    · rintro (noSummary | ⟨-, noChildren | ⟨children', same, n, met, -⟩⟩)
      · cases noSummary
      · cases noChildren
      · obtain rfl := Except.ok.inj same
        exact absurd met (texts.not_fault n)

/-- A set of two elements, and one that ends in a node that is not mapped. -/
def twoSets : Image where
  order := .little
  memory :=
    { segments :=
        [⟨0x10, #[0x40, 0, 0, 0, 0, 0, 0, 0, 1, 0, 0, 0, 0, 0, 0, 0, 2, 0, 0, 0, 0, 0, 0, 0,
            0x48, 0, 0, 0, 0, 0, 0, 0, 1, 0, 0, 0, 0, 0, 0, 0, 1, 0, 0, 0, 0, 0, 0, 0,
            0x50, 0, 0, 0, 0, 0, 0, 0, 0, 9, 0, 0, 0, 0, 0, 0,
            0x60, 0, 0, 0, 0, 0, 0, 0, 5, 0, 0, 0, 0, 0, 0, 0,
            0, 0, 0, 0, 0, 0, 0, 0, 7, 0, 0, 0]⟩]
      apart := by decide
      bounded := by decide }
  types := ⟨#[some (.plain "int" 4 .signed),
    some (.plain "bucket" 8 (.record [⟨"next", 0, 2, false⟩])),
    some (.plain "node *" 8 (.pointer 3)),
    some (.plain "node" 12 (.record [⟨"next", 0, 2, false⟩, ⟨"buf", 8, 4, false⟩])),
    some (.plain "storage" 4 (.record [⟨"t_", 0, 0, false⟩])),
    some (.plain "bucket *" 8 (.pointer 1)),
    some (.plain "unsigned long" 8 .unsigned),
    some (.plain "bucket_array" 16 (.record [⟨"buckets", 0, 5, false⟩, ⟨"size_", 8, 6, false⟩])),
    some (.plain "table" 24 (.record [⟨"buckets_", 0, 7, false⟩, ⟨"size_", 16, 6, false⟩])),
    some (.plain "boost::unordered::unordered_set<int>" 24 (.record [⟨"table_", 0, 8, false⟩]))]⟩

theorem twoSets_rendered :
    let intact : Container := ⟨⟨0x10, 9⟩, ⟨.bucket, .set, "boost::unordered_set"⟩⟩
    let cut : Container := ⟨⟨0x28, 9⟩, ⟨.bucket, .set, "boost::unordered_set"⟩⟩
    (intact.render twoSets (some 1)).result =
        .ok "boost::unordered_set with 2 elements = \x7b[0] = 5\x7d" ∧
      (∃ children, intact.children twoSets (some 1) = .ok children ∧
        ∀ n fault, children.textAt twoSets n ≠ .fault fault) ∧
      (cut.render twoSets none).result = .error (.unmapped 0x908 4) := by
  intro intact cut
  let first : Children :=
    .asking (.buckets ⟨⟨0x40, 1, 8, 1⟩, 0, .between⟩) .set (some 1) 0
  let second : Children :=
    .asking (.buckets ⟨⟨0x48, 1, 8, 1⟩, 0, .between⟩) .set none 0
  have begun : intact.children twoSets (some 1) = .ok first := by decide +kernel
  have begun' : cut.children twoSets none = .ok second := by decide +kernel
  have written : (intact.render twoSets (some 1)).result =
      .ok "boost::unordered_set with 2 elements = \x7b[0] = 5\x7d" := by decide +kernel
  obtain ⟨rendered, -⟩ := render_eq_summary_and_pairs intact twoSets (some 1) fun children same => by
    obtain rfl : first = children := Except.ok.inj (begun.symm.trans same)
    exact ⟨2, by decide +kernel⟩
  obtain ⟨-, -, stopped, -⟩ := render_eq_summary_and_pairs cut twoSets none fun children same => by
    obtain rfl : second = children := Except.ok.inj (begun'.symm.trans same)
    exact ⟨3, by decide +kernel⟩
  -- the ordinal has a text, and the element has none
  have ordinal : second.textAt twoSets 0 = .item "0" := by decide +kernel
  have failed : second.FirstFault twoSets (.unmapped 0x908 4) := by
    refine ⟨1, by decide +kernel, fun k hk => ?_⟩
    obtain rfl : k = 0 := Nat.lt_one_iff.mp hk
    exact ⟨"0", ordinal⟩
  have summarized : cut.summary twoSets = .ok "boost::unordered_set with 1 elements" := by
    decide +kernel
  obtain ⟨-, sound⟩ := rendered.mp ⟨_, written⟩
  exact ⟨written, sound, (stopped _).mpr (.inr ⟨⟨_, summarized⟩, .inr ⟨second, begun', failed⟩⟩)⟩

end Postmortem
