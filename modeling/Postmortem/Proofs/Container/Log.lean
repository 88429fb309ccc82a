import Postmortem.Proofs.Container.Limit
import Postmortem.Proofs.Group.Skipping

/-!
# The log tells how a traversal went

Two machines log while children are asked for: the walk through the elements says which groups it
goes on to, and the sequence of children says how it ended.  The sequence asks for an element in
every other call, until a call that gives no child closes it.  So what the walk says comes first, and
after it at most one event, logged by the call that closes the sequence; a closed sequence is silent.

* `Elements.log`, `Children.log` — what some calls log.
* `Children.closing` — what is said of the entry that closes a sequence.
* `Children.ClosesAt` — after so many elements a sequence meets its limit, or an element that does not
  split, or none.
* `Children.Course` — a run with what it has logged: between two elements, halfway through one, or
  closed.  **`Course.call`** — every call keeps to it.
* `Children.Told` — the closing event, if there is one.
* **`children_log`** — all of it together, for the children of a container.
-/

namespace Postmortem

/-- How an event is shown. -/
def Event.Shows (event : Event) (severity : Severity) (message : String)
    (fields : List (String × String)) : Prop :=
  event.severity = severity ∧ event.message = message ∧ event.fields = fields

/-! ## Elements -/

namespace Elements

/-- What the first `n` calls of a traversal of elements log. -/
def log (image : Image) (elements : Elements) (n : ℕ) : List Event :=
  logAfter (call image) (fun elements => (elements.next image).events) elements n

variable {image : Image}

lemma afterCalls_buckets (image : Image) (walk : BucketWalk) (n : ℕ) :
    afterCalls (call image) (.buckets walk) n = .buckets (afterCalls (·.next image) walk n) :=
  afterCalls_embed (fun _ => rfl) walk n

lemma afterCalls_groups (image : Image) (walk : GroupWalk) (n : ℕ) :
    afterCalls (call image) (.groups walk) n =
      .groups (afterCalls (GroupWalk.call image) walk n) :=
  afterCalls_embed (fun _ => rfl) walk n

/-- A walk through buckets is silent. -/
lemma log_buckets (image : Image) (walk : BucketWalk) (n : ℕ) : log image (.buckets walk) n = [] := by
  refine List.flatMap_eq_nil_iff.mpr fun k _ => ?_
  rw [afterCalls_buckets]
  rfl

lemma log_groups (image : Image) (walk : GroupWalk) (n : ℕ) :
    log image (.groups walk) n = walk.log image n := by
  have said (walk : GroupWalk) : ((groups walk).next image).events = (walk.next image).events :=
    List.append_nil _
  simp only [log, GroupWalk.log, logAfter, afterCalls_groups, said]

/-- **The elements of a container log the groups that are gone on to**, and buckets log nothing. -/
lemma exists_log {container : Container} {elements : Elements}
    (started : container.elements image = .ok elements) (n : ℕ) :
    ∃ group, elements.log image n = (List.range' 1 group).map .groupSkipped ∧
      (container.classification.family = .bucket → group = 0) ∧
      ∀ walk, afterCalls (call image) elements n = .groups walk → walk.InGroup image group := by
  rcases Container.elements_cases started with ⟨-, walk, -, rfl⟩ | ⟨family, walk, start, rfl⟩
  · refine ⟨0, log_buckets image walk n, fun _ => rfl, fun other hother => ?_⟩
    rw [afterCalls_buckets] at hother
    contradiction
  · obtain ⟨group, logged, here⟩ := GroupWalk.exists_inGroup_afterCalls walk.table image n
    rw [← (GroupWalk.of_start start).2] at logged here
    refine ⟨group, (log_groups image walk n).trans logged, fun bucket => ?_, fun other hother => ?_⟩
    · rw [family] at bucket
      contradiction
    · rw [afterCalls_groups] at hother
      obtain rfl := Elements.groups.inj hother
      exact here

end Elements

/-! ## One call -/

namespace Children

/-- What the first `n` calls of a sequence of children log. -/
def log (image : Image) (c : Children) (n : ℕ) : List Event :=
  logAfter (call image) (fun c => (c.next image).events) c n

/-- What is said of an entry of the elements that comes after `visited` others, if it closes the
sequence. -/
def closing (limit : Option ℕ) (visited : ℕ) : Entry Object → List Event
  | .item _ => if limit = some visited then [.limitReached visited] else []
  | .fault fault => if limit = some visited then [.unreadablePastLimit visited fault] else []
  | .done => if limit = some visited then [] else [.traversalFinished visited]

variable {image : Image} {elements : Elements} {kind : Kind} {limit : Option ℕ} {c : Children}
  {s s' n m : ℕ}

lemma closing_eq_finished_iff {entry : Entry Object} :
    closing limit s entry = [.traversalFinished m] ↔
      limit ≠ some s ∧ entry = .done ∧ s = m := by
  cases entry <;> by_cases reached : limit = some s <;> simp [closing, reached]

lemma closing_eq_limitReached_iff {entry : Entry Object} :
    closing limit s entry = [.limitReached m] ↔
      limit = some s ∧ (∃ element, entry = .item element) ∧ s = m := by
  cases entry <;> by_cases reached : limit = some s <;> simp [closing, reached]

lemma closing_eq_unreadable_iff {entry : Entry Object} {fault : Fault} :
    closing limit s entry = [.unreadablePastLimit m fault] ↔
      limit = some s ∧ entry = .fault fault ∧ s = m := by
  cases entry <;> by_cases reached : limit = some s <;> simp [closing, reached, and_comm]

lemma events_of_closed (h : c.stage = .closed) : (c.next image).events = [] := by
  rw [next, h]
  rfl

lemma events_of_halfway {second : ChildValue} (h : c.stage = .halfway second) :
    (c.next image).events = [] := by
  rw [next, h]
  rfl

lemma events_beyond (reached : c.limit = some c.visited) (entry : Entry Object) :
    (c.beyond entry).events = closing c.limit c.visited entry := by
  cases entry <;> simp [beyond, closing, reached, Logged.record, Functor.map]

lemma events_within (inside : c.limit ≠ some c.visited) (entry : Entry Object) :
    (c.within image entry).events = closing c.limit c.visited entry := by
  cases entry <;> simp [within, closing, inside, Logged.record, Functor.map]

/-- A call that asks logs what the walk says, and then what there is to say of its answer. -/
lemma events_asking (image : Image) (elements : Elements) (kind : Kind) (limit : Option ℕ) (s : ℕ) :
    ((asking elements kind limit s).next image).events =
      (elements.next image).events ++ closing limit s (elements.call image).1 := by
  let after := asking (elements.call image).2 kind limit s
  have asked : ((asking elements kind limit s).next image).events = (elements.next image).events ++
      (if limit = some s then after.beyond (elements.call image).1
        else after.within image (elements.call image).1).events := rfl
  rw [asked]
  congr 1
  split
  · next reached => exact @events_beyond after reached _
  · next inside => exact @events_within image after inside _

/-- An element that splits, before the limit, leaves its second half, and nothing is said of it. -/
lemma call_of_splits (inside : limit ≠ some s) (splits : Splits image kind elements s 1) :
    (∃ second, ((asking elements kind limit s).call image).2 =
      ⟨(elements.call image).2, kind, limit, s + 1, .halfway second⟩) ∧
    closing limit s (elements.call image).1 = [] := by
  obtain ⟨element, ⟨first, second⟩, given, split⟩ := splits 0 Nat.one_pos
  have given : (elements.call image).1 = .item element := given
  refine ⟨⟨second, congrArg Prod.snd (call_of_halves inside given split)⟩, ?_⟩
  rw [given, closing, if_neg inside]

/-- At the limit, or if no element splits, the sequence is closed. -/
lemma call_of_stops (stops : limit = some s ∨ ¬ Splits image kind elements s 1) :
    ((asking elements kind limit s).call image).2 =
      ⟨(elements.call image).2, kind, limit, s, .closed⟩ := by
  by_cases reached : limit = some s
  · rw [call_at_limit rfl reached, asking]
    cases (elements.call image).1 <;> rfl
  · obtain ⟨entry, hcall⟩ := exists_call_of_stuck (stops.resolve_left reached)
    rw [hcall limit reached]

/-! ## Runs -/

/-- A sequence splits so many elements before its limit, and then meets the limit, or an element that
does not split, or none. -/
structure ClosesAt (image : Image) (elements : Elements) (kind : Kind) (limit : Option ℕ) (s : ℕ) :
    Prop where
  splits : Splits image kind elements 0 s
  below : ∀ k < s, limit ≠ some k
  stops : limit = some s ∨ ¬ Splits image kind elements 0 (s + 1)

/-- A run of `n` calls, with the sequence it leaves and what it has logged. -/
inductive Course (image : Image) (elements : Elements) (kind : Kind) (limit : Option ℕ) :
    ℕ → Children → List Event → Prop
  | between {s : ℕ} (splits : Splits image kind elements 0 s) (below : ∀ k < s, limit ≠ some k) :
      Course image elements kind limit (2 * s)
        (asking (afterCalls (Elements.call image) elements s) kind limit s) (elements.log image s)
  | halfway {s : ℕ} {second : ChildValue} (splits : Splits image kind elements 0 (s + 1))
      (below : ∀ k < s + 1, limit ≠ some k) :
      Course image elements kind limit (2 * s + 1)
        ⟨afterCalls (Elements.call image) elements (s + 1), kind, limit, s + 1, .halfway second⟩
        (elements.log image (s + 1))
  | closed {s n : ℕ} (closes : ClosesAt image elements kind limit s) (later : 2 * s < n) :
      Course image elements kind limit n
        ⟨afterCalls (Elements.call image) elements (s + 1), kind, limit, s, .closed⟩
        (elements.log image (s + 1) ++
          closing limit s (entryAt (Elements.call image) elements s))

lemma splits_succ_iff_at : Splits image kind elements 0 (s + 1) ↔
    Splits image kind elements 0 s ∧
      Splits image kind (afterCalls (Elements.call image) elements s) s 1 := by
  rw [splits_add_iff, Nat.zero_add]

/-- **Every call keeps to its course.** -/
lemma Course.call {log : List Event} (course : Course image elements kind limit n c log) :
    Course image elements kind limit (n + 1) (c.call image).2 (log ++ (c.next image).events) := by
  cases course with
  | closed closes later =>
      rw [call_of_closed rfl, events_of_closed rfl, List.append_nil]
      exact .closed closes (Nat.lt_succ_of_lt later)
  | halfway splits below =>
      rw [call_of_halfway rfl, events_of_halfway rfl, List.append_nil]
      exact .between splits below
  | @between s splits below =>
      rw [events_asking, ← List.append_assoc]
      have logged : elements.log image s ++
          ((afterCalls (Elements.call image) elements s).next image).events =
            elements.log image (s + 1) := (logAfter_succ _ _ _ _).symm
      have gone : ((afterCalls (Elements.call image) elements s).call image).2 =
          afterCalls (Elements.call image) elements (s + 1) := (afterCalls_succ _ _ _).symm
      by_cases stops : limit = some s ∨ ¬ Splits image kind elements 0 (s + 1)
      · have here : limit = some s ∨
            ¬ Splits image kind (afterCalls (Elements.call image) elements s) s 1 :=
          stops.imp_right fun stuck one => stuck (splits_succ_iff_at.mpr ⟨splits, one⟩)
        rw [call_of_stops here, gone, logged]
        exact .closed ⟨splits, below, stops⟩ (Nat.lt_succ_self _)
      · have inside : limit ≠ some s := fun reached => stops (.inl reached)
        have later : Splits image kind elements 0 (s + 1) := not_not.mp fun stuck => stops (.inr stuck)
        obtain ⟨⟨second, hcall⟩, silent⟩ :=
          call_of_splits inside (splits_succ_iff_at.mp later).2
        rw [hcall, gone, logged, silent, List.append_nil]
        exact .halfway later (Nat.forall_lt_succ_right.mpr ⟨below, inside⟩)

lemma course_afterCalls (image : Image) (elements : Elements) (kind : Kind) (limit : Option ℕ)
    (n : ℕ) : Course image elements kind limit n
      (afterCalls (call image) (asking elements kind limit 0) n)
      ((asking elements kind limit 0).log image n) := by
  induction n with
  | zero => exact @Course.between image elements kind limit 0 nofun nofun
  | succ n ih =>
      rw [afterCalls_succ, log, logAfter_succ]
      exact ih.call

/-! ## How a sequence closes -/

lemma ClosesAt.le (closes : ClosesAt image elements kind limit s')
    (splits : Splits image kind elements 0 s) (below : ∀ k < s, limit ≠ some k) : s ≤ s' := by
  by_contra beyond
  have before : s' < s := Nat.lt_of_not_le beyond
  rcases closes.stops with reached | stuck
  · exact below s' before reached
  · exact stuck fun k hk => splits k (by omega)

/-- There is one place to close at. -/
lemma ClosesAt.unique (closes : ClosesAt image elements kind limit s)
    (closes' : ClosesAt image elements kind limit s') : s = s' :=
  Nat.le_antisymm (closes'.le closes.splits closes.below) (closes.le closes'.splits closes'.below)

/-- A sequence that splits as many elements as its limit closes there. -/
lemma ClosesAt.of_limit (reached : limit = some s) (splits : Splits image kind elements 0 s) :
    ClosesAt image elements kind limit s where
  splits := splits
  below k hk := by
    rw [reached]
    exact fun same => Nat.ne_of_gt hk (Option.some.inj same)
  stops := .inl reached

/-- What `n` calls say of the end: nothing while the sequence is open, and after that what there is to
say of the entry it closed at. -/
def Told (image : Image) (elements : Elements) (kind : Kind) (limit : Option ℕ) (n : ℕ)
    (told : List Event) : Prop :=
  (told = [] ∧ ∀ s, ClosesAt image elements kind limit s → n ≤ 2 * s) ∨
  ∃ s, ClosesAt image elements kind limit s ∧ 2 * s < n ∧
    told = closing limit s (entryAt (Elements.call image) elements s)

/-- As long as a sequence is open, it has not come to where it closes. -/
lemma Course.le_of_open {log : List Event} (course : Course image elements kind limit n c log)
    (still : c.stage ≠ .closed) (closes : ClosesAt image elements kind limit s) : n ≤ 2 * s := by
  cases course with
  | between splits below => exact Nat.mul_le_mul_left 2 (closes.le splits below)
  | halfway splits below =>
      have := closes.le splits below
      omega
  | closed => contradiction

lemma Course.exists_told {log : List Event} (course : Course image elements kind limit n c log) :
    ∃ asked told, c.elements = afterCalls (Elements.call image) elements asked ∧
      log = elements.log image asked ++ told ∧ Told image elements kind limit n told := by
  have silent (still : c.stage ≠ .closed) : Told image elements kind limit n [] :=
    .inl ⟨rfl, fun s closes => course.le_of_open still closes⟩
  cases course with
  | between => exact ⟨_, [], rfl, (List.append_nil _).symm, silent nofun⟩
  | halfway => exact ⟨_, [], rfl, (List.append_nil _).symm, silent nofun⟩
  | closed closes later => exact ⟨_, _, rfl, rfl, .inr ⟨_, closes, later, rfl⟩⟩

lemma Course.closed_iff {log : List Event} (course : Course image elements kind limit n c log) :
    c.stage = .closed ↔ ∃ s, ClosesAt image elements kind limit s ∧ 2 * s < n := by
  constructor
  · intro closed
    cases course with
    | between => contradiction
    | halfway => contradiction
    | closed closes later => exact ⟨_, closes, later⟩
  · rintro ⟨s, closes, later⟩
    by_contra still
    exact Nat.not_lt.mpr (course.le_of_open still closes) later

/-- A call gives a child unless it leaves the sequence closed. -/
lemma exists_item_iff (image : Image) (c : Children) :
    (∃ child, (c.call image).1 = .item child) ↔ (c.call image).2.stage ≠ .closed := by
  rcases call_cases image c with ⟨hstage, hcall⟩ | ⟨second, hstage, hcall⟩ |
    ⟨first, second, hstage, -, hcall⟩ | ⟨entry, hstage, noItem, hcall⟩
  · simp [hcall, hstage]
  · simp [hcall]
  · simp [hcall]
  · simp [hcall, noItem]

/-- **Children are given up to where the sequence closes.** -/
lemma exists_item_iff_of_closesAt (closes : ClosesAt image elements kind limit s) :
    (∃ child, entryAt (call image) (asking elements kind limit 0) n = .item child) ↔ n < 2 * s := by
  have course := course_afterCalls image elements kind limit (n + 1)
  rw [entryAt, exists_item_iff, ← afterCalls_succ, Ne, course.closed_iff]
  constructor
  · intro still
    by_contra later
    exact still ⟨s, closes, by omega⟩
  · rintro before ⟨s', closes', later⟩
    obtain rfl := closes.unique closes'
    omega

lemma ClosesAt.afterCalls_eq (closes : ClosesAt image elements kind limit s) :
    afterCalls (Children.call image) (asking elements kind limit 0) (2 * s) =
      asking (afterCalls (Elements.call image) elements s) kind limit s := by
  have arrived := @afterCalls_asking image elements kind limit 0 s closes.splits
    (by simpa using closes.below)
  rwa [Nat.zero_add] at arrived

/-- A fault is given by the call that closes the sequence. -/
lemma ClosesAt.eq_of_fault (closes : ClosesAt image elements kind limit s) {fault : Fault}
    (failed : entryAt (Children.call image) (asking elements kind limit 0) n = .fault fault) :
    n = 2 * s := by
  have noItem (k : ℕ) (hk : 2 * s ≤ k) (child : Child) :
      entryAt (Children.call image) (asking elements kind limit 0) k ≠ .item child :=
    fun given => Nat.not_lt.mpr hk ((exists_item_iff_of_closesAt closes).mp ⟨child, given⟩)
  rcases Nat.lt_trichotomy n (2 * s) with before | same | later
  · obtain ⟨child, given⟩ := (exists_item_iff_of_closesAt closes).mpr before
    rw [failed] at given
    contradiction
  · exact same
  · rw [entryAt_of_no_item (noItem _ (Nat.le_refl _)) later] at failed
    contradiction

/-- **A closed sequence logs nothing more.** -/
lemma log_of_closed (closed : (afterCalls (call image) c n).stage = .closed) (le : n ≤ m) :
    c.log image m = c.log image n := by
  obtain ⟨count, rfl⟩ := Nat.exists_eq_add_of_le le
  induction count with
  | zero => rfl
  | succ count ih =>
      have stays : (afterCalls (call image) c (n + count)).stage = .closed := by
        rw [afterCalls_add, afterCalls_of_closed closed, closed]
      rw [← Nat.add_assoc, log, logAfter_succ, events_of_closed stays, List.append_nil]
      exact ih (Nat.le_add_right _ _)

/-! ## What is said of the end -/

namespace Told

variable {told : List Event} {event : Event}

lemma eq_singleton_iff (h : Told image elements kind limit n told) : told = [event] ↔
    ∃ s, ClosesAt image elements kind limit s ∧ 2 * s < n ∧
      closing limit s (entryAt (Elements.call image) elements s) = [event] := by
  rcases h with ⟨rfl, before⟩ | ⟨s, closes, later, rfl⟩
  · refine iff_of_false nofun fun ⟨s, closes, later, _⟩ => ?_
    exact Nat.not_lt.mpr (before s closes) later
  · refine ⟨fun said => ⟨s, closes, later, said⟩, fun ⟨s', closes', _, said⟩ => ?_⟩
    rwa [closes.unique closes']

lemma length_le (h : Told image elements kind limit n told) : told.length ≤ 1 := by
  rcases h with ⟨rfl, -⟩ | ⟨s, -, -, rfl⟩
  · exact Nat.zero_le 1
  · cases entryAt (Elements.call image) elements s <;> simp only [closing] <;> split <;> simp

/-- The traversal is finished if the elements end, and not at the limit. -/
lemma eq_finished_iff (h : Told image elements kind limit n told) :
    told = [.traversalFinished s] ↔ 2 * s < n ∧ Splits image kind elements 0 s ∧
      entryAt (Elements.call image) elements s = .done ∧ ∀ k ≤ s, limit ≠ some k := by
  rw [h.eq_singleton_iff]
  constructor
  · rintro ⟨s', closes, later, said⟩
    obtain ⟨inside, ended, rfl⟩ := closing_eq_finished_iff.mp said
    refine ⟨later, closes.splits, ended, fun k hk => ?_⟩
    rcases Nat.lt_or_eq_of_le hk with before | rfl
    · exact closes.below k before
    · exact inside
  · rintro ⟨later, splits, ended, below⟩
    have stuck : ¬ Splits image kind elements 0 (s + 1) := by
      intro splits
      obtain ⟨element, -, given, -⟩ := splits s (Nat.lt_succ_self s)
      rw [ended] at given
      contradiction
    exact ⟨s, ⟨splits, fun k hk => below k (Nat.le_of_lt hk), .inr stuck⟩, later,
      closing_eq_finished_iff.mpr ⟨below s (Nat.le_refl s), ended, rfl⟩⟩

/-- The limit is reached if another element comes after it. -/
lemma eq_limitReached_iff (h : Told image elements kind limit n told) :
    told = [.limitReached s] ↔ limit = some s ∧ 2 * s < n ∧ Splits image kind elements 0 s ∧
      ∃ element, entryAt (Elements.call image) elements s = .item element := by
  rw [h.eq_singleton_iff]
  constructor
  · rintro ⟨s', closes, later, said⟩
    obtain ⟨reached, given, rfl⟩ := closing_eq_limitReached_iff.mp said
    exact ⟨reached, later, closes.splits, given⟩
  · rintro ⟨reached, later, splits, given⟩
    exact ⟨s, .of_limit reached splits, later,
      closing_eq_limitReached_iff.mpr ⟨reached, given, rfl⟩⟩

/-- The element past the limit is unreadable if a fault comes after the limit. -/
lemma eq_unreadable_iff (h : Told image elements kind limit n told) {fault : Fault} :
    told = [.unreadablePastLimit s fault] ↔ limit = some s ∧ 2 * s < n ∧
      Splits image kind elements 0 s ∧
      entryAt (Elements.call image) elements s = .fault fault := by
  rw [h.eq_singleton_iff]
  constructor
  · rintro ⟨s', closes, later, said⟩
    obtain ⟨reached, failed, rfl⟩ := closing_eq_unreadable_iff.mp said
    exact ⟨reached, later, closes.splits, failed⟩
  · rintro ⟨reached, later, splits, failed⟩
    exact ⟨s, .of_limit reached splits, later,
      closing_eq_unreadable_iff.mpr ⟨reached, failed, rfl⟩⟩

/-- Nothing is said of elements that end exactly at the limit. -/
lemma eq_nil_of_done_at_limit (h : Told image elements kind (some s) n told)
    (splits : Splits image kind elements 0 s)
    (ended : entryAt (Elements.call image) elements s = .done) : told = [] := by
  rcases h with ⟨rfl, -⟩ | ⟨s', closes, -, rfl⟩
  · rfl
  · obtain rfl := closes.unique (.of_limit rfl splits)
    rw [ended, closing, if_pos rfl]

/-- Nothing is said of a fault before the limit. -/
lemma eq_nil_of_fault_before_limit (h : Told image elements kind limit n told) {k : ℕ}
    {fault : Fault}
    (failed : entryAt (call image) (asking elements kind limit 0) k = .fault fault)
    (before : ∀ bound, limit = some bound → k < 2 * bound) : told = [] := by
  rcases h with ⟨rfl, -⟩ | ⟨s, closes, -, rfl⟩
  · rfl
  · obtain rfl := closes.eq_of_fault failed
    have inside : limit ≠ some s := fun reached => Nat.lt_irrefl _ (before s reached)
    cases given : entryAt (Elements.call image) elements s with
    | item element => rw [closing, if_neg inside]
    | fault fault' => rw [closing, if_neg inside]
    | done =>
        rw [entryAt, closes.afterCalls_eq, call_of_done inside given] at failed
        contradiction

/-- An event is one of three. -/
lemma shows_of_mem (h : Told image elements kind limit n told) (said : event ∈ told) :
    (∃ s, event = .traversalFinished s ∧
      event.Shows .debug "traversal finished" [("elements", toString s)]) ∨
    (∃ s, event = .limitReached s ∧
      event.Shows .warn "element limit reached, traversal truncated" [("limit", toString s)]) ∨
    ∃ s fault, event = .unreadablePastLimit s fault ∧
      event.Shows .warn "element past the limit is unreadable"
        [("limit", toString s), ("error", fault.message)] := by
  rcases h with ⟨rfl, -⟩ | ⟨s, -, -, rfl⟩
  · contradiction
  · generalize entryAt (Elements.call image) elements s = entry at said
    cases entry with
    | item element =>
        simp only [closing, List.mem_ite_nil_right, List.mem_singleton] at said
        exact .inr (.inl ⟨s, said.2, said.2 ▸ ⟨rfl, rfl, rfl⟩⟩)
    | fault fault =>
        simp only [closing, List.mem_ite_nil_right, List.mem_singleton] at said
        exact .inr (.inr ⟨s, fault, said.2, said.2 ▸ ⟨rfl, rfl, rfl⟩⟩)
    | done =>
        simp only [closing, List.mem_ite_nil_left, List.mem_singleton] at said
        exact .inl ⟨s, said.2, said.2 ▸ ⟨rfl, rfl, rfl⟩⟩

end Told

end Children

open Children in
/-- **The log tells exactly how a traversal went.**  After any number of calls on the children of a
container, it consists of the groups that the walk went on to, one by one from the second up to the
one it has come to, and none for buckets; and of at most one event after them.  Once there is that event, or
a call has given no child, nothing more is logged.  The event says that the traversal is finished
exactly if the elements ended, after so many that split and not at the limit, and those gave all the
children, two each.  It says that the limit was reached exactly if so many elements split and another
one was read after them, and that the element past the limit is unreadable exactly if it is, with its
fault.  Elements that end exactly at the limit, and a fault before it, are passed over in silence. -/
theorem children_log {image : Image} {container : Container} {elements : Elements}
    (started : container.elements image = .ok elements) (limit : Option ℕ) :
    ∃ children, container.children image limit = .ok children ∧ ∀ n, ∃ group told,
      children.log image n = (List.range' 1 group).map .groupSkipped ++ told ∧
      (container.classification.family = .bucket → group = 0) ∧
      (∀ walk, (afterCalls (call image) children n).elements = .groups walk →
        walk.InGroup image group) ∧
      told.length ≤ 1 ∧
      ((told ≠ [] ∨ ∃ k < n, ∀ child, entryAt (call image) children k ≠ .item child) →
        ∀ m, n ≤ m → children.log image m = children.log image n) ∧
      (∀ s, told = [.traversalFinished s] ↔
        2 * s < n ∧ Splits image container.classification.kind elements 0 s ∧
          entryAt (Elements.call image) elements s = .done ∧ ∀ k ≤ s, limit ≠ some k) ∧
      (∀ s, told = [.traversalFinished s] →
        ∀ k, (∃ child, entryAt (call image) children k = .item child) ↔ k < 2 * s) ∧
      (∀ s, told = [.limitReached s] ↔
        limit = some s ∧ 2 * s < n ∧ Splits image container.classification.kind elements 0 s ∧
          ∃ element, entryAt (Elements.call image) elements s = .item element) ∧
      (∀ s fault, told = [.unreadablePastLimit s fault] ↔
        limit = some s ∧ 2 * s < n ∧ Splits image container.classification.kind elements 0 s ∧
          entryAt (Elements.call image) elements s = .fault fault) ∧
      (∀ s, limit = some s → Splits image container.classification.kind elements 0 s →
        entryAt (Elements.call image) elements s = .done → told = []) ∧
      (∀ k fault, entryAt (call image) children k = .fault fault →
        (∀ bound, limit = some bound → k < 2 * bound) → told = []) ∧
      ∀ event ∈ children.log image n,
        (∃ g, event = .groupSkipped g ∧
          event.Shows .trace "skipping to next group" [("group", toString g)]) ∨
        (∃ s, event = .traversalFinished s ∧
          event.Shows .debug "traversal finished" [("elements", toString s)]) ∨
        (∃ s, event = .limitReached s ∧
          event.Shows .warn "element limit reached, traversal truncated"
            [("limit", toString s)]) ∨
        ∃ s fault, event = .unreadablePastLimit s fault ∧
          event.Shows .warn "element past the limit is unreadable"
            [("limit", toString s), ("error", fault.message)] := by
  refine ⟨_, container.children_of_elements started limit, fun n => ?_⟩
  set kind := container.classification.kind
  have course := course_afterCalls image elements kind limit n
  obtain ⟨asked, told, stands, logged, tells⟩ := course.exists_told
  obtain ⟨group, skipped, buckets, inGroup⟩ := Elements.exists_log started asked
  rw [skipped] at logged
  refine ⟨group, told, logged, buckets, fun walk hwalk => inGroup walk (stands.symm.trans hwalk),
    tells.length_le, ?_, fun s => tells.eq_finished_iff, fun s finished k => ?_,
    fun s => tells.eq_limitReached_iff, fun s fault => tells.eq_unreadable_iff, ?_,
    fun k fault => tells.eq_nil_of_fault_before_limit, fun event hevent => ?_⟩
  · rintro (said | ⟨k, hk, noItem⟩) m hm
    · refine log_of_closed (course.closed_iff.mpr ?_) hm
      exact (tells.resolve_left fun ⟨silent, _⟩ => said silent).imp
        fun s ⟨closes, later, _⟩ => ⟨closes, later⟩
    · have closed : (afterCalls (call image) (asking elements kind limit 0) (k + 1)).stage =
          .closed := by
        rw [afterCalls_succ]
        by_contra still
        obtain ⟨child, given⟩ := (exists_item_iff image _).mpr still
        exact noItem child given
      rw [log_of_closed closed (Nat.le_trans hk hm), log_of_closed closed hk]
  · obtain ⟨s', closes, -, said⟩ := tells.eq_singleton_iff.mp finished
    obtain ⟨-, -, rfl⟩ := closing_eq_finished_iff.mp said
    exact exists_item_iff_of_closesAt closes
  · rintro s rfl splits ended
    exact tells.eq_nil_of_done_at_limit splits ended
  · rw [logged, List.mem_append, List.mem_map] at hevent
    rcases hevent with ⟨g, -, rfl⟩ | said
    · exact .inl ⟨g, rfl, rfl, rfl, rfl⟩
    · exact .inr (tells.shows_of_mem said)

/-- The table that was torn off in its third group, looked at with a limit that is reached there. -/
theorem tornTable_logged :
    let container : Container := ⟨⟨0x10, 8⟩, ⟨.grouped, .set, "boost::unordered_flat_set"⟩⟩
    ∃ children, container.children tornTable (some 4) = .ok children ∧
      children.log tornTable 9 = [.groupSkipped 1, .groupSkipped 2,
        .unreadablePastLimit 4 (.unmapped 0x123 1)] ∧
      ∀ m, 9 ≤ m → children.log tornTable m = children.log tornTable 9 := by
  intro container
  have started : container.elements tornTable = .ok (.groups tornWalk) := by decide +kernel
  have given : entryAt (Elements.call tornTable) (.groups tornWalk) 0 = .item ⟨0x404, 4⟩ ∧
      entryAt (Elements.call tornTable) (.groups tornWalk) 1 = .item ⟨0x408, 4⟩ ∧
      entryAt (Elements.call tornTable) (.groups tornWalk) 2 = .item ⟨0x40c, 4⟩ ∧
      entryAt (Elements.call tornTable) (.groups tornWalk) 3 = .item ⟨0x424, 4⟩ ∧
      entryAt (Elements.call tornTable) (.groups tornWalk) 4 = .fault (.unmapped 0x123 1) := by
    decide +kernel
  have splits : Children.Splits tornTable .set (.groups tornWalk) 0 4
    | 0, _ => ⟨_, _, given.1, rfl⟩
    | 1, _ => ⟨_, _, given.2.1, rfl⟩
    | 2, _ => ⟨_, _, given.2.2.1, rfl⟩
    | 3, _ => ⟨_, _, given.2.2.2.1, rfl⟩
  obtain ⟨children, hchildren, tells⟩ := children_log started (some 4)
  obtain ⟨group, told, logged, -, inGroup, -, silent, -, -, -, unreadable, -⟩ := tells 9
  have said := (unreadable 4 _).mpr ⟨rfl, by decide, splits, given.2.2.2.2⟩
  have stands : (afterCalls (Children.call tornTable) children 9).elements =
      .groups ⟨tornWalk.table, .broken ⟨2, 9⟩⟩ := by
    obtain rfl := Except.ok.inj hchildren
    decide +kernel
  obtain rfl : 2 = group := (inGroup _ stands).1
  refine ⟨children, hchildren, ?_, silent (.inl (by simp [said]))⟩
  rw [logged, said]
  rfl

end Postmortem
