import Mathlib.Data.Nat.Notation
import Mathlib.Tactic.Lemma
import Postmortem.Inspection

/-!
# Calls of a traversal, one after the other

A traversal is a state with a function that answers one call: an entry, and the state after it.
What a caller sees of it is the sequence of entries, and this file gives that sequence a name.

* `afterCalls` / `entryAt` — the state after some calls, and the entry that a call gives.
* `Gives` — the calls give certain values, one each and in order, and after them the end **however
  often they are repeated**.  A list of values is built up from the back: `gives_nil` is a
  traversal at its end, `gives_cons` is one that gives a value and goes on.
* `Answers` — the same for a sequence that may end with a fault, or of which only the first values
  are known.
* `EndsWithin` — the sequence ends, with a fault or without, after at most so many values.
* `GivesThen` — the calls give certain values, and the one after them answers in a certain way.
* `logAfter` — what is logged by some calls, each of which logs something of its own.

Two states that answer the next call alike cannot be told apart by any later one (`gives_congr`).
That is what lets a walk through empty buckets, or its first step from nowhere, be left out.
-/

namespace Postmortem

variable {σ α : Type}

/-- The state of a traversal after `n` calls. -/
def afterCalls (next : σ → Entry α × σ) (s : σ) : ℕ → σ
  | 0 => s
  | n + 1 => afterCalls next (next s).2 n

/-- The entry that a call gives, the first one being call `0`. -/
def entryAt (next : σ → Entry α × σ) (s : σ) (n : ℕ) : Entry α :=
  (next (afterCalls next s n)).1

def Gives (next : σ → Entry α × σ) (s : σ) (values : List α) : Prop :=
  ∀ n, entryAt next s n = (values[n]?).elim .done .item

lemma entryAt_succ (next : σ → Entry α × σ) (s : σ) (n : ℕ) :
    entryAt next s (n + 1) = entryAt next (next s).2 n := rfl

lemma afterCalls_add (next : σ → Entry α × σ) (s : σ) (m n : ℕ) :
    afterCalls next s (m + n) = afterCalls next (afterCalls next s m) n := by
  induction m generalizing s with
  | zero => rw [Nat.zero_add]; rfl
  | succ m ih => rw [Nat.succ_add]; exact ih (next s).2

lemma afterCalls_succ (next : σ → Entry α × σ) (s : σ) (n : ℕ) :
    afterCalls next s (n + 1) = (next (afterCalls next s n)).2 :=
  afterCalls_add next s n 1

lemma afterCalls_of_fixed {next : σ → Entry α × σ} {s : σ} (h : (next s).2 = s) (n : ℕ) :
    afterCalls next s n = s := by
  induction n with
  | zero => rfl
  | succ n ih => rw [afterCalls_succ, ih, h]

/-- A state that answers with the end and stays as it is gives nothing. -/
lemma gives_nil_of_fixed {next : σ → Entry α × σ} {s : σ} (h : next s = (.done, s)) :
    Gives next s [] := by
  intro n
  induction n with
  | zero => simp [entryAt, afterCalls, h]
  | succ n ih =>
      rw [entryAt_succ, h]
      exact ih

lemma gives_cons {next : σ → Entry α × σ} {s s' : σ} {a : α} {values : List α}
    (h : next s = (.item a, s')) (rest : Gives next s' values) :
    Gives next s (a :: values) := by
  intro n
  cases n with
  | zero => simp [entryAt, afterCalls, h]
  | succ n =>
      rw [entryAt_succ, h, List.getElem?_cons_succ]
      exact rest n

/-- Only the answer to the next call counts. -/
lemma entryAt_congr {next : σ → Entry α × σ} {s t : σ} (h : next s = next t) (n : ℕ) :
    entryAt next s n = entryAt next t n := by
  cases n with
  | zero => simp [entryAt, afterCalls, h]
  | succ n => rw [entryAt_succ, entryAt_succ, h]

lemma gives_congr {next : σ → Entry α × σ} {s t : σ} {values : List α} (h : next s = next t) :
    Gives next s values ↔ Gives next t values := by
  simp only [Gives, entryAt_congr h]

/-- The end is given by a state that answers with it and whose successor stays as it is. -/
lemma gives_nil {next : σ → Entry α × σ} {s s' : σ} (h : next s = (.done, s'))
    (fixed : next s' = (.done, s')) : Gives next s [] :=
  (gives_congr (h.trans fixed.symm)).mpr (gives_nil_of_fixed fixed)

section Embedding

variable {τ : Type} {next : σ → Entry α × σ} {next' : τ → Entry α × τ} {f : σ → τ}

/-- A traversal inside another one, which passes its entries on, goes through the same states. -/
lemma afterCalls_embed (h : ∀ s, next' (f s) = ((next s).1, f (next s).2)) (s : σ) (n : ℕ) :
    afterCalls next' (f s) n = f (afterCalls next s n) := by
  induction n generalizing s with
  | zero => rfl
  | succ n ih =>
      rw [afterCalls, h]
      exact ih (next s).2

lemma entryAt_embed (h : ∀ s, next' (f s) = ((next s).1, f (next s).2)) (s : σ) (n : ℕ) :
    entryAt next' (f s) n = entryAt next s n := by
  rw [entryAt, afterCalls_embed h, h, entryAt]

end Embedding

/-! ## Sequences that end in other ways -/

/-- What comes after some values of a sequence. -/
inductive Ending where
  /-- Nothing is known of it. -/
  | more
  | done
  | fault (fault : Fault)
  deriving Repr, DecidableEq

/-- From call `n` on, the calls answer as an ending says. -/
def Ending.Follows (next : σ → Entry α × σ) (s : σ) (n : ℕ) : Ending → Prop
  | .more => True
  | .done => ∀ k, n ≤ k → entryAt next s k = .done
  | .fault f => entryAt next s n = .fault f ∧ ∀ k, n < k → entryAt next s k = .done

def Answers (next : σ → Entry α × σ) (s : σ) (values : List α) (ending : Ending) : Prop :=
  (∀ n a, values[n]? = some a → entryAt next s n = .item a) ∧ ending.Follows next s values.length

lemma entryAt_add (next : σ → Entry α × σ) (s : σ) (m n : ℕ) :
    entryAt next s (m + n) = entryAt next (afterCalls next s m) n := by
  rw [entryAt, afterCalls_add, entryAt]

lemma answers_cons {next : σ → Entry α × σ} {s s' : σ} {a : α} {values : List α} {ending : Ending}
    (h : next s = (.item a, s')) (rest : Answers next s' values ending) :
    Answers next s (a :: values) ending := by
  have later (n : ℕ) : entryAt next s (n + 1) = entryAt next s' n := by rw [entryAt_succ, h]
  refine ⟨fun n b hb => ?_, ?_⟩
  · cases n with
    | zero => simp_all [entryAt, afterCalls]
    | succ n => exact (later n).trans (rest.1 n b hb)
  · have tail := rest.2
    cases ending with
    | more => trivial
    | done =>
        intro k hk
        obtain ⟨k, rfl⟩ := Nat.exists_eq_add_of_lt hk
        exact (later _).trans (tail _ (Nat.le_add_right _ _))
    | fault f =>
        refine ⟨(later _).trans tail.1, fun k hk => ?_⟩
        obtain ⟨k, rfl⟩ := Nat.exists_eq_add_of_lt hk
        exact (later _).trans (tail.2 _ (by simp only [List.length_cons]; omega))

lemma answers_congr {next : σ → Entry α × σ} {s t : σ} {values : List α} {ending : Ending}
    (h : next s = next t) : Answers next s values ending ↔ Answers next t values ending := by
  cases ending <;> simp only [Answers, Ending.Follows, entryAt_congr h]

lemma answers_more (next : σ → Entry α × σ) (s : σ) : Answers next s [] .more := by
  simp [Answers, Ending.Follows]

lemma answers_done {next : σ → Entry α × σ} {s s' : σ} (h : next s = (.done, s'))
    (fixed : next s' = (.done, s')) : Answers next s [] .done := by
  have nothing := gives_nil h fixed
  exact ⟨by simp, fun k _ => nothing k⟩

lemma Answers.item_of_lt {next : σ → Entry α × σ} {s : σ} {values : List α} {ending : Ending}
    (answers : Answers next s values ending) {n : ℕ} (inside : n < values.length) :
    ∃ a, entryAt next s n = .item a :=
  ⟨values[n], answers.1 n _ (List.getElem?_eq_getElem inside)⟩

lemma Answers.done_of_gt {next : σ → Entry α × σ} {s : σ} {values : List α} {ending : Ending}
    (answers : Answers next s values ending) (ends : ending ≠ .more) {n : ℕ}
    (later : values.length < n) : entryAt next s n = .done := by
  have follows := answers.2
  cases ending with
  | more => exact absurd rfl ends
  | done => exact follows n (Nat.le_of_lt later)
  | fault f => exact follows.2 n later

/-- If the ending is known, what is given before it is all that is given. -/
lemma Answers.item_iff {next : σ → Entry α × σ} {s : σ} {values : List α} {ending : Ending}
    (answers : Answers next s values ending) (ends : ending ≠ .more) {n : ℕ} :
    (∃ a, entryAt next s n = .item a) ↔ n < values.length := by
  refine ⟨?_, answers.item_of_lt⟩
  rintro ⟨a, given⟩
  rcases Nat.lt_trichotomy n values.length with inside | rfl | later
  · exact inside
  · have follows := answers.2
    cases ending with
    | more => exact absurd rfl ends
    | done => simp [follows _ (Nat.le_refl _)] at given
    | fault f => simp [follows.1] at given
  · simp [answers.done_of_gt ends later] at given

/-- To give some values and then nothing is to answer with them up to the end. -/
lemma gives_iff_answers {next : σ → Entry α × σ} {s : σ} {values : List α} :
    Gives next s values ↔ Answers next s values .done := by
  constructor
  · intro gives
    refine ⟨fun n a ha => ?_, fun k hk => ?_⟩
    · rw [gives n, ha, Option.elim_some]
    · rw [gives k, List.getElem?_eq_none hk, Option.elim_none]
  · rintro ⟨items, done⟩ n
    cases ha : values[n]? with
    | none => exact done n (List.getElem?_eq_none_iff.mp ha)
    | some a => exact items n a ha

lemma answers_fault {next : σ → Entry α × σ} {s s' : σ} {f : Fault} (h : next s = (.fault f, s'))
    (fixed : next s' = (.done, s')) : Answers next s [] (.fault f) := by
  refine ⟨by simp, by simp [entryAt, afterCalls, h], fun k hk => ?_⟩
  obtain ⟨k, rfl⟩ := Nat.exists_eq_succ_of_ne_zero (Nat.ne_of_gt hk)
  rw [entryAt_succ, h]
  exact gives_nil_of_fixed fixed k

/-- The ending is known, and the call that gives it comes to its own end. -/
def Ending.Reached : Ending → Prop
  | .more => False
  | .done => True
  | .fault f => f ≠ .endless

/-- At most so many values are given, and after them a fault or the end. -/
def EndsWithin (next : σ → Entry α × σ) (s : σ) (bound : ℕ) : Prop :=
  ∃ values ending, Answers next s values ending ∧ ending.Reached ∧ values.length ≤ bound

namespace EndsWithin

variable {next : σ → Entry α × σ} {s s' : σ} {bound : ℕ}

lemma congr {t : σ} (h : next s = next t) (ends : EndsWithin next t bound) :
    EndsWithin next s bound := by
  obtain ⟨values, ending, answers, reached, length⟩ := ends
  exact ⟨values, ending, (answers_congr h).mpr answers, reached, length⟩

lemma mono {bound' : ℕ} (ends : EndsWithin next s bound) (le : bound ≤ bound') :
    EndsWithin next s bound' := by
  obtain ⟨values, ending, answers, reached, length⟩ := ends
  exact ⟨values, ending, answers, reached, Nat.le_trans length le⟩

lemma done (h : next s = (.done, s')) (fixed : next s' = (.done, s')) : EndsWithin next s bound :=
  ⟨[], .done, answers_done h fixed, trivial, Nat.zero_le _⟩

lemma fault {f : Fault} (h : next s = (.fault f, s')) (fixed : next s' = (.done, s'))
    (reached : f ≠ .endless) : EndsWithin next s bound :=
  ⟨[], .fault f, answers_fault h fixed, reached, Nat.zero_le _⟩

lemma cons {a : α} (h : next s = (.item a, s')) (rest : EndsWithin next s' bound) :
    EndsWithin next s (bound + 1) := by
  obtain ⟨values, ending, answers, reached, length⟩ := rest
  exact ⟨a :: values, ending, answers_cons h answers, reached, Nat.succ_le_succ length⟩

/-- Every call of a sequence that ends comes to its own end. -/
lemma entryAt_ne_endless (ends : EndsWithin next s bound) (n : ℕ) :
    entryAt next s n ≠ .fault .endless := by
  obtain ⟨values, ending, answers, reached, -⟩ := ends
  have known : ending ≠ .more := by
    rintro rfl
    exact reached
  rcases Nat.lt_trichotomy n values.length with inside | rfl | later
  · obtain ⟨a, given⟩ := answers.item_of_lt inside
    simp [given]
  · have follows := answers.2
    cases ending with
    | more => contradiction
    | done => simp [follows _ (Nat.le_refl _)]
    | fault f =>
        rw [follows.1]
        exact fun same => reached (Entry.fault.inj same)
  · simp [answers.done_of_gt known later]

lemma of_no_item (noItem : ∀ a, (next s).1 ≠ .item a) (reached : (next s).1 ≠ .fault .endless)
    (fixed : next (next s).2 = (.done, (next s).2)) : EndsWithin next s bound := by
  cases given : (next s).1 with
  | item a => exact absurd given (noItem a)
  | fault f => exact .fault (Prod.ext given rfl) fixed fun same => reached (same ▸ given)
  | done => exact .done (Prod.ext given rfl) fixed

/-- A traversal that has come to rest once it gives no value, and gives none from some call on, ends
before that call. -/
lemma of_bounded
    (rests : ∀ s, (∀ a, (next s).1 ≠ .item a) → next (next s).2 = (.done, (next s).2))
    (reached : ∀ n, entryAt next s n ≠ .fault .endless)
    (bounded : ∀ n a, entryAt next s n = .item a → n < bound) : EndsWithin next s bound := by
  induction bound generalizing s with
  | zero =>
      have noItem : ∀ a, (next s).1 ≠ .item a :=
        fun a given => Nat.not_lt_zero 0 (bounded 0 a given)
      exact of_no_item noItem (reached 0) (rests s noItem)
  | succ bound ih =>
      cases given : (next s).1 with
      | item a =>
          refine .cons (Prod.ext given rfl) (ih (fun n => reached (n + 1)) fun n b later => ?_)
          exact Nat.lt_of_succ_lt_succ (bounded (n + 1) b later)
      | fault f | done =>
          have noItem : ∀ a, (next s).1 ≠ .item a := by simp [given]
          exact of_no_item noItem (reached 0) (rests s noItem)

end EndsWithin

/-- The calls give some values, and the call after them has a certain answer. -/
def GivesThen (next : σ → Entry α × σ) : σ → List α → Entry α × σ → Prop
  | s, [], answer => next s = answer
  | s, a :: values, answer => ∃ s', next s = (.item a, s') ∧ GivesThen next s' values answer

lemma givesThen_congr {next : σ → Entry α × σ} {s t : σ} {values : List α} {answer : Entry α × σ}
    (h : next s = next t) : GivesThen next s values answer ↔ GivesThen next t values answer := by
  cases values <;> simp only [GivesThen, h]

namespace GivesThen

variable {next : σ → Entry α × σ} {s s' : σ} {values : List α} {answer : Entry α × σ}

lemma gives (h : GivesThen next s values (.done, s')) (fixed : next s' = (.done, s')) :
    Gives next s values := by
  induction values generalizing s with
  | nil => exact gives_nil h fixed
  | cons a values ih =>
      obtain ⟨after, hfirst, hrest⟩ := h
      exact gives_cons hfirst (ih hrest)

lemma answers (h : GivesThen next s values answer) : Answers next s values .more := by
  induction values generalizing s with
  | nil => exact answers_more next s
  | cons a values ih =>
      obtain ⟨after, hfirst, hrest⟩ := h
      exact answers_cons hfirst (ih hrest)

lemma entryAt_length (h : GivesThen next s values answer) :
    entryAt next s values.length = answer.1 := by
  induction values generalizing s with
  | nil => exact congrArg Prod.fst h
  | cons a values ih =>
      obtain ⟨after, hfirst, hrest⟩ := h
      rw [List.length_cons, entryAt_succ, hfirst]
      exact ih hrest

end GivesThen

namespace Entry

variable {β : Type}

/-- An entry with something made of its value. -/
def map (g : α → β) : Entry α → Entry β
  | .item a => .item (g a)
  | .fault f => .fault f
  | .done => .done

def isItem : Entry α → Bool
  | .item _ => true
  | .fault _ | .done => false

lemma map_eq_done_iff {g : α → β} {entry : Entry α} : entry.map g = .done ↔ entry = .done := by
  cases entry <;> simp [map]

end Entry

/-! ## Logs -/

/-- What the first `n` calls log, in order, if a call from a state logs what is `said` there. -/
def logAfter (next : σ → Entry α × σ) (said : σ → List Event) (s : σ) (n : ℕ) : List Event :=
  (List.range n).flatMap fun k => said (afterCalls next s k)

lemma logAfter_succ (next : σ → Entry α × σ) (said : σ → List Event) (s : σ) (n : ℕ) :
    logAfter next said s (n + 1) = logAfter next said s n ++ said (afterCalls next s n) := by
  simp [logAfter, List.range_succ]

end Postmortem
