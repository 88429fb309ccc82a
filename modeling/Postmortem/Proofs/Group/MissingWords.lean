import Mathlib.Tactic.ByContra
import Postmortem.Proofs.Group.Encoding

/-!
# Slots that have no control word

The layout of a group is told from the number of its control words, so a group that is read has one
for every slot.  The decoders themselves take any list of words, and where it is too short they part.
The packed one sees nothing in fewer than two words.  The regular one looks for slots that are empty
and takes all others for occupied, those without a word among them.  No slot without a word is ever
taken for the end.

* `ControlLayout.MarksSlot` — the words say of a slot that it is occupied.
* `occupied_regular_iff`, `occupied_packed_iff` — what the decoders make of it.
* **`decoded_of_any_words`** — so words mark exactly the slots that they say are occupied, unless
  they are regular and fewer than fifteen.
-/

namespace Postmortem

namespace ControlLayout

/-- The words have one for the slot that is not zero; in the packed layout there are two of them, and
some lane of one of the two has the bit of the slot. -/
def MarksSlot : ControlLayout → List Word → ℕ → Prop
  | regular, control, i => ∃ word, control[i]? = some word ∧ word ≠ 0#64
  | packed, control, i => ∃ low high rest, control = low :: high :: rest ∧
      ∃ lane < 4, low.getLsbD (i + 16 * lane) = true ∨ high.getLsbD (i + 16 * lane) = true

variable {control : List Word} {i n slots : ℕ} {sentinel : Word}

/-- **The regular decoder marks the slots without a word too.** -/
lemma occupied_regular_iff : (regular.occupied control).getLsbD i = true ↔
    i ≤ 14 ∧ (control.length ≤ i ∨ regular.MarksSlot control i) := by
  rw [getLsbD_occupied_regular]
  refine and_congr Nat.lt_succ_iff ?_
  cases word : control[i]? with
  | none => simp [List.getElem?_eq_none_iff.mp word]
  | some word' =>
      obtain ⟨inside, -⟩ := List.getElem?_eq_some_iff.mp word
      simp [MarksSlot, word, Nat.not_le_of_lt inside]

/-- **The packed decoder marks nothing in fewer than two words.** -/
lemma occupied_packed_iff : (packed.occupied control).getLsbD i = true ↔
    i ≤ 14 ∧ packed.MarksSlot control i := by
  match control with
  | low :: high :: rest =>
      rw [getLsbD_occupied_packed]
      refine and_congr Nat.lt_succ_iff ⟨fun marked => ⟨low, high, rest, rfl, marked⟩, ?_⟩
      rintro ⟨_, _, _, ⟨⟩, marked⟩
      exact marked
  | [_] | [] => simp [occupied, MarksSlot]

/-- Regular words mark what they say is occupied if they are enough for all slots, and only then. -/
lemma occupied_regular_iff_marksSlot :
    (∀ i, (regular.occupied control).getLsbD i = true ↔
      i ≤ 14 ∧ regular.MarksSlot control i) ↔ 15 ≤ control.length := by
  constructor
  · intro faithful
    by_contra short
    -- the last slot has no word, and yet it is marked
    have missing : control.length ≤ 14 := by omega
    have marked := occupied_regular_iff.mpr ⟨Nat.le_refl 14, .inl missing⟩
    obtain ⟨-, word, held, -⟩ := (faithful 14).mp marked
    rw [List.getElem?_eq_none missing] at held
    contradiction
  · intro enough i
    rw [occupied_regular_iff]
    refine and_congr_right fun inside => or_iff_right ?_
    omega

lemma isSentinel_of_no_word (missing : control.length ≤ n) :
    regular.isSentinel control n slots sentinel = false := by
  rw [isSentinel, List.getElem?_eq_none missing]
  simp

lemma isSentinel_of_few_words (few : control.length < 2) :
    packed.isSentinel control n slots sentinel = false := by
  match control with
  | _ :: _ :: rest =>
      simp only [List.length_cons] at few
      omega
  | [_] | [] => simp [isSentinel]

end ControlLayout

open ControlLayout in
/-- **What the decoders make of any words.**  No slot above the fifteenth is ever marked.  Packed
words mark exactly the slots that they say are occupied, none if there are fewer than two.  Regular
words mark those and also every slot for which there is no word, so they mark exactly the slots that
they say are occupied if and only if there are fifteen of them or more.  A slot without a word, and a
packed group of fewer than two, is not the end of a table. -/
theorem decoded_of_any_words (control : List Word) :
    (∀ i, (regular.occupied control).getLsbD i = true ↔
      i ≤ 14 ∧ (control.length ≤ i ∨ regular.MarksSlot control i)) ∧
    ((∀ i, (regular.occupied control).getLsbD i = true ↔
      i ≤ 14 ∧ regular.MarksSlot control i) ↔ 15 ≤ control.length) ∧
    (∀ i, (packed.occupied control).getLsbD i = true ↔
      i ≤ 14 ∧ packed.MarksSlot control i) ∧
    ∀ n slots sentinel,
      (control.length ≤ n → regular.isSentinel control n slots sentinel = false) ∧
      (control.length < 2 → packed.isSentinel control n slots sentinel = false) :=
  ⟨fun _ => occupied_regular_iff, occupied_regular_iff_marksSlot, fun _ => occupied_packed_iff,
    fun _ _ _ => ⟨isSentinel_of_no_word, isSentinel_of_few_words⟩⟩

open ControlLayout in
theorem threeWords_decoded :
    (regular.occupied [5, 0, 7]).getLsbD 2 = true ∧ (regular.occupied [5, 0, 7]).getLsbD 3 = true ∧
      (packed.occupied [5, 0, 7]).getLsbD 2 = true ∧
      regular.isSentinel [5, 0, 7] 3 4 1#64 = false ∧
      packed.isSentinel [0x4000] 14 15 1#64 = false := by
  obtain ⟨bytes, -, lanes, ends⟩ := decoded_of_any_words [5, 0, 7]
  obtain ⟨-, -, -, ends'⟩ := decoded_of_any_words [0x4000]
  exact ⟨(bytes 2).mpr ⟨by decide, .inr ⟨7, rfl, by decide⟩⟩,
    (bytes 3).mpr ⟨by decide, .inl (by decide)⟩,
    (lanes 2).mpr ⟨by decide, 5, 0, [7], rfl, 0, by decide, .inl (by decide)⟩,
    (ends 3 4 1#64).1 (by decide), (ends' 14 15 1#64).2 (by decide)⟩

open ControlLayout in
/-- Of three regular words, slot 3 is marked, though there is no word for it. -/
theorem threeWords_mark_missing_slot :
    ¬ ∀ i, (regular.occupied [5, 0, 7]).getLsbD i = true ↔
      i ≤ 14 ∧ regular.MarksSlot [5, 0, 7] i := by
  intro faithful
  have marked : (regular.occupied [5, 0, 7]).getLsbD 3 = true := by decide
  obtain ⟨-, word, held, -⟩ := (faithful 3).mp marked
  contradiction

end Postmortem
