import Postmortem.Proofs.Group.Encoding

/-!
# Packed words are sixteen bytes

The two words of a packed group have as many bits as sixteen bytes.  Although each write scatters
eight of them over both words, nothing is lost: the words are the bytes in another order, whatever
they held before the first write.

* `lastHash?_exchange`, `lastHash?_overwritten` — the last hash at each position is the same if writes
  at different positions are exchanged, or one that is overwritten later is left out.
* **`PackedControl.eq_of_get_eq`** — words with the same sixteen bytes are equal, so
  **`PackedControl.write_congr`**: sequences of writes that end alike at every position do the same.
* **`packed_words_are_sixteen_bytes`** — hence writes at different positions can be exchanged, and one
  that is overwritten later can be left out.
-/

namespace Postmortem

/-! ## The last hash of a position -/

lemma lastHash?_eq_none_iff {writes : List (ℕ × BitVec 8)} {i : ℕ} :
    lastHash? writes i = none ↔ ∀ w ∈ writes, w.1 ≠ i := by
  simp [lastHash?]

/-- Writes at different positions can be exchanged. -/
lemma lastHash?_exchange (before after : List (ℕ × BitVec 8)) {w w' : ℕ × BitVec 8}
    (apart : w.1 ≠ w'.1) (i : ℕ) :
    lastHash? (before ++ w' :: w :: after) i = lastHash? (before ++ w :: w' :: after) i := by
  simp only [lastHash?_append, lastHash?_cons, Option.or_assoc]
  -- at most one of the two is at this position
  by_cases here : w.1 = i
  · have elsewhere : w'.1 ≠ i := fun there => apart (here.trans there.symm)
    simp [here, elsewhere]
  · simp [here]

/-- A write can be left out if a later one is at its position. -/
lemma lastHash?_overwritten (before : List (ℕ × BitVec 8)) {w : ℕ × BitVec 8}
    {after : List (ℕ × BitVec 8)} (later : ∃ w' ∈ after, w'.1 = w.1) (i : ℕ) :
    lastHash? (before ++ after) i = lastHash? (before ++ w :: after) i := by
  rw [lastHash?_append, lastHash?_append, lastHash?_cons]
  by_cases here : w.1 = i
  · obtain ⟨w', mem, same⟩ := later
    have written : lastHash? after i ≠ none := fun unwritten =>
      lastHash?_eq_none_iff.mp unwritten w' mem (same.trans here)
    obtain ⟨hash, last⟩ := Option.ne_none_iff_exists'.mp written
    rw [last, Option.some_or, Option.some_or, Option.some_or]
  · rw [if_neg here, Option.or_none]

/-! ## Words with the same bytes -/

namespace PackedControl

/-- Words whose bytes agree at a position agree in the four lanes there. -/
lemma lanes_eq_of_get_eq {c c' : PackedControl} {position lane : ℕ}
    (same : c.get position = c'.get position) (hlane : lane < 4) :
    c.low.getLsbD (position + 16 * lane) = c'.low.getLsbD (position + 16 * lane) ∧
      c.high.getLsbD (position + 16 * lane) = c'.high.getLsbD (position + 16 * lane) := by
  obtain ⟨low, high⟩ := forall_bit_iff.mp (get_eq_iff.mp same) lane hlane
  obtain ⟨low', high'⟩ := forall_bit_iff.mp (get_eq_iff.mp rfl) lane hlane
  exact ⟨low.trans low'.symm, high.trans high'.symm⟩

/-- **Words with the same sixteen bytes are equal.** -/
lemma eq_of_get_eq {c c' : PackedControl} (same : ∀ i < 16, c.get i = c'.get i) : c = c' := by
  -- each of the 64 bits of a word is in a lane of one of the sixteen positions
  have bits : ∀ j < 64,
      c.low.getLsbD j = c'.low.getLsbD j ∧ c.high.getLsbD j = c'.high.getLsbD j := by
    intro j hj
    have lane : j / 16 < 4 := by omega
    have agree := lanes_eq_of_get_eq (same (j % 16) (Nat.mod_lt j (by decide))) lane
    rwa [Nat.mod_add_div] at agree
  cases c
  cases c'
  congr 1
  · exact BitVec.eq_of_getLsbD_eq fun j hj => (bits j hj).1
  · exact BitVec.eq_of_getLsbD_eq fun j hj => (bits j hj).2

/-- **Only the last hash at each position counts.** -/
lemma write_congr {writes others : List (ℕ × BitVec 8)} (inside : ∀ w ∈ writes, w.1 < 16)
    (inside' : ∀ w ∈ others, w.1 < 16) (same : ∀ i, lastHash? others i = lastHash? writes i)
    (c : PackedControl) : c.write others = c.write writes := by
  refine eq_of_get_eq fun i hi => ?_
  rw [get_write inside' c hi, get_write inside c hi, same]

end PackedControl

/-! ## A store of sixteen bytes -/

/-- **Packed words are sixteen bytes.**  After any writes at the sixteen positions the byte at each is
the last hash that was written there, or the one that the words held before.  Words with the same
sixteen bytes are equal.  So two writes at different positions, one right after the other, can be
exchanged, and a write is of no account if there is a later one at its position. -/
theorem packed_words_are_sixteen_bytes (c : PackedControl) {writes : List (ℕ × BitVec 8)}
    (inside : ∀ w ∈ writes, w.1 < 16) :
    (∀ i < 16, (c.write writes).get i = (lastHash? writes i).getD (c.get i)) ∧
    (∀ c' : PackedControl, (∀ i < 16, c'.get i = c.get i) → c' = c) ∧
    (∀ before w w' after, writes = before ++ w :: w' :: after → w.1 ≠ w'.1 →
      c.write (before ++ w' :: w :: after) = c.write writes) ∧
    ∀ before w after, writes = before ++ w :: after → (∃ w' ∈ after, w'.1 = w.1) →
      c.write (before ++ after) = c.write writes := by
  refine ⟨fun i hi => PackedControl.get_write inside c hi,
    fun c' same => PackedControl.eq_of_get_eq same, ?_, ?_⟩
  · rintro before w w' after rfl apart
    have exchanged : (before ++ w' :: w :: after).Perm (before ++ w :: w' :: after) :=
      (List.Perm.swap w w' after).append_left before
    exact PackedControl.write_congr inside (fun x hx => inside x (exchanged.mem_iff.mp hx))
      (lastHash?_exchange before after apart) c
  · rintro before w after rfl later
    have fewer : (before ++ after).Sublist (before ++ w :: after) :=
      (List.sublist_cons_self w after).append_left before
    exact PackedControl.write_congr inside (fun x hx => inside x (fewer.mem hx))
      (lastHash?_overwritten before later) c

/-- Words that have bits in both halves of most bytes. -/
def usedWords : PackedControl :=
  ⟨0xFFFFFFFFFFFFFFFF, 0x0123456789ABCDEF⟩

/-- Writes that clear a byte, mark the last one, and swap the halves of a hash. -/
def crossingWrites : List (ℕ × BitVec 8) :=
  [(2, 0xF0), (15, 0x80), (2, 0x0F), (0, 0x00)]

theorem crossingWrites_read_back :
    (∀ w ∈ crossingWrites, w.1 < 16) ∧
      (usedWords.write crossingWrites).get 2 = 0x0F#8 ∧
      (usedWords.write crossingWrites).get 0 = 0x00#8 ∧
      (usedWords.write crossingWrites).get 4 = usedWords.get 4 ∧
      usedWords.set 4 (usedWords.get 4) = usedWords ∧
      usedWords.write [(15, 0x80), (2, 0xF0), (2, 0x0F), (0, 0x00)] =
        usedWords.write crossingWrites ∧
      usedWords.write [(15, 0x80), (2, 0x0F), (0, 0x00)] = usedWords.write crossingWrites := by
  have inside : ∀ w ∈ crossingWrites, w.1 < 16 := by decide
  obtain ⟨read, determined, exchanged, overwritten⟩ :=
    packed_words_are_sixteen_bytes usedWords inside
  have rewritten : ∀ i < 16, (usedWords.set 4 (usedWords.get 4)).get i = usedWords.get i := by
    decide
  exact ⟨inside, read 2 (by decide), read 0 (by decide), read 4 (by decide),
    determined _ rewritten, exchanged [] (2, 0xF0) (15, 0x80) _ rfl (by decide),
    overwritten [] (2, 0xF0) _ rfl ⟨(2, 0x0F), by decide, rfl⟩⟩

end Postmortem
