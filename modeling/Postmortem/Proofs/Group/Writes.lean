import Postmortem.Proofs.Group.Encoding

/-!
# Two layouts filled by the same writes

A group is filled by writing reduced hashes, one position at a time.  In the regular layout a write
replaces a byte; in the packed layout it sets and clears eight bits that are scattered over two
words.  Whoever reads the group afterwards sees the same slots and the same end in both.

* `controlBytes` — sixteen zero bytes after a sequence of writes, the last of which wins.
* `encodes_controlBytes`, `encodes_write` — both layouts hold the last hash that was written at
  each position.
* **`layouts_decode_alike`** — so the decoders of the two layouts agree on every slot.
-/

namespace Postmortem

/-- The control bytes of a group after a sequence of writes, a word for each. -/
def controlBytes (writes : List (ℕ × BitVec 8)) : List Word :=
  writes.foldl (fun control w => control.set w.1 (w.2.setWidth 64)) (List.replicate 16 0#64)

/-- A write puts one byte in the place of another. -/
lemma set_regularWords (bytes : ℕ → BitVec 8) (position : ℕ) (hash : BitVec 8) :
    (regularWords bytes).set position (hash.setWidth 64) =
      regularWords fun i => if i = position then hash else bytes i := by
  refine List.ext_getElem (by simp [regularWords]) fun i _ _ => ?_
  simp only [regularWords, List.getElem_set, List.getElem_map, List.getElem_range]
  by_cases h : position = i
  · simp [h]
  · simp [h, Ne.symm h]

lemma controlBytes_eq (writes : List (ℕ × BitVec 8)) :
    controlBytes writes = regularWords fun i => (lastHash? writes i).getD 0#8 := by
  -- the induction needs any bytes to start from, not only zeros
  suffices ∀ bytes : ℕ → BitVec 8,
      writes.foldl (fun control w => control.set w.1 (w.2.setWidth 64)) (regularWords bytes) =
        regularWords fun i => (lastHash? writes i).getD (bytes i)
    from this fun _ => 0#8
  induction writes with
  | nil => intro bytes; rfl
  | cons w writes ih =>
      intro bytes
      simp only [List.foldl_cons, set_regularWords, ih, getD_lastHash?_cons]

lemma encodes_controlBytes (writes : List (ℕ × BitVec 8)) :
    Encodes (fun i => (lastHash? writes i).getD 0#8) .regular (controlBytes writes) := by
  rw [controlBytes_eq]
  exact .regular

lemma encodes_write {writes : List (ℕ × BitVec 8)} (inside : ∀ w ∈ writes, w.1 < 16) :
    Encodes (fun i => (lastHash? writes i).getD 0#8) .packed (PackedControl.empty.write writes).toList :=
  .packed inside fun _ _ => rfl

lemma Encodes.isSentinel_fifteen {bytes : ℕ → BitVec 8} {layout : ControlLayout}
    {words : List Word} (h : Encodes bytes layout words) (n : ℕ) :
    layout.isSentinel words n 15 1#64 = decide (n = 14 ∧ bytes 14 = 1#8) := by
  by_cases hn : n = 14
  · subst hn
    exact h.isSentinel (by decide)
  · rw [ControlLayout.isSentinel_of_ne layout words 1#64 (by omega)]
    simp [hn]

/-- **The two layouts decode alike.**  After the same writes both mark the slots whose last hash is
not zero, and both see the end in slot 14 of fifteen exactly if its last hash is one. -/
theorem layouts_decode_alike {writes : List (ℕ × BitVec 8)} (inside : ∀ w ∈ writes, w.1 < 16) :
    ControlLayout.regular.occupied (controlBytes writes) =
        ControlLayout.packed.occupied (PackedControl.empty.write writes).toList ∧
      (∀ i, (ControlLayout.regular.occupied (controlBytes writes)).getLsbD i =
        decide (i ≤ 14 ∧ (lastHash? writes i).getD 0#8 ≠ 0#8)) ∧
      ∀ n,
        ControlLayout.regular.isSentinel (controlBytes writes) n 15 1#64 =
          ControlLayout.packed.isSentinel (PackedControl.empty.write writes).toList n 15 1#64 ∧
        (ControlLayout.regular.isSentinel (controlBytes writes) n 15 1#64 = true ↔
          n = 14 ∧ (lastHash? writes 14).getD 0#8 = 1#8) := by
  have hregular := encodes_controlBytes writes
  have hpacked := encodes_write inside
  refine ⟨?_, ?_, ?_⟩
  · refine BitVec.eq_of_getLsbD_eq fun i _ => ?_
    rw [hregular.getLsbD_occupied, hpacked.getLsbD_occupied]
  · intro i
    rw [hregular.getLsbD_occupied]
    exact decide_eq_decide.mpr (and_congr_left' Nat.lt_succ_iff)
  · intro n
    rw [hregular.isSentinel_fifteen, hpacked.isSentinel_fifteen]
    exact ⟨rfl, decide_eq_true_iff⟩

/-- Writes that clear a slot, use half a hash, and leave the end to the last of three. -/
def overwritingWrites : List (ℕ × BitVec 8) :=
  [(2, 0x10), (14, 0xFE), (5, 0x03), (15, 0xFF), (2, 0x0F), (9, 0x80), (5, 0x00), (14, 0x01)]

theorem overwritingWrites_decoded_alike :
    (∀ w ∈ overwritingWrites, w.1 < 16) ∧
      ControlLayout.packed.occupied (PackedControl.empty.write overwritingWrites).toList =
        0b100001000000100#32 ∧
      ControlLayout.regular.occupied (controlBytes overwritingWrites) = 0b100001000000100#32 ∧
      ControlLayout.packed.isSentinel (PackedControl.empty.write overwritingWrites).toList 14 15 1#64 =
        true := by
  have inside : ∀ w ∈ overwritingWrites, w.1 < 16 := by decide
  obtain ⟨masks, -, ends⟩ := layouts_decode_alike inside
  have regular : ControlLayout.regular.occupied (controlBytes overwritingWrites) =
      0b100001000000100#32 := by decide
  have last : (lastHash? overwritingWrites 14).getD 0#8 = 1#8 := by decide
  exact ⟨inside, masks ▸ regular, regular, (ends 14).1 ▸ (ends 14).2.mpr ⟨rfl, last⟩⟩

end Postmortem
