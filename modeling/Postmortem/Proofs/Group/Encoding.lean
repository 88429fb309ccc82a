import Mathlib.Data.Nat.Notation
import Mathlib.Tactic.IntervalCases
import Mathlib.Tactic.Lemma
import Postmortem.Group.Control

/-!
# Sixteen bytes in control words

Both layouts of control words hold the same thing: a byte for each of sixteen positions.  The
regular one has a word for each byte; the packed one scatters the bits of a byte over the lanes of
two words.

* `PackedControl.bit` / `PackedControl.get` — bit `b` of the byte at a position is in lane `b % 4`
  of word `b / 4`, and the byte is made of its eight bits.
* **`PackedControl.get_set`** — a byte that is set is read back, and no other byte changes.
* `lastHash?` — the hash that a sequence of writes last stores at a position.
* `PackedControl.write` — the words after a sequence of writes; **`PackedControl.get_write`**, each
  byte is the last hash at its position, or the one that was there before.
* `getLsbD_occupied_regular`, `getLsbD_occupied_packed` — what the decoders make of any words.
* `Encodes` — words hold sixteen bytes, in one of the two layouts.
* **`Encodes.getLsbD_occupied`**, **`Encodes.isSentinel`** — what the decoders see of the bytes: a
  slot is marked if its byte is not zero, and is the end if it is the last and its byte is one.
-/

namespace Postmortem

/-! ## Bytes of packed words -/

namespace PackedControl

/-- Bit `b` of the byte at a position. -/
def bit (c : PackedControl) (position b : ℕ) : Bool :=
  (if b < 4 then c.low else c.high).getLsbD (position + 16 * (b % 4))

/-- The byte at a position. -/
def get (c : PackedControl) (position : ℕ) : BitVec 8 :=
  BitVec.ofBoolListLE [c.bit position 0, c.bit position 1, c.bit position 2, c.bit position 3,
    c.bit position 4, c.bit position 5, c.bit position 6, c.bit position 7]

lemma getLsbD_get (c : PackedControl) (position : ℕ) {b : ℕ} (hb : b < 8) :
    (c.get position).getLsbD b = c.bit position b := by
  rw [get, BitVec.getLsbD_ofBoolListLE]
  interval_cases b <;> rfl

lemma get_eq_iff {c : PackedControl} {position : ℕ} {byte : BitVec 8} :
    c.get position = byte ↔ ∀ b < 8, c.bit position b = byte.getLsbD b := by
  constructor
  · rintro rfl b hb
    rw [getLsbD_get c position hb]
  · intro h
    refine BitVec.eq_of_getLsbD_eq fun b hb => ?_
    rw [getLsbD_get c position hb, h b hb]

end PackedControl

/-! ### Setting a byte -/

lemma getLsbD_setLanes (word : Word) {position : ℕ} (inside : position < 16) (hash : BitVec 8)
    (start : ℕ) {i lane : ℕ} (hi : i < 16) (hlane : lane < 4) :
    (setLanes word position hash start).getLsbD (i + 16 * lane) =
      if i = position then hash.getLsbD (start + lane) else word.getLsbD (i + 16 * lane) := by
  have hrange : List.range 4 = [0, 1, 2, 3] := rfl
  have same : ∀ k < 4, (i + 16 * lane = position + 16 * k ∧ position + 16 * k < 64) ↔
      i = position ∧ lane = k := by
    omega
  simp only [setLanes, hrange, List.foldl_cons, List.foldl_nil, getLsbD_setBit, same 0 (by decide),
    same 1 (by decide), same 2 (by decide), same 3 (by decide)]
  -- of the four bits that were set, the one in this lane is the only one that can be meant
  interval_cases lane <;> simp

namespace PackedControl

lemma bit_set (c : PackedControl) {position : ℕ} (inside : position < 16) (hash : BitVec 8)
    {i b : ℕ} (hi : i < 16) (hb : b < 8) :
    (c.set position hash).bit i b = if i = position then hash.getLsbD b else c.bit i b := by
  have hlane : b % 4 < 4 := Nat.mod_lt _ (by decide)
  rw [bit, bit, set]
  by_cases low : b < 4
  · rw [if_pos low, if_pos low, getLsbD_setLanes _ inside _ _ hi hlane, Nat.zero_add,
      Nat.mod_eq_of_lt low]
  · rw [if_neg low, if_neg low, getLsbD_setLanes _ inside _ _ hi hlane,
      show 4 + b % 4 = b by omega]

/-- **A byte that is set is read back, and no other byte changes.** -/
lemma get_set (c : PackedControl) {position : ℕ} (inside : position < 16) (hash : BitVec 8)
    {i : ℕ} (hi : i < 16) :
    (c.set position hash).get i = if i = position then hash else c.get i := by
  rw [get_eq_iff]
  intro b hb
  rw [bit_set c inside hash hi hb]
  split
  · rfl
  · rw [getLsbD_get c i hb]

lemma get_empty (i : ℕ) : empty.get i = 0#8 := by
  rw [get_eq_iff]
  intro b _
  simp [bit, empty]

end PackedControl

/-! ### Sequences of writes -/

/-- The hash of the last write at a position, if there is one. -/
def lastHash? (writes : List (ℕ × BitVec 8)) (i : ℕ) : Option (BitVec 8) :=
  ((writes.filter fun w => w.1 = i).map Prod.snd).getLast?

lemma lastHash?_append (writes later : List (ℕ × BitVec 8)) (i : ℕ) :
    lastHash? (writes ++ later) i = (lastHash? later i).or (lastHash? writes i) := by
  rw [lastHash?, List.filter_append, List.map_append, List.getLast?_append]
  rfl

lemma lastHash?_cons (w : ℕ × BitVec 8) (later : List (ℕ × BitVec 8)) (i : ℕ) :
    lastHash? (w :: later) i = (lastHash? later i).or (if w.1 = i then some w.2 else none) := by
  rw [← List.singleton_append, lastHash?_append]
  by_cases here : w.1 = i <;> simp [lastHash?, here]

/-- The first write is what the later ones are laid over. -/
lemma getD_lastHash?_cons (w : ℕ × BitVec 8) (later : List (ℕ × BitVec 8)) (i : ℕ)
    (byte : BitVec 8) :
    (lastHash? (w :: later) i).getD byte =
      (lastHash? later i).getD (if i = w.1 then w.2 else byte) := by
  rw [lastHash?_cons, Option.getD_or]
  by_cases here : w.1 = i
  · rw [if_pos here, if_pos here.symm, Option.getD_some]
  · rw [if_neg here, if_neg (Ne.symm here), Option.getD_none]

namespace PackedControl

/-- The words after a sequence of writes. -/
def write (c : PackedControl) (writes : List (ℕ × BitVec 8)) : PackedControl :=
  writes.foldl (fun c w => c.set w.1 w.2) c

/-- **What is read after some writes is the last hash, or the byte that was there before.** -/
lemma get_write {writes : List (ℕ × BitVec 8)} (inside : ∀ w ∈ writes, w.1 < 16)
    (c : PackedControl) {i : ℕ} (hi : i < 16) :
    (c.write writes).get i = (lastHash? writes i).getD (c.get i) := by
  induction writes generalizing c with
  | nil => rfl
  | cons w writes ih =>
      rw [List.forall_mem_cons] at inside
      have rest := ih inside.2 (c.set w.1 w.2)
      rwa [get_set c inside.1 w.2 hi, ← getD_lastHash?_cons] at rest

/-- Words that were empty hold the last hashes and zeros. -/
lemma get_empty_write {writes : List (ℕ × BitVec 8)} (inside : ∀ w ∈ writes, w.1 < 16)
    {i : ℕ} (hi : i < 16) : (empty.write writes).get i = (lastHash? writes i).getD 0#8 := by
  rw [get_write inside empty hi, get_empty]

end PackedControl

/-! ## What the decoders see -/

namespace ControlLayout

/-- **A regular slot is marked unless its word is there and is zero.** -/
lemma getLsbD_occupied_regular {control : List Word} {i : ℕ} :
    (regular.occupied control).getLsbD i = true ↔ i < 15 ∧ control[i]? ≠ some 0#64 := by
  show (~~~ emptyMask control &&& elementSlots).getLsbD i = true ↔ _
  rw [BitVec.getLsbD_and, BitVec.getLsbD_not, getLsbD_emptyMask, getLsbD_elementSlots]
  by_cases hi : i < 15
  · have h16 : i < 16 := by omega
    have h32 : i < 32 := by omega
    simp [hi, h16, h32]
  · simp [hi]

/-- **A packed slot is marked if a lane of one of the words marks it.** -/
lemma getLsbD_occupied_packed {low high : Word} {rest : List Word} {i : ℕ} :
    (packed.occupied (low :: high :: rest)).getLsbD i = true ↔
      i < 15 ∧ ∃ lane < 4, low.getLsbD (i + 16 * lane) = true ∨
        high.getLsbD (i + 16 * lane) = true := by
  have lanes : (∃ lane < 4, low.getLsbD (i + 16 * lane) = true ∨
      high.getLsbD (i + 16 * lane) = true) ↔
      ((low ||| high).getLsbD i || (low ||| high).getLsbD (i + 16) ||
        (low ||| high).getLsbD (i + 32) || (low ||| high).getLsbD (i + 48)) = true := by
    simp only [Bool.or_eq_true, BitVec.getLsbD_or]
    constructor
    · rintro ⟨lane, hlane, h⟩
      interval_cases lane
      exacts [.inl (.inl (.inl h)), .inl (.inl (.inr h)), .inl (.inr h), .inr h]
    · rintro (((h | h) | h) | h)
      exacts [⟨0, by decide, h⟩, ⟨1, by decide, h⟩, ⟨2, by decide, h⟩, ⟨3, by decide, h⟩]
  show (foldLanes (low ||| high) &&& elementSlots).getLsbD i = true ↔ _
  rw [lanes, BitVec.getLsbD_and, getLsbD_foldLanes, getLsbD_elementSlots, Bool.and_eq_true,
    Bool.and_eq_true, decide_eq_true_eq, decide_eq_true_eq]
  constructor
  · exact fun ⟨⟨_, marked⟩, inside⟩ => ⟨inside, marked⟩
  · exact fun ⟨inside, marked⟩ => ⟨⟨by omega, marked⟩, inside⟩

end ControlLayout

namespace PackedControl

/-- The eight bits of a byte, those of one lane together. -/
lemma forall_bit_iff {c : PackedControl} {position : ℕ} {byte : BitVec 8} :
    (∀ b < 8, c.bit position b = byte.getLsbD b) ↔ ∀ lane < 4,
      c.low.getLsbD (position + 16 * lane) = byte.getLsbD lane ∧
        c.high.getLsbD (position + 16 * lane) = byte.getLsbD (lane + 4) := by
  constructor
  · intro h lane hlane
    have hlow := h lane (by omega)
    have hhigh := h (lane + 4) (by omega)
    rw [bit, if_pos hlane, Nat.mod_eq_of_lt hlane] at hlow
    rw [bit, if_neg (by omega), Nat.add_mod_right, Nat.mod_eq_of_lt hlane] at hhigh
    exact ⟨hlow, hhigh⟩
  · intro h b hb
    rw [bit]
    by_cases low : b < 4
    · rw [if_pos low, Nat.mod_eq_of_lt low]
      exact (h b low).1
    · obtain ⟨-, hhigh⟩ := h (b % 4) (by omega)
      rw [if_neg low, hhigh, show b % 4 + 4 = b by omega]

lemma getLsbD_occupied (c : PackedControl) (i : ℕ) :
    (ControlLayout.packed.occupied c.toList).getLsbD i = decide (i < 15 ∧ c.get i ≠ 0#8) := by
  rw [Bool.eq_iff_iff, decide_eq_true_eq, toList, ControlLayout.getLsbD_occupied_packed]
  refine and_congr_right fun _ => ?_
  rw [ne_eq, get_eq_iff, forall_bit_iff]
  simp [or_iff_not_imp_left]

lemma getLsbD_lastSlotLanes (i : ℕ) :
    lastSlotLanes.getLsbD i = decide (i < 64 ∧ i % 16 = 14) := by
  rcases Nat.lt_or_ge i 64 with h | h
  · simp only [lastSlotLanes]
    decide +revert
  · rw [BitVec.getLsbD_of_ge _ _ h]
    exact (decide_eq_false (by omega)).symm

/-- What a word holds of the last slot's byte, compared with four bits of another. -/
lemma and_lastSlotLanes_eq_iff {word lanes : Word} (masked : lanes &&& lastSlotLanes = lanes) :
    word &&& lastSlotLanes = lanes ↔
      ∀ lane < 4, word.getLsbD (14 + 16 * lane) = lanes.getLsbD (14 + 16 * lane) := by
  constructor
  · rintro rfl lane hlane
    rw [BitVec.getLsbD_and, getLsbD_lastSlotLanes, decide_eq_true (by omega), Bool.and_true]
  · intro h
    rw [← masked]
    refine BitVec.eq_of_getLsbD_eq fun i hi => ?_
    rw [BitVec.getLsbD_and, BitVec.getLsbD_and, getLsbD_lastSlotLanes]
    by_cases hslot : i % 16 = 14
    · have hlane := h (i / 16) (by omega)
      rw [show 14 + 16 * (i / 16) = i by omega] at hlane
      rw [hlane]
    · simp [hslot]

/-- **The packed decoder knows one end only, a byte of one in slot 14.** -/
lemma isSentinel_toList (c : PackedControl) (n slots : ℕ) (sentinel : Word) :
    ControlLayout.packed.isSentinel c.toList n slots sentinel =
      decide (n + 1 = slots ∧ c.get 14 = 1#8) := by
  have hone : c.get 14 = 1#8 ↔
      c.low &&& lastSlotLanes = 0x4000#64 ∧ c.high &&& lastSlotLanes = 0#64 := by
    rw [and_lastSlotLanes_eq_iff (by decide), and_lastSlotLanes_eq_iff (by decide), get_eq_iff,
      forall_bit_iff, ← forall₂_and]
    refine forall₂_congr fun lane hlane => ?_
    interval_cases lane <;> rfl
  show (n + 1 == slots &&
    (c.low &&& lastSlotLanes == 0x4000#64 && c.high &&& lastSlotLanes == 0#64)) = _
  rw [Bool.eq_iff_iff]
  simp only [Bool.and_eq_true, beq_iff_eq, decide_eq_true_eq, hone]

end PackedControl

/-- The words that hold one byte for each position. -/
def regularWords (bytes : ℕ → BitVec 8) : List Word :=
  (List.range 16).map fun i => (bytes i).setWidth 64

lemma getElem?_regularWords (bytes : ℕ → BitVec 8) {i : ℕ} (hi : i < 16) :
    (regularWords bytes)[i]? = some ((bytes i).setWidth 64) := by
  rw [regularWords, List.getElem?_map, List.getElem?_range hi, Option.map_some]

lemma setWidth_eq_ofNat_iff {byte : BitVec 8} {n : ℕ} (hn : n < 256) :
    byte.setWidth 64 = BitVec.ofNat 64 n ↔ byte = BitVec.ofNat 8 n := by
  have hbyte := byte.isLt
  rw [← BitVec.toNat_inj, ← BitVec.toNat_inj, BitVec.toNat_setWidth, BitVec.toNat_ofNat,
    BitVec.toNat_ofNat]
  omega

lemma getLsbD_occupied_regularWords (bytes : ℕ → BitVec 8) (i : ℕ) :
    (ControlLayout.regular.occupied (regularWords bytes)).getLsbD i =
      decide (i < 15 ∧ bytes i ≠ 0#8) := by
  rw [Bool.eq_iff_iff, decide_eq_true_eq, ControlLayout.getLsbD_occupied_regular]
  refine and_congr_right fun hi => ?_
  have hzero : (bytes i).setWidth 64 = 0#64 ↔ bytes i = 0#8 := setWidth_eq_ofNat_iff (by decide)
  rw [getElem?_regularWords bytes (by omega), ne_eq, Option.some.injEq, hzero]

lemma isSentinel_regularWords (bytes : ℕ → BitVec 8) {n : ℕ} (hn : n < 16) (slots : ℕ) :
    ControlLayout.regular.isSentinel (regularWords bytes) n slots 1#64 =
      decide (n + 1 = slots ∧ bytes n = 1#8) := by
  show (n + 1 == slots && (regularWords bytes)[n]? == some 1#64) = _
  have hone : (bytes n).setWidth 64 = 1#64 ↔ bytes n = 1#8 := setWidth_eq_ofNat_iff (by decide)
  rw [getElem?_regularWords bytes hn, Bool.eq_iff_iff]
  simp only [Bool.and_eq_true, beq_iff_eq, Option.some.injEq, hone, decide_eq_true_eq]

/-! ## Words that hold sixteen bytes -/

namespace ControlLayout

/-- The number of control words of a group. -/
def length : ControlLayout → ℕ
  | regular => 16
  | packed => 2

/-- The number of bytes that a control word has. -/
def wordSize : ControlLayout → ℕ
  | regular => 1
  | packed => 8

end ControlLayout

/-- Control words hold these bytes: a word for each, or two empty words filled with them by any
sequence of writes. -/
inductive Encodes (bytes : ℕ → BitVec 8) : ControlLayout → List Word → Prop
  | regular : Encodes bytes .regular (regularWords bytes)
  | packed {writes : List (ℕ × BitVec 8)} (inside : ∀ w ∈ writes, w.1 < 16)
      (last : ∀ i < 16, (lastHash? writes i).getD 0#8 = bytes i) :
      Encodes bytes .packed (PackedControl.empty.write writes).toList

namespace Encodes

variable {bytes : ℕ → BitVec 8} {layout : ControlLayout} {words : List Word}

lemma length_eq (h : Encodes bytes layout words) : words.length = layout.length := by
  cases h with
  | regular => rw [regularWords, List.length_map, List.length_range]; rfl
  | packed => rfl

/-- Every control word fits into the bytes it has. -/
lemma toNat_lt (h : Encodes bytes layout words) :
    ∀ word ∈ words, word.toNat < Nat.pow 256 layout.wordSize := by
  cases h with
  | regular =>
      intro word hword
      obtain ⟨i, -, rfl⟩ := List.mem_map.mp hword
      have hbyte := (bytes i).isLt
      rw [BitVec.toNat_setWidth]
      show _ < 256
      omega
  | packed =>
      intro word _
      exact word.isLt

/-- **A slot is marked exactly if its byte is not zero.** -/
lemma getLsbD_occupied (h : Encodes bytes layout words) (i : ℕ) :
    (layout.occupied words).getLsbD i = decide (i < 15 ∧ bytes i ≠ 0#8) := by
  cases h with
  | regular => exact getLsbD_occupied_regularWords bytes i
  | @packed writes inside last =>
      rw [PackedControl.getLsbD_occupied]
      refine decide_eq_decide.mpr (and_congr_right fun hi => ?_)
      rw [PackedControl.get_empty_write inside (by omega), last i (by omega)]

/-- A regular group ends with its last slot if the byte of that slot is one. -/
lemma isSentinel_of_regular (h : Encodes bytes .regular words) {n : ℕ} (hn : n < 16) (slots : ℕ) :
    ControlLayout.regular.isSentinel words n slots 1#64 =
      decide (n + 1 = slots ∧ bytes n = 1#8) := by
  cases h with
  | regular => exact isSentinel_regularWords bytes hn slots

/-- A packed group ends with its last slot if the byte of slot 14 is one. -/
lemma isSentinel_of_packed (h : Encodes bytes .packed words) (n slots : ℕ) :
    ControlLayout.packed.isSentinel words n slots 1#64 =
      decide (n + 1 = slots ∧ bytes 14 = 1#8) := by
  cases h with
  | packed inside last =>
      rw [PackedControl.isSentinel_toList, PackedControl.get_empty_write inside (by decide),
        last 14 (by decide)]

/-- **Slot 14 is the end of a group of fifteen exactly if its byte is one.** -/
lemma isSentinel (h : Encodes bytes layout words) {n : ℕ} (hn : n < 16) :
    layout.isSentinel words n 15 1#64 = decide (n = 14 ∧ bytes n = 1#8) := by
  cases layout with
  | regular =>
      rw [h.isSentinel_of_regular hn]
      exact decide_eq_decide.mpr (and_congr_left' (by omega))
  | packed =>
      rw [h.isSentinel_of_packed]
      refine decide_eq_decide.mpr ⟨?_, ?_⟩
      · rintro ⟨hn, hone⟩
        obtain rfl : n = 14 := by omega
        exact ⟨rfl, hone⟩
      · rintro ⟨rfl, hone⟩
        exact ⟨rfl, hone⟩

end Encodes

end Postmortem
