import Postmortem.Word

/-!
# Control words: which slots of a group are occupied

Beside the elements of an open-addressing table lie groups of control words, which say of each slot
whether it holds an element.  They come in two encodings of the same sixteen reduced hashes.

The regular layout has one control byte per slot: 0 for an empty slot, the sentinel for the end of
the table, otherwise a reduced hash.  The packed layout spreads every reduced hash over two 64-bit
words, one half of the hash in each, one bit of that half in each 16-bit lane.

* `ControlLayout` — the encoding; `ControlLayout.ofLength?` tells it from the number of words.
* `ControlLayout.occupied` — the mask of slots that are not empty, the sentinel among them.  Only 15
  slots can hold elements, so the sixteenth position never shows.
* `ControlLayout.isSentinel` — a slot is the last of its group and marks the end of the table.
* `lowestSlot` — the first slot of a mask.
* `PackedControl` — the two words of a packed group, with `set` to store a reduced hash.

**`getLsbD_emptyMask`** and **`getLsbD_foldLanes`** say bit by bit what the two decoders compute.
The regular one clears the slots that it sees to be empty, so a slot for which there is no control
word counts as occupied.
-/

namespace Postmortem

/-! ## Masks -/

/-- A set of slots of one group, bit `i` for slot `i`. -/
abbrev Mask := BitVec 32

/-- All slots that can hold an element. -/
def elementSlots : Mask :=
  0x7FFF#32

/-- The slots from `slot` on. -/
def Mask.after (mask : Mask) (slot : Nat) : Mask :=
  (mask >>> (slot + 1)) <<< (slot + 1)

/-- The first slot of a mask, or 32 if there is none. -/
def lowestSlot (mask : Mask) : Nat :=
  ((List.range 32).find? fun slot => mask.getLsbD slot).getD 32

/-! ## Layouts -/

/-- How a group stores its control data. -/
inductive ControlLayout where
  /-- Sixteen words, one for each position. -/
  | regular
  /-- Two 64-bit words, each holding half of every reduced hash. -/
  | packed
  deriving Repr, DecidableEq

/-- The positions, of the first sixteen, that hold a zero word. -/
def emptyMask (control : List Word) : Mask :=
  (BitVec.ofBoolListLE ((control.take 16).map (· == 0))).setWidth 32

/-- The positions with a bit in some 16-bit lane of a word. -/
def foldLanes (word : Word) : Mask :=
  let halves := word ||| (word >>> 32)
  (halves ||| (halves >>> 16)).setWidth 32

/-- Bit 14 of every lane of a word: what it holds of the last slot's reduced hash. -/
def lastSlotLanes : Word :=
  0x4000400040004000#64

namespace ControlLayout

/-- The layout of a control array of this length. -/
def ofLength? : Nat → Option ControlLayout
  | 16 => some .regular
  | 2 => some .packed
  | _ => none

/-- The slots of a group that are not empty. -/
def occupied : ControlLayout → List Word → Mask
  | .regular, control => ~~~ emptyMask control &&& elementSlots
  | .packed, low :: high :: _ => foldLanes (low ||| high) &&& elementSlots
  | .packed, _ => 0#32

/-- Slot `n` of a group of `slots` slots marks the end of the table: it is the last slot and holds
the sentinel.  Packed groups know one sentinel only, a reduced hash of 1 in slot 14. -/
def isSentinel (layout : ControlLayout) (control : List Word) (n slots : Nat) (sentinel : Word) :
    Bool :=
  n + 1 == slots &&
    match layout, control with
    | .regular, _ => control[n]? == some sentinel
    | .packed, low :: high :: _ =>
      low &&& lastSlotLanes == 0x4000#64 && high &&& lastSlotLanes == 0#64
    | .packed, _ => false

/-- No slot but the last of a group marks the end of the table. -/
theorem isSentinel_of_ne (layout : ControlLayout) (control : List Word) {n slots : Nat}
    (sentinel : Word) (h : n + 1 ≠ slots) :
    layout.isSentinel control n slots sentinel = false := by
  simp [isSentinel, h]

end ControlLayout

/-! ## Storing reduced hashes in packed words -/

/-- A word with bit `i` set to `b`. -/
def setBit (word : Word) (i : Nat) (b : Bool) : Word :=
  if b then word ||| (1#64 <<< i) else word &&& ~~~ (1#64 <<< i)

/-- A word with bit `position` of its four lanes set to four bits of a reduced hash, the ones from
`start` on. -/
def setLanes (word : Word) (position : Nat) (hash : BitVec 8) (start : Nat) : Word :=
  (List.range 4).foldl
    (fun word lane => setBit word (position + 16 * lane) (hash.getLsbD (start + lane))) word

/-- The two control words of a packed group. -/
structure PackedControl where
  /-- The low halves of the reduced hashes. -/
  low : Word
  /-- The high halves. -/
  high : Word
  deriving Repr, DecidableEq

namespace PackedControl

/-- A group none of whose positions is marked. -/
def empty : PackedControl :=
  ⟨0, 0⟩

/-- The words in memory order. -/
def toList (c : PackedControl) : List Word :=
  [c.low, c.high]

/-- A reduced hash stored for one of the sixteen positions. -/
def set (c : PackedControl) (position : Nat) (hash : BitVec 8) : PackedControl :=
  ⟨setLanes c.low position hash 0, setLanes c.high position hash 4⟩

end PackedControl

/-! ## Bit by bit -/

/-- **A position is empty exactly when its word is there and is zero.** -/
theorem getLsbD_emptyMask (control : List Word) (i : Nat) :
    (emptyMask control).getLsbD i = (decide (i < 16) && control[i]? == some 0#64) := by
  simp only [emptyMask, BitVec.getLsbD_setWidth, BitVec.getLsbD_ofBoolListLE]
  grind

/-- **A position is marked exactly when some lane marks it.** -/
theorem getLsbD_foldLanes (word : Word) (i : Nat) :
    (foldLanes word).getLsbD i =
      (decide (i < 32) && (word.getLsbD i || word.getLsbD (i + 16) || word.getLsbD (i + 32)
        || word.getLsbD (i + 48))) := by
  simp only [foldLanes, BitVec.getLsbD_setWidth, BitVec.getLsbD_or, BitVec.getLsbD_ushiftRight]
  grind

/-- The element slots are the first fifteen. -/
theorem getLsbD_elementSlots (i : Nat) : elementSlots.getLsbD i = decide (i < 15) := by
  rcases Nat.lt_or_ge i 32 with h | h
  · simp only [elementSlots]
    decide +revert
  · rw [BitVec.getLsbD_of_ge _ _ h]
    exact (decide_eq_false (by omega)).symm

/-- The slots after a slot are those of the mask that are greater. -/
theorem getLsbD_after (mask : Mask) (slot i : Nat) :
    (mask.after slot).getLsbD i = (decide (slot < i) && mask.getLsbD i) := by
  simp only [Mask.after, BitVec.getLsbD_shiftLeft, BitVec.getLsbD_ushiftRight]
  grind

/-- Setting a bit changes that bit and no other. -/
theorem getLsbD_setBit (word : Word) (i : Nat) (b : Bool) (j : Nat) :
    (setBit word i b).getLsbD j =
      if j = i ∧ i < 64 then b else word.getLsbD j := by
  simp only [setBit]
  split
  · simp only [BitVec.getLsbD_or, BitVec.getLsbD_shiftLeft, BitVec.getLsbD_one]
    grind
  · simp only [BitVec.getLsbD_and, BitVec.getLsbD_not, BitVec.getLsbD_shiftLeft,
      BitVec.getLsbD_one]
    grind

end Postmortem
