import Mathlib.Order.Interval.Finset.Nat
import Mathlib.Tactic.Lemma
import Postmortem.Image.Read

/-!
# Writing is a pointwise update

A memory stands for a partial function from addresses to bytes.  This file relates everything that
can be observed of it to that function: what a read gives, how many bytes are mapped, and what a
write does to both.

* `addresses` — the mapped addresses of a list of segments, as a finite set.
* **`read_eq_some_iff_bytes`** — a read gives the bytes of its range, provided one segment holds
  them all.
* **`card_addresses`** — the number of mapped bytes is the number of mapped addresses, because
  segments share none.
* `exists_holds_splice` — after a write one segment holds all of the new range, so the range can be
  read back in one piece even where it bridges several segments.
* **`map_is_pointwise_update`** — all of it together, for an image.

The order of segments and their ends belong to the type of a memory, so every image qualifies,
whatever sequence of writes it comes from.
-/

namespace Postmortem

/-! ## Bytes and addresses -/

/-- No other segment has a say about the addresses of a segment. -/
lemma byteIn?_of_mem {segments : List Segment} (apart : segments.Pairwise Segment.Before)
    {s : Segment} (hs : s ∈ segments) {x : ℕ} (above : s.base ≤ x) (below : x < s.limit) :
    byteIn? segments x = s.byteAt? x := by
  induction segments with
  | nil => simp at hs
  | cons head rest ih =>
      have ⟨hHead, hRest⟩ := List.pairwise_cons.mp apart
      rw [byteIn?, List.findSome?_cons]
      rcases List.mem_cons.mp hs with rfl | hs
      · cases h : s.byteAt? x with
        | some b => rfl
        | none =>
            have := Segment.byteAt?_eq_none_iff.mp h
            omega
      · have hbefore := hHead s hs
        have hnone : head.byteAt? x = none :=
          Segment.byteAt?_eq_none_iff.mpr (.inr (le_trans hbefore.2 above))
        rw [hnone]
        exact ih hRest hs

/-- The addresses that a list of segments maps. -/
def addresses (segments : List Segment) : Finset ℕ :=
  segments.foldr (fun s rest => Finset.Ico s.base s.limit ∪ rest) ∅

lemma mem_addresses {segments : List Segment} {x : ℕ} :
    x ∈ addresses segments ↔ byteIn? segments x ≠ none := by
  induction segments with
  | nil => simp [addresses, byteIn?]
  | cons head rest ih =>
      simp only [addresses, ne_eq, byteIn?_eq_none_iff, List.foldr_cons, Finset.mem_union,
        Finset.mem_Ico, List.forall_mem_cons, not_and_or] at ih ⊢
      rw [ih]
      refine or_congr_left ?_
      omega

/-- **There are as many mapped bytes as mapped addresses.** -/
lemma card_addresses {segments : List Segment} (apart : segments.Pairwise Segment.Before) :
    (addresses segments).card = segments.foldr (fun s count => s.bytes.size + count) 0 := by
  induction segments with
  | nil => rfl
  | cons head rest ih =>
      have ⟨hHead, hRest⟩ := List.pairwise_cons.mp apart
      have hdisjoint : Disjoint (Finset.Ico head.base head.limit) (addresses rest) := by
        rw [Finset.disjoint_left]
        intro x hx hmem
        refine mem_addresses.mp hmem (byteIn?_eq_none_iff.mpr fun s hs => ?_)
        have hbefore := hHead s hs
        exact .inl (lt_of_lt_of_le (Finset.mem_Ico.mp hx).2 hbefore.2)
      have hcard : (Finset.Ico head.base head.limit).card = head.bytes.size := by
        simp [Segment.limit]
      show (Finset.Ico head.base head.limit ∪ addresses rest).card = _
      rw [Finset.card_union_of_disjoint hdisjoint, hcard, ih hRest, List.foldr_cons]

/-! ## Reading -/

namespace Memory

lemma length_eq_card (m : Memory) : m.length = (addresses m.segments).card :=
  (card_addresses m.apart).symm

/-- **A read gives the bytes of its range, if one segment holds them all.** -/
lemma read_eq_some_iff_bytes {m : Memory} {address length : ℕ} {bytes : List UInt8} :
    m.read address length = some bytes ↔
      (∃ s ∈ m.segments, s.Holds address length) ∧ bytes.length = length ∧
        ∀ i < length, m.byteAt? (address + i) = bytes[i]? := by
  have slice_byteAt {s : Segment} (hs : s ∈ m.segments) (holds : s.Holds address length) {i : ℕ}
      (hi : i < length) : (s.slice address length)[i]? = m.byteAt? (address + i) := by
    have ⟨above, inside⟩ := holds
    rw [Segment.getElem?_slice holds hi, byteAt?, byteIn?_of_mem m.apart hs] <;> omega
  constructor
  · intro h
    obtain ⟨s, hs, holds, hslice⟩ := read_eq_some_iff.mp h
    refine ⟨⟨s, hs, holds⟩, length_of_read h, fun i hi => ?_⟩
    rw [← hslice, slice_byteAt hs holds hi]
  · rintro ⟨⟨s, hs, holds⟩, hlength, hbytes⟩
    have hread : m.read address length = some (s.slice address length) :=
      read_eq_some_iff.mpr ⟨s, hs, holds, rfl⟩
    rw [hread, Option.some.injEq]
    refine List.ext_getElem? fun i => ?_
    rcases lt_or_ge i length with hi | hi
    · rw [slice_byteAt hs holds hi, hbytes i hi]
    · rw [List.getElem?_eq_none (by rw [length_of_read hread]; exact hi),
        List.getElem?_eq_none (by omega)]

/-- A single address reads as its byte. -/
lemma read_one (m : Memory) (x : ℕ) : m.read x 1 = (m.byteAt? x).map fun b => [b] := by
  cases hbyte : m.byteAt? x with
  | none =>
      rw [Option.map_none, read_eq_none_iff]
      intro s hs holds
      have := byteIn?_eq_none_iff.mp hbyte s hs
      have ⟨above, inside⟩ := holds
      omega
  | some b =>
      obtain ⟨s, hs, hb⟩ := List.exists_of_findSome?_eq_some hbyte
      have hinside : ¬ (x < s.base ∨ s.limit ≤ x) := by
        rw [← Segment.byteAt?_eq_none_iff, hb]
        simp
      rw [Option.map_some, read_eq_some_iff_bytes]
      refine ⟨⟨s, hs, by omega, by omega⟩, rfl, fun i hi => ?_⟩
      obtain rfl : i = 0 := by omega
      exact hbyte

end Memory

/-! ## Writing -/

/-- After a splice one segment holds all of the new range. -/
lemma exists_holds_splice (address : ℕ) (bytes : Array UInt8) (segments : List Segment) :
    ∃ s ∈ splice address bytes segments, s.Holds address bytes.size := by
  induction segments generalizing address bytes with
  | nil => exact ⟨⟨address, bytes⟩, by simp [splice], le_refl _, le_refl _⟩
  | cons head rest ih =>
      rw [splice]
      split
      · obtain ⟨s, hs, holds⟩ := ih address bytes
        exact ⟨s, List.mem_cons_of_mem _ hs, holds⟩
      · split
        · exact ⟨⟨address, bytes⟩, List.mem_cons_self, le_refl _, le_refl _⟩
        · next below above =>
          -- what the head and the new bytes make together reaches around the new range
          obtain ⟨s, hs, holds⟩ := ih (head.overlay address bytes).base
            (head.overlay address bytes).bytes
          have hlimit := Segment.limit_overlay below above
          refine ⟨s, hs, ?_⟩
          simp only [Segment.Holds, Segment.limit, Segment.overlay] at holds hlimit ⊢
          omega

namespace Memory

/-- What was written is read back, as one range. -/
lemma read_map {m m' : Memory} {address : ℕ} {bytes : List UInt8}
    (h : m.map address bytes = some m') : m'.read address bytes.length = some bytes := by
  rw [read_eq_some_iff_bytes, segments_map h]
  refine ⟨by simpa using exists_holds_splice address bytes.toArray m.segments, rfl, fun i hi => ?_⟩
  rw [byteAt?_map h, if_pos (by omega), Nat.add_sub_cancel_left]

lemma addresses_map {m m' : Memory} {address : ℕ} {bytes : List UInt8}
    (h : m.map address bytes = some m') :
    addresses m'.segments =
      addresses m.segments ∪ Finset.Ico address (address + bytes.length) := by
  ext x
  rw [Finset.mem_union, mem_addresses, mem_addresses, Finset.mem_Ico]
  show m'.byteAt? x ≠ none ↔ m.byteAt? x ≠ none ∨ _
  rw [byteAt?_map h]
  split
  · next inside => simp [inside, show x - address < bytes.length by omega]
  · next outside => simp [outside]

/-- **A write maps exactly the addresses of its range that were not mapped.** -/
lemma length_map {m m' : Memory} {address : ℕ} {bytes : List UInt8}
    (h : m.map address bytes = some m') :
    m'.length = m.length +
      ((Finset.Ico address (address + bytes.length)).filter fun x => m.byteAt? x = none).card := by
  have hfresh : (Finset.Ico address (address + bytes.length)).filter (fun x => m.byteAt? x = none) =
      Finset.Ico address (address + bytes.length) \ addresses m.segments := by
    ext x
    rw [Finset.mem_filter, Finset.mem_sdiff, mem_addresses, not_not, byteAt?]
  rw [length_eq_card, length_eq_card, addresses_map h, hfresh, Finset.union_comm,
    ← Finset.card_sdiff_add_card, Nat.add_comm]

end Memory

/-! ## Images -/

/-- **A write is a pointwise update of a partial byte memory.**  It is refused exactly when it has
bytes and they would reach past the last address.  Otherwise every address of the range reads as its
new byte and every other address as before, the range reads as what was written, segments are still
apart and inside the address space, and the mapped bytes are those of before with the addresses of
the range that were not mapped. -/
theorem map_is_pointwise_update (image : Image) {address : ℕ} (inside : address < addressSpace)
    (bytes : List UInt8) :
    (image.map address bytes = none ↔
      bytes ≠ [] ∧ addressSpace ≤ address + bytes.length) ∧
    ∀ image', image.map address bytes = some image' →
      (∀ i, ∀ h : i < bytes.length, image'.readBytes (address + i) 1 = .ok [bytes[i]]) ∧
      (∀ x, x < address ∨ address + bytes.length ≤ x →
        image'.readBytes x 1 = image.readBytes x 1) ∧
      image'.readBytes address bytes.length = .ok bytes ∧
      (∀ s ∈ image'.memory.segments, ∀ t ∈ image'.memory.segments,
        s = t ∨ s.base < t.base ∧ s.base + s.bytes.size ≤ t.base ∨
          t.base < s.base ∧ t.base + t.bytes.size ≤ s.base) ∧
      (∀ s ∈ image'.memory.segments, s.base + s.bytes.size < addressSpace) ∧
      image'.memory.length = image.memory.length +
        ((Finset.Ico address (address + bytes.length)).filter
          fun x => image.memory.byteAt? x = none).card := by
  constructor
  · rw [Image.map, Option.map_eq_none_iff, Memory.map_eq_none_iff]
    constructor
    · intro past
      refine ⟨?_, past⟩
      rintro rfl
      simp only [List.length_nil] at past
      omega
    · exact And.right
  · intro image' h
    obtain ⟨m, hm, rfl⟩ := Option.map_eq_some_iff.mp h
    refine ⟨fun i hi => ?_, fun x hx => ?_, ?_, fun s hs t ht => eq_or_before m.apart hs ht,
      m.bounded, Memory.length_map hm⟩
    · rw [Image.readBytes, Memory.read_one, Memory.byteAt?_map hm, if_pos (by omega),
        Nat.add_sub_cancel_left, List.getElem?_eq_getElem hi]
      rfl
    · rw [Image.readBytes, Image.readBytes, Memory.read_one, Memory.read_one,
        Memory.byteAt?_map hm, if_neg (by omega)]
    · rw [Image.readBytes, Memory.read_map hm]

/-- Four bytes across the end of one segment, an empty segment and the start of another. -/
theorem map_across_segments :
    let image : Image :=
      { order := .little
        memory :=
          { segments := [⟨0x10, #[1, 2, 3, 4]⟩, ⟨0x15, #[]⟩, ⟨0x16, #[5, 6]⟩]
            apart := by decide
            bounded := by decide }
        types := .empty }
    ∃ image', image.map 0x13 [7, 8, 9, 10] = some image' ∧
      image'.readBytes 0x13 4 = .ok [7, 8, 9, 10] ∧
      image'.readBytes 0x17 1 = image.readBytes 0x17 1 ∧ image'.memory.length = 8 := by
  intro image
  let image' : Image :=
    { image with
      memory :=
        { segments := [⟨0x10, #[1, 2, 3, 7, 8, 9, 10, 6]⟩]
          apart := by decide
          bounded := by decide } }
  have mapped : image.map 0x13 [7, 8, 9, 10] = some image' := by decide +kernel
  obtain ⟨-, update⟩ := @map_is_pointwise_update image 0x13 (by decide) [7, 8, 9, 10]
  obtain ⟨-, outside, back, -, -, length⟩ := update image' mapped
  exact ⟨image', mapped, back, outside 0x17 (.inr (by decide)), length.trans (by decide)⟩

end Postmortem
