import Postmortem.Fault

/-!
# Segments: runs of mapped bytes

A segment is a run of bytes at an address.  Memory is a sorted list of segments no two of which
share a byte, and this file holds the one operation that changes such a list: laying new bytes over
it.

* `Segment.Before` — one segment lies wholly below another and starts below it.
* `Segment.ClearBelow` / `Segment.ClearAbove` — the segment is left alone by new bytes that lie
  above, or below, it.  Two runs that only touch end to end are clear of each other; a run of no
  bytes is absorbed by a segment that holds or ends at its address.
* `Segment.overlay` — the segment that a segment and new bytes sharing its room make together, the
  new bytes on top.
* `Segment.slice` — the bytes of a range inside the segment; **`getElem?_slice`** says which.
* `splice` — new bytes laid over a sorted list of segments.  It keeps the order
  (**`pairwise_splice`**) and changes exactly the bytes of the new range
  (**`byteIn?_splice`**).
-/

namespace Postmortem

/-- A run of mapped bytes. -/
structure Segment where
  /-- The address of the first byte. -/
  base : Nat
  /-- The bytes, by ascending address. -/
  bytes : Array UInt8
  deriving Repr, DecidableEq

namespace Segment

/-- The first address past the segment. -/
def limit (s : Segment) : Nat :=
  s.base + s.bytes.size

/-- The byte at an address, if the segment holds it. -/
def byteAt? (s : Segment) (x : Nat) : Option UInt8 :=
  if s.base ≤ x then s.bytes[x - s.base]? else none

/-- The segment starts below the other one and shares no byte with it. -/
def Before (s t : Segment) : Prop :=
  s.base < t.base ∧ s.limit ≤ t.base

instance (s t : Segment) : Decidable (s.Before t) :=
  inferInstanceAs (Decidable (_ ∧ _))

/-- The range of `length` bytes at `address` lies inside the segment. -/
def Holds (s : Segment) (address : Nat) (length : Nat) : Prop :=
  s.base ≤ address ∧ address + length ≤ s.limit

instance (s : Segment) (address : Nat) (length : Nat) : Decidable (s.Holds address length) :=
  inferInstanceAs (Decidable (_ ∧ _))

def slice (s : Segment) (address : Nat) (length : Nat) : List UInt8 :=
  (s.bytes.extract (address - s.base) (address - s.base + length)).toList

/-- A segment holds nothing outside its range. -/
theorem byteAt?_eq_none_iff {s : Segment} {x : Nat} :
    s.byteAt? x = none ↔ x < s.base ∨ s.limit ≤ x := by
  simp only [byteAt?, limit]
  split
  · rw [Array.getElem?_eq_none_iff]
    omega
  · simp only [true_iff]
    omega

theorem exists_byteAt? {s : Segment} {x : Nat} (above : s.base ≤ x) (below : x < s.limit) :
    ∃ byte, s.byteAt? x = some byte := by
  refine Option.ne_none_iff_exists'.1 fun nothing => ?_
  have := byteAt?_eq_none_iff.1 nothing
  omega

/-- A slice shows, byte by byte, what the segment holds in its range. -/
theorem getElem?_slice {s : Segment} {address length i : Nat} (holds : s.Holds address length)
    (h : i < length) : (s.slice address length)[i]? = s.byteAt? (address + i) := by
  have ⟨above, inside⟩ := holds
  rw [limit] at inside
  rw [slice, Array.getElem?_toList, Array.getElem?_extract, if_pos (by omega), byteAt?,
    if_pos (by omega), show address - s.base + i = address + i - s.base by omega]

/-- A segment is what its range and its bytes are. -/
theorem eq_of_byteAt?_eq {s t : Segment} (start : s.base = t.base) (stop : s.limit = t.limit)
    (same : ∀ x, s.base ≤ x → x < s.limit → s.byteAt? x = t.byteAt? x) : s = t := by
  obtain ⟨b, bytes⟩ := s
  obtain ⟨b', bytes'⟩ := t
  obtain rfl : b = b' := start
  have size : bytes.size = bytes'.size := by
    simp only [limit] at stop
    omega
  congr 1
  refine Array.ext_getElem? fun i => ?_
  by_cases inside : i < bytes.size
  · have at_i := same (b + i) (Nat.le_add_right b i) (Nat.add_lt_add_left inside b)
    simp only [byteAt?, if_pos (Nat.le_add_right b i), Nat.add_sub_cancel_left] at at_i
    exact at_i
  · rw [Array.getElem?_eq_none (by omega), Array.getElem?_eq_none (by omega)]

/-! ## Laying bytes over one segment -/

/-- New bytes at `address` lie above the segment and leave it alone. -/
def ClearBelow (s : Segment) (address : Nat) (bytes : Array UInt8) : Prop :=
  s.base < address ∧ s.limit ≤ address ∧ s.limit < address + bytes.size

instance (s : Segment) (address : Nat) (bytes : Array UInt8) :
    Decidable (s.ClearBelow address bytes) :=
  inferInstanceAs (Decidable (_ ∧ _ ∧ _))

/-- New bytes at `address` lie below the segment and leave it alone. -/
def ClearAbove (s : Segment) (address : Nat) (bytes : Array UInt8) : Prop :=
  address < s.base ∧ address + bytes.size ≤ s.base

instance (s : Segment) (address : Nat) (bytes : Array UInt8) :
    Decidable (s.ClearAbove address bytes) :=
  inferInstanceAs (Decidable (_ ∧ _))

/-- The segment that a segment and new bytes make together, the new bytes on top. -/
def overlay (s : Segment) (address : Nat) (bytes : Array UInt8) : Segment where
  base := min address s.base
  bytes :=
    s.bytes.extract 0 (address - s.base) ++ bytes
      ++ s.bytes.extract (address + bytes.size - s.base) s.bytes.size

/-- Bytes that are not clear of a segment reach the same room: together they end where the later of
the two ends. -/
theorem limit_overlay {s : Segment} {address : Nat} {bytes : Array UInt8}
    (below : ¬ s.ClearBelow address bytes) (above : ¬ s.ClearAbove address bytes) :
    (s.overlay address bytes).limit = max s.limit (address + bytes.size) := by
  simp only [ClearBelow, ClearAbove, limit] at below above
  simp only [overlay, limit, Array.size_append, Array.size_extract]
  omega

/-- **The new bytes win, and the old ones show wherever the new ones do not reach.** -/
theorem byteAt?_overlay {s : Segment} {address : Nat} {bytes : Array UInt8}
    (below : ¬ s.ClearBelow address bytes) (above : ¬ s.ClearAbove address bytes) (x : Nat) :
    (s.overlay address bytes).byteAt? x =
      if address ≤ x ∧ x < address + bytes.size then bytes[x - address]? else s.byteAt? x := by
  simp only [ClearBelow, ClearAbove, limit] at below above
  simp only [overlay, byteAt?, Array.append_assoc, Array.getElem?_append, Array.size_extract,
    Array.getElem?_extract]
  grind

/-- New bytes take the place of a segment without bytes. -/
theorem overlay_of_empty {s : Segment} {address : Nat} {bytes : Array UInt8}
    (start : s.base = address) (stop : s.limit = address) :
    s.overlay address bytes = ⟨address, bytes⟩ := by
  have empty : s.bytes = #[] := by
    rw [limit] at stop
    exact Array.eq_empty_of_size_eq_zero (by omega)
  rw [overlay, start, Nat.min_self, empty]
  simp

/-- Nothing laid over a segment leaves it as it is. -/
theorem overlay_nothing {s : Segment} {address : Nat} {bytes : Array UInt8} (empty : bytes.size = 0)
    (holds : s.Holds address 0) :
    s.overlay address bytes = s := by
  obtain ⟨above, within⟩ := holds
  rw [limit] at within
  have nothing : bytes = #[] := Array.eq_empty_of_size_eq_zero empty
  rw [overlay, nothing, Nat.min_eq_right above, Array.append_empty, Array.size_empty,
    Nat.add_zero, Array.extract_append_extract, Nat.zero_min, Nat.max_eq_right (by omega),
    Array.extract_size]

/-- A segment that is written keeps its place and its length. -/
theorem overlay_inside {s : Segment} {address : Nat} {bytes : Array UInt8}
    (holds : s.Holds address bytes.size) :
    (s.overlay address bytes).base = s.base ∧
      (s.overlay address bytes).limit = s.limit := by
  obtain ⟨above, within⟩ := holds
  have below : ¬ s.ClearBelow address bytes := fun clear => Nat.not_le_of_lt clear.2.2 within
  have past : ¬ s.ClearAbove address bytes := fun clear => Nat.not_le_of_lt clear.1 above
  exact ⟨Nat.min_eq_right above, (limit_overlay below past).trans (Nat.max_eq_left within)⟩

end Segment

/-! ## Laying bytes over a list of segments -/

/-- Of two segments of a sorted list, either one is the other or one comes before. -/
theorem eq_or_before {segments : List Segment} (apart : segments.Pairwise Segment.Before)
    {s t : Segment} (hs : s ∈ segments) (ht : t ∈ segments) : s = t ∨ s.Before t ∨ t.Before s := by
  induction apart with
  | nil => simp at hs
  | cons head _ ih => grind

/-- New bytes laid over a list of segments sorted by address: segments that are clear of them stay,
every other one joins them in a single segment. -/
def splice (address : Nat) (bytes : Array UInt8) : List Segment → List Segment
  | [] => [⟨address, bytes⟩]
  | s :: rest =>
    if s.ClearBelow address bytes then s :: splice address bytes rest
    else if s.ClearAbove address bytes then ⟨address, bytes⟩ :: s :: rest
    else splice (s.overlay address bytes).base (s.overlay address bytes).bytes rest

/-- The byte at an address in a list of segments. -/
def byteIn? (segments : List Segment) (x : Nat) : Option UInt8 :=
  segments.findSome? (·.byteAt? x)

theorem byteIn?_cons (s : Segment) (segments : List Segment) (x : Nat) :
    byteIn? (s :: segments) x = (s.byteAt? x).or (byteIn? segments x) := by
  rw [byteIn?, List.findSome?_cons]
  cases s.byteAt? x <;> rfl

theorem byteIn?_eq_none_iff {segments : List Segment} {x : Nat} :
    byteIn? segments x = none ↔ ∀ s ∈ segments, x < s.base ∨ s.limit ≤ x := by
  simp only [byteIn?, List.findSome?_eq_none_iff, Segment.byteAt?_eq_none_iff]

/-- A segment below the new bytes and below a list of segments is below what they make together. -/
theorem before_splice {s : Segment} {address : Nat} {bytes : Array UInt8}
    {segments : List Segment} (start : s.base < address ∧ s.limit ≤ address)
    (below : ∀ t ∈ segments, s.Before t) : ∀ t ∈ splice address bytes segments, s.Before t := by
  induction segments generalizing address bytes with
  | nil => simpa [splice, Segment.Before] using start
  | cons head rest ih =>
    have hHead := below head (by simp)
    have hRest : ∀ t ∈ rest, s.Before t := fun t ht => below t (by simp [ht])
    rw [splice]
    split
    · intro t ht
      rcases List.mem_cons.1 ht with rfl | ht
      · exact hHead
      · exact ih start hRest t ht
    · split
      · intro t ht
        rcases List.mem_cons.1 ht with rfl | ht
        · exact start
        · exact below t ht
      · apply ih _ hRest
        simp only [Segment.Before] at hHead
        simp only [Segment.overlay]
        omega

/-- A segment laid over those that come after it is put in front of them. -/
theorem splice_of_before {s : Segment} {segments : List Segment}
    (before : ∀ t ∈ segments, s.Before t) : splice s.base s.bytes segments = s :: segments := by
  cases segments with
  | nil => rfl
  | cons t rest =>
    obtain ⟨lower, apart⟩ := before t List.mem_cons_self
    rw [splice, if_neg (fun clear => Nat.lt_asymm clear.1 lower), if_pos ⟨lower, apart⟩]

/-- **Splicing keeps segments sorted and apart.** -/
theorem pairwise_splice {address : Nat} {bytes : Array UInt8} {segments : List Segment}
    (apart : segments.Pairwise Segment.Before) :
    (splice address bytes segments).Pairwise Segment.Before := by
  induction segments generalizing address bytes with
  | nil => simp [splice]
  | cons head rest ih =>
    have ⟨hHead, hRest⟩ := List.pairwise_cons.1 apart
    rw [splice]
    split
    · next clear =>
      exact List.pairwise_cons.2 ⟨before_splice ⟨clear.1, clear.2.1⟩ hHead, ih hRest⟩
    · split
      · next clear =>
        refine List.pairwise_cons.2 ⟨fun t ht => ?_, apart⟩
        rcases List.mem_cons.1 ht with rfl | ht
        · exact clear
        · have := hHead t ht
          simp only [Segment.ClearAbove, Segment.Before, Segment.limit] at *
          omega
      · exact ih hRest

/-- Splicing reaches no further than the segments and the new bytes did. -/
theorem limit_lt_of_mem_splice {bound : Nat} {address : Nat} {bytes : Array UInt8}
    {segments : List Segment} (inside : address + bytes.size < bound)
    (bounded : ∀ s ∈ segments, s.limit < bound) :
    ∀ s ∈ splice address bytes segments, s.limit < bound := by
  induction segments generalizing address bytes with
  | nil => simpa [splice, Segment.limit] using inside
  | cons head rest ih =>
    have hHead := bounded head (by simp)
    have hRest : ∀ t ∈ rest, t.limit < bound := fun t ht => bounded t (by simp [ht])
    rw [splice]
    split
    · intro t ht
      rcases List.mem_cons.1 ht with rfl | ht
      · exact hHead
      · exact ih inside hRest t ht
    · split
      · intro t ht
        rcases List.mem_cons.1 ht with rfl | ht
        · exact inside
        · exact bounded t ht
      · next below above =>
        apply ih _ hRest
        have := Segment.limit_overlay below above
        rw [Segment.limit] at this
        omega

/-- **Splicing changes exactly the bytes of the new range.** -/
theorem byteIn?_splice (address : Nat) (bytes : Array UInt8) (segments : List Segment)
    (x : Nat) :
    byteIn? (splice address bytes segments) x =
      if address ≤ x ∧ x < address + bytes.size then bytes[x - address]?
      else byteIn? segments x := by
  induction segments generalizing address bytes with
  | nil =>
    simp only [splice, byteIn?, List.findSome?_cons, List.findSome?_nil, Segment.byteAt?]
    grind
  | cons head rest ih =>
    rw [splice]
    split
    · next clear =>
      have hIh := ih address bytes
      simp only [byteIn?, Segment.ClearBelow, Segment.limit, List.findSome?_cons] at *
      rw [hIh]
      simp only [Segment.byteAt?]
      grind
    · split
      · simp only [byteIn?, List.findSome?_cons, Segment.byteAt?]
        grind
      · next below above =>
        have hByte := Segment.byteAt?_overlay below above x
        have hLimit := Segment.limit_overlay below above
        rw [ih]
        simp only [byteIn?, List.findSome?_cons]
        simp only [Segment.ClearBelow, Segment.ClearAbove] at below above
        simp only [Segment.byteAt?, Segment.limit] at *
        have hBase : (head.overlay address bytes).base = min address head.base := rfl
        grind

end Postmortem
