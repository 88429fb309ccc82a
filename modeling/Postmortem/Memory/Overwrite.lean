import Postmortem.Memory.Segment

/-!
# Finding and writing, step by step

How a list of segments is searched and written.  A write goes one of two ways: if one segment holds
the whole range, its bytes are changed where they are; otherwise the segments that share a byte with
the range are taken out, and one that covers them all is put in their place.  Sums of addresses are
sums of 64-bit numbers, and a copy is refused unless it fits.  How much room there is for a segment
is not asked.

* `nearest` / `containing` — the last segment that does not start above an address, and the segment
  that holds a range, which is looked for only there.
* `writeInside` — the first way of a write.
* `joined` / `merge` — the second way, and the segment that it puts in place of the others.
* `overwrite` — a write, whichever way it goes.
* `containing_eq_some`, `containing_eq_none` — a segment that holds a range is found.
* `joined_cons` — segments may be joined with new bytes one by one, as `splice` does;
  **`merge_eq_splice`**.
* **`overwrite_eq_splice`** — both ways come to the same as `splice`, and what is refused is exactly
  a range that reaches past the last address.
-/

namespace Postmortem

/-! ## Sums of addresses -/

/-- The number of addresses of a 64-bit process. -/
def addressSpace : Nat :=
  0x10000000000000000

/-- The sum of two 64-bit numbers, if it is one. -/
def checkedAdd (a b : Nat) : Option Nat :=
  if a + b < addressSpace then some (a + b) else none

/-- The sum of two 64-bit numbers, or the greatest of them if it is not one. -/
def saturatingAdd (a b : Nat) : Nat :=
  min (a + b) (addressSpace - 1)

/-! ## Finding a segment -/

/-- The last segment that does not start above an address. -/
def nearest (segments : List Segment) (address : Nat) : Option Segment :=
  (segments.filter fun s => s.base ≤ address).getLast?

/-- The segment that holds a range, if it is the nearest one. -/
def containing (segments : List Segment) (address length : Nat) : Option Segment := do
  let s ← nearest segments address
  let limit ← checkedAdd s.base s.bytes.size
  if (← checkedAdd address length) ≤ limit then some s else none

/-! ## Writing -/

/-- Bytes copied into a buffer from an offset on, if they fit. -/
def copyInto (buffer : Array UInt8) (offset : Nat) (bytes : Array UInt8) : Option (Array UInt8) :=
  if offset + bytes.size ≤ buffer.size then
    some (buffer.extract 0 offset ++ bytes ++ buffer.extract (offset + bytes.size) buffer.size)
  else none

/-- Bytes written inside a segment, which keeps its place. -/
def writeInside (found : Segment) (address : Nat) (bytes : Array UInt8) (segments : List Segment) :
    Option (List Segment) := do
  let written ← copyInto found.bytes (address - found.base) bytes
  return segments.map fun s => if s.base = found.base then ⟨s.base, written⟩ else s

/-- The segment shares a byte with new ones at `address`. -/
def Segment.Overlaps (s : Segment) (address : Nat) (bytes : Array UInt8) : Prop :=
  s.base < saturatingAdd address bytes.size ∧ address < saturatingAdd s.base s.bytes.size

instance (s : Segment) (address : Nat) (bytes : Array UInt8) :
    Decidable (s.Overlaps address bytes) :=
  inferInstanceAs (Decidable (_ ∧ _))

/-- Where a range starts that is joined with segments. -/
def joinedStart (address : Nat) (segments : List Segment) : Nat :=
  segments.foldl (fun start s => min start s.base) address

/-- Where a range stops that is joined with segments. -/
def joinedStop (stop : Nat) (segments : List Segment) : Nat :=
  segments.foldl (fun stop s => max stop (saturatingAdd s.base s.bytes.size)) stop

/-- Segments copied into a buffer that starts at an address. -/
def copySegments (start : Nat) (buffer : Array UInt8) (segments : List Segment) :
    Option (Array UInt8) :=
  segments.foldlM (fun buffer s => copyInto buffer (s.base - start) s.bytes) buffer

/-- The segment that new bytes and segments make together.  It begins as zeros, takes up the
segments, and then the new bytes. -/
def joined (address : Nat) (bytes : Array UInt8) (segments : List Segment) : Option Segment := do
  let start := joinedStart address segments
  let stop := joinedStop (saturatingAdd address bytes.size) segments
  let kept ← copySegments start (Array.replicate (stop - start) 0) segments
  let written ← copyInto kept (address - start) bytes
  return ⟨start, written⟩

/-- A segment put in its place, over one that starts at the same address. -/
def insertSegment (new : Segment) : List Segment → List Segment
  | [] => [new]
  | s :: rest =>
    if new.base < s.base then new :: s :: rest
    else if new.base = s.base then new :: rest
    else s :: insertSegment new rest

/-- Bytes written over a range, and joined with the segments that share a byte with it. -/
def merge (address : Nat) (bytes : Array UInt8) (segments : List Segment) :
    Option (List Segment) := do
  let new ← joined address bytes (segments.filter fun s => s.Overlaps address bytes)
  return insertSegment new (segments.filter fun s => ¬ s.Overlaps address bytes)

/-- Bytes written over a range of sorted segments. -/
def overwrite (address : Nat) (bytes : Array UInt8) (segments : List Segment) :
    Option (List Segment) :=
  match containing segments address bytes.size with
  | some found => writeInside found address bytes segments
  | none => merge address bytes segments

/-! ## What is found -/

section Containing

variable {segments : List Segment} {s : Segment} {address length : Nat}

theorem saturatingAdd_eq_limit (inside : s.limit < addressSpace) :
    saturatingAdd s.base s.bytes.size = s.limit := by
  simp only [saturatingAdd, Segment.limit] at *
  omega

/-- The nearest segment is the last of those that do not start above the address. -/
theorem nearest_eq_some (apart : segments.Pairwise Segment.Before)
    (found : nearest segments address = some s) :
    s ∈ segments ∧ s.base ≤ address ∧ ∀ t ∈ segments, t.base ≤ address → t = s ∨ t.Before s := by
  obtain ⟨earlier, split⟩ := List.getLast?_eq_some_iff.1 found
  have mem_iff (t : Segment) : t ∈ segments ∧ t.base ≤ address ↔ t ∈ earlier ∨ t = s := by
    have listed : t ∈ segments.filter (fun s => s.base ≤ address) ↔ t ∈ earlier ∨ t = s := by
      rw [split]
      simp
    simpa using listed
  have before : ∀ t ∈ earlier, t.Before s := by
    have sorted := apart.filter (fun t => decide (t.base ≤ address))
    rw [split, List.pairwise_append] at sorted
    exact fun t ht => sorted.2.2 t ht s (by simp)
  have here := (mem_iff s).2 (.inr rfl)
  refine ⟨here.1, here.2, fun t ht lower => ?_⟩
  rcases (mem_iff t).1 ⟨ht, lower⟩ with earlier | same
  · exact .inr (before t earlier)
  · exact .inl same

theorem nearest_eq_none (found : nearest segments address = none) :
    ∀ t ∈ segments, address < t.base := by
  intro t ht
  have none_lower := List.getLast?_eq_none_iff.1 found
  have := List.filter_eq_nil_iff.1 none_lower t ht
  simpa using this

/-- The segment found holds the range. -/
theorem containing_eq_some (apart : segments.Pairwise Segment.Before)
    (found : containing segments address length = some s) :
    s ∈ segments ∧ s.Holds address length := by
  simp only [containing, Option.bind_eq_bind, Option.bind_eq_some_iff] at found
  obtain ⟨t, near, limit, hlimit, stop, hstop, holds⟩ := found
  obtain ⟨mem, lower, -⟩ := nearest_eq_some apart near
  simp only [checkedAdd, Option.ite_none_right_eq_some, Option.some.injEq] at hlimit hstop holds
  obtain ⟨le, rfl⟩ := holds
  exact ⟨mem, lower, by simp only [Segment.limit]; omega⟩

/-- **No segment but the nearest can hold a range**, unless the range is empty and the nearest holds
it too. -/
theorem containing_eq_none (apart : segments.Pairwise Segment.Before)
    (bounded : ∀ s ∈ segments, s.limit < addressSpace)
    (found : containing segments address length = none) :
    ∀ s ∈ segments, ¬ s.Holds address length := by
  intro s hs holds
  have ⟨above, inside⟩ := holds
  cases near : nearest segments address with
  | none =>
    have := nearest_eq_none near s hs
    omega
  | some t =>
    obtain ⟨mem, lower, last⟩ := nearest_eq_some apart near
    have within : address + length ≤ t.limit := by
      rcases last s hs above with rfl | before
      · exact inside
      · -- the nearest starts where the other ends, so the range is empty
        simp only [Segment.Before, Segment.limit] at *
        omega
    have bound := bounded t mem
    simp only [Segment.limit] at within bound
    have held : containing segments address length = some t := by
      have stop : address + length < addressSpace := by omega
      simp [containing, near, checkedAdd, bound, stop, within]
    simp [held] at found

end Containing

/-! ## What is written -/

section Copying

variable {buffer bytes : Array UInt8} {offset : Nat}

/-- Bytes that fit are copied, and nothing else changes. -/
theorem copyInto_eq_some (fits : offset + bytes.size ≤ buffer.size) :
    ∃ written, copyInto buffer offset bytes = some written ∧ written.size = buffer.size ∧
      ∀ i, written[i]? =
        if offset ≤ i ∧ i < offset + bytes.size then bytes[i - offset]? else buffer[i]? := by
  refine ⟨_, if_pos fits, ?_, fun i => ?_⟩
  · simp only [Array.size_append, Array.size_extract]
    omega
  · simp only [Array.append_assoc, Array.getElem?_append, Array.size_extract,
      Array.getElem?_extract]
    grind

theorem fits_of_copyInto {written : Array UInt8}
    (copied : copyInto buffer offset bytes = some written) :
    offset + bytes.size ≤ buffer.size ∧ written.size = buffer.size := by
  have fits : offset + bytes.size ≤ buffer.size := by
    rw [copyInto, Option.ite_none_right_eq_some] at copied
    exact copied.1
  obtain ⟨written', copied', size, -⟩ := copyInto_eq_some fits
  rw [copied] at copied'
  exact ⟨fits, Option.some.inj copied' ▸ size⟩

theorem size_of_copySegments {start : Nat} {segments : List Segment} {kept : Array UInt8}
    (copied : copySegments start buffer segments = some kept) : kept.size = buffer.size := by
  induction segments generalizing buffer with
  | nil => rw [← Option.some.inj copied]
  | cons s rest ih =>
    simp only [copySegments, List.foldlM_cons, Option.bind_eq_bind, Option.bind_eq_some_iff]
      at copied
    obtain ⟨next, first, later⟩ := copied
    rw [ih later, (fits_of_copyInto first).2]

/-- Segments that lie in the room of a buffer are copied into it. -/
theorem copySegments_eq_some {start : Nat} {segments : List Segment}
    (apart : segments.Pairwise Segment.Before)
    (fits : ∀ s ∈ segments, start ≤ s.base ∧ s.limit ≤ start + buffer.size) :
    ∃ kept, copySegments start buffer segments = some kept ∧ kept.size = buffer.size ∧
      ∀ i, kept[i]? = (byteIn? segments (start + i)).or buffer[i]? := by
  induction segments generalizing buffer with
  | nil => exact ⟨buffer, rfl, rfl, fun i => by simp [byteIn?]⟩
  | cons s rest ih =>
    obtain ⟨hHead, hRest⟩ := List.pairwise_cons.1 apart
    obtain ⟨lower, upper⟩ := fits s List.mem_cons_self
    have room : s.base - start + s.bytes.size ≤ buffer.size := by
      simp only [Segment.limit] at upper
      omega
    obtain ⟨next, first, size, get⟩ := copyInto_eq_some room
    have fits' : ∀ t ∈ rest, start ≤ t.base ∧ t.limit ≤ start + next.size := fun t ht =>
      size ▸ fits t (List.mem_cons_of_mem _ ht)
    obtain ⟨kept, later, size', get'⟩ := ih hRest fits'
    refine ⟨kept, ?_, size'.trans size, fun i => ?_⟩
    · simp only [copySegments, List.foldlM_cons, first]
      exact later
    · rw [get', get, byteIn?_cons]
      by_cases inside : s.base ≤ start + i ∧ start + i < s.limit
      · -- what lies in this segment lies in no later one
        have elsewhere : byteIn? rest (start + i) = none := byteIn?_eq_none_iff.2 fun t ht => by
          have before := hHead t ht
          simp only [Segment.Before] at before
          omega
        obtain ⟨byte, here⟩ := Segment.exists_byteAt? inside.1 inside.2
        have copied : s.bytes[i - (s.base - start)]? = some byte := by
          rw [← here, Segment.byteAt?, if_pos inside.1,
            show start + i - s.base = i - (s.base - start) by omega]
        simp only [Segment.limit] at inside
        rw [elsewhere, here, copied, if_pos (by omega)]
        rfl
      · have nothing : s.byteAt? (start + i) = none := Segment.byteAt?_eq_none_iff.2 (by omega)
        simp only [Segment.limit] at inside
        rw [nothing, if_neg (by omega), Option.none_or]

end Copying

/-! ### Joining segments -/

section Joining

variable {address stop : Nat} {bytes : Array UInt8} {segments : List Segment} {new : Segment}

theorem joinedStart_cons (address : Nat) (s : Segment) (segments : List Segment) :
    joinedStart address (s :: segments) = joinedStart (min address s.base) segments := rfl

theorem joinedStop_cons (stop : Nat) (s : Segment) (segments : List Segment) :
    joinedStop stop (s :: segments) =
      joinedStop (max stop (saturatingAdd s.base s.bytes.size)) segments := rfl

theorem joinedStart_le (address : Nat) (segments : List Segment) :
    joinedStart address segments ≤ address ∧
      ∀ s ∈ segments, joinedStart address segments ≤ s.base := by
  induction segments generalizing address with
  | nil => simp [joinedStart]
  | cons s rest ih =>
    obtain ⟨le, le_rest⟩ := ih (min address s.base)
    rw [joinedStart_cons, List.forall_mem_cons]
    exact ⟨by omega, by omega, le_rest⟩

theorem le_joinedStart {bound : Nat} (le : bound ≤ address)
    (le_rest : ∀ s ∈ segments, bound ≤ s.base) : bound ≤ joinedStart address segments := by
  induction segments generalizing address with
  | nil => exact le
  | cons s rest ih =>
    rw [List.forall_mem_cons] at le_rest
    rw [joinedStart_cons]
    exact ih (by omega) le_rest.2

theorem le_joinedStop (stop : Nat) (segments : List Segment) :
    stop ≤ joinedStop stop segments ∧
      ∀ s ∈ segments, saturatingAdd s.base s.bytes.size ≤ joinedStop stop segments := by
  induction segments generalizing stop with
  | nil => simp [joinedStop]
  | cons s rest ih =>
    obtain ⟨le, le_rest⟩ := ih (max stop (saturatingAdd s.base s.bytes.size))
    rw [joinedStop_cons, List.forall_mem_cons]
    exact ⟨by omega, by omega, le_rest⟩

theorem joinedStop_lt (inside : stop < addressSpace) : joinedStop stop segments < addressSpace := by
  induction segments generalizing stop with
  | nil => exact inside
  | cons s rest ih =>
    rw [joinedStop_cons]
    refine ih ?_
    simp only [saturatingAdd, addressSpace] at *
    omega

/-- **What new bytes and segments make together.**  It reaches from the first of them to the last,
and holds the new bytes, the segments where those do not reach, and zeros between. -/
theorem joined_eq_some (apart : segments.Pairwise Segment.Before)
    (bounded : ∀ s ∈ segments, s.limit < addressSpace)
    (inside : address + bytes.size < addressSpace) :
    ∃ new, joined address bytes segments = some new ∧ new.base = joinedStart address segments ∧
      new.limit = joinedStop (address + bytes.size) segments ∧
      ∀ x, new.base ≤ x → x < new.limit → new.byteAt? x =
        if address ≤ x ∧ x < address + bytes.size then bytes[x - address]?
        else (byteIn? segments x).or (some 0) := by
  have reach : saturatingAdd address bytes.size = address + bytes.size := by
    rw [saturatingAdd]
    omega
  obtain ⟨start_le, start_le_rest⟩ := joinedStart_le address segments
  obtain ⟨le_stop, le_stop_rest⟩ := le_joinedStop (address + bytes.size) segments
  rw [joined, reach]
  generalize joinedStart address segments = start at *
  generalize joinedStop (address + bytes.size) segments = stop at *
  have fits : ∀ s ∈ segments, start ≤ s.base ∧
      s.limit ≤ start + (Array.replicate (stop - start) (0 : UInt8)).size := by
    intro s hs
    have limit_le := le_stop_rest s hs
    rw [saturatingAdd_eq_limit (bounded s hs)] at limit_le
    rw [Array.size_replicate]
    exact ⟨start_le_rest s hs, by omega⟩
  obtain ⟨kept, hkept, size, get⟩ := copySegments_eq_some apart fits
  rw [Array.size_replicate] at size
  have room : address - start + bytes.size ≤ kept.size := by omega
  obtain ⟨written, hwritten, size', get'⟩ := copyInto_eq_some room
  refine ⟨⟨start, written⟩, by simp [hkept, hwritten], rfl, ?_, fun x above below => ?_⟩
  · simp only [Segment.limit]
    omega
  · simp only [Segment.limit] at above below
    have zero : (Array.replicate (stop - start) (0 : UInt8))[x - start]? = some 0 := by
      rw [Array.getElem?_replicate, if_pos (by omega)]
    have byte : (⟨start, written⟩ : Segment).byteAt? x = written[x - start]? := if_pos above
    rw [byte, get', get, zero, Nat.add_sub_cancel' above]
    by_cases covered : address ≤ x ∧ x < address + bytes.size
    · rw [if_pos covered, if_pos (by omega),
        show x - start - (address - start) = x - address by omega]
    · rw [if_neg covered, if_neg (by omega)]

theorem base_of_joined (h : joined address bytes segments = some new) :
    new.base = joinedStart address segments := by
  simp only [joined, Option.bind_eq_bind, Option.bind_eq_some_iff] at h
  obtain ⟨kept, -, written, -, made⟩ := h
  rw [← Option.some.inj made]

/-- New bytes that reach past the last address cannot be joined with anything. -/
theorem joined_eq_none (inside : address < addressSpace)
    (past : addressSpace ≤ address + bytes.size) : joined address bytes segments = none := by
  cases h : joined address bytes segments with
  | none => rfl
  | some new =>
    simp only [joined, Option.bind_eq_bind, Option.bind_eq_some_iff] at h
    obtain ⟨kept, copied, written, last, -⟩ := h
    obtain ⟨fits, -⟩ := fits_of_copyInto last
    rw [size_of_copySegments copied, Array.size_replicate] at fits
    have stop_lt : joinedStop (saturatingAdd address bytes.size) segments < addressSpace := by
      refine joinedStop_lt ?_
      simp only [saturatingAdd, addressSpace]
      omega
    have := (joinedStart_le address segments).1
    omega

/-- Bytes that share none with a segment make a segment of their own. -/
theorem joined_nil (inside : address + bytes.size < addressSpace) :
    joined address bytes [] = some ⟨address, bytes⟩ := by
  obtain ⟨new, hnew, base, limit, get⟩ := @joined_eq_some address bytes [] .nil (by simp) inside
  rw [hnew, Option.some.injEq]
  refine Segment.eq_of_byteAt?_eq base limit fun x above below => ?_
  rw [get x above below]
  rw [base] at above
  rw [limit] at below
  have byte : (⟨address, bytes⟩ : Segment).byteAt? x = bytes[x - address]? := if_pos above
  rw [byte, if_pos ⟨above, below⟩]

/-- **The first segment may be joined with new bytes before the others are.** -/
theorem joined_cons {head : Segment} {rest : List Segment}
    (apart : (head :: rest).Pairwise Segment.Before)
    (bounded : ∀ s ∈ head :: rest, s.limit < addressSpace)
    (inside : address + bytes.size < addressSpace)
    (below : ¬ head.ClearBelow address bytes) (above : ¬ head.ClearAbove address bytes) :
    joined address bytes (head :: rest) =
      joined (head.overlay address bytes).base (head.overlay address bytes).bytes rest := by
  have reach := Segment.limit_overlay below above
  have byteAt_overlay := Segment.byteAt?_overlay below above
  have start : (head.overlay address bytes).base = min address head.base := rfl
  generalize head.overlay address bytes = covering at *
  have headInside := bounded head List.mem_cons_self
  have inside' : covering.base + covering.bytes.size < addressSpace := by
    show covering.limit < addressSpace
    omega
  obtain ⟨new, hnew, base, limit, get⟩ := joined_eq_some apart bounded inside
  obtain ⟨new', hnew', base', limit', get'⟩ := joined_eq_some (List.pairwise_cons.1 apart).2
    (fun s hs => bounded s (List.mem_cons_of_mem _ hs)) inside'
  have sameBase : new.base = new'.base := by
    rw [base, base', joinedStart_cons, start]
  have sameLimit : new.limit = new'.limit := by
    rw [limit, limit', joinedStop_cons, saturatingAdd_eq_limit headInside, Nat.max_comm, ← reach,
      Segment.limit]
  rw [hnew, hnew', Option.some.injEq]
  refine Segment.eq_of_byteAt?_eq sameBase sameLimit fun x lower upper => ?_
  rw [get x lower upper, get' x (sameBase ▸ lower) (sameLimit ▸ upper), byteIn?_cons]
  by_cases covered : covering.base ≤ x ∧ x < covering.limit
  · -- here the covering segment shows what the first one and the new bytes do
    have byte : covering.bytes[x - covering.base]? = covering.byteAt? x := (if_pos covered.1).symm
    obtain ⟨value, here⟩ := Segment.exists_byteAt? covered.1 covered.2
    rw [if_pos (show _ ∧ x < covering.base + covering.bytes.size from covered), byte]
    rw [byteAt_overlay] at here ⊢
    split
    · rfl
    · next old =>
      rw [if_neg old] at here
      rw [here]
      rfl
  · have nothing : head.byteAt? x = none := Segment.byteAt?_eq_none_iff.2 (by omega)
    rw [if_neg (show ¬ (_ ∧ x < covering.base + covering.bytes.size) from covered),
      if_neg (by omega), nothing, Option.none_or]

end Joining

/-! ### Merging is splicing -/

section Merging

variable {address : Nat} {bytes : Array UInt8} {head new : Segment} {segments rest : List Segment}

theorem insertSegment_of_before (lower : ∀ s ∈ segments, new.base < s.base) :
    insertSegment new segments = new :: segments := by
  cases segments with
  | nil => rfl
  | cons s rest => rw [insertSegment, if_pos (lower s List.mem_cons_self)]

theorem insertSegment_of_after (later : head.base < new.base) :
    insertSegment new (head :: rest) = head :: insertSegment new rest := by
  rw [insertSegment, if_neg (by omega), if_neg (by omega)]

/-- Sharing a byte, without the sums. -/
theorem overlaps_iff (bounded : head.limit < addressSpace)
    (inside : address + bytes.size < addressSpace) :
    head.Overlaps address bytes ↔ head.base < address + bytes.size ∧ address < head.limit := by
  have reach : saturatingAdd address bytes.size = address + bytes.size := by
    rw [saturatingAdd]
    omega
  rw [Segment.Overlaps, reach, saturatingAdd_eq_limit bounded]

/-- A later segment shares a byte with new ones exactly if it does with what they and an earlier
segment make together. -/
theorem overlaps_overlay_iff {s : Segment} (bounded : s.limit < addressSpace)
    (inside : address + bytes.size < addressSpace) (headInside : head.limit < addressSpace)
    (below : ¬ head.ClearBelow address bytes) (above : ¬ head.ClearAbove address bytes)
    (before : head.Before s) (shares : head.Overlaps address bytes) :
    s.Overlaps (head.overlay address bytes).base (head.overlay address bytes).bytes ↔
      s.Overlaps address bytes := by
  have reach := Segment.limit_overlay below above
  have start : (head.overlay address bytes).base = min address head.base := rfl
  generalize head.overlay address bytes = covering at *
  have inside' : covering.base + covering.bytes.size < addressSpace := by
    show covering.limit < addressSpace
    omega
  rw [overlaps_iff headInside inside] at shares
  rw [overlaps_iff bounded inside, overlaps_iff bounded inside']
  simp only [Segment.Before, Segment.limit] at *
  omega

theorem merge_eq_some_iff {result : List Segment} :
    merge address bytes segments = some result ↔
      ∃ new, joined address bytes (segments.filter fun s => s.Overlaps address bytes) = some new ∧
        insertSegment new (segments.filter fun s => ¬ s.Overlaps address bytes) = result := by
  simp [merge, Option.bind_eq_some_iff]

/-- A segment that ends before new bytes is left alone. -/
theorem merge_of_below {result : List Segment} (before : ∀ s ∈ rest, head.Before s)
    (bounded : head.limit < addressSpace) (inside : address + bytes.size < addressSpace)
    (start : head.base < address) (stop : head.limit ≤ address)
    (merged : merge address bytes rest = some result) :
    merge address bytes (head :: rest) = some (head :: result) := by
  obtain ⟨new, hnew, rfl⟩ := merge_eq_some_iff.1 merged
  have alone : ¬ head.Overlaps address bytes := by
    rw [overlaps_iff bounded inside]
    omega
  have later : head.base < new.base := by
    rw [base_of_joined hnew]
    exact le_joinedStart start fun s hs => (before s (List.mem_filter.1 hs).1).1
  refine merge_eq_some_iff.2 ⟨new, ?_, ?_⟩
  · rw [List.filter_cons_of_neg (by simpa using alone), hnew]
  · rw [List.filter_cons_of_pos (by simpa using alone), insertSegment_of_after later]

/-- Segments that start after new bytes are left alone. -/
theorem merge_of_above (bounded : ∀ s ∈ segments, s.limit < addressSpace)
    (inside : address + bytes.size < addressSpace)
    (above : ∀ s ∈ segments, address < s.base ∧ address + bytes.size ≤ s.base) :
    merge address bytes segments = some (⟨address, bytes⟩ :: segments) := by
  have alone : ∀ s ∈ segments, ¬ s.Overlaps address bytes := fun s hs => by
    have := (above s hs).2
    rw [overlaps_iff (bounded s hs) inside]
    omega
  refine merge_eq_some_iff.2 ⟨⟨address, bytes⟩, ?_, ?_⟩
  · rw [List.filter_eq_nil_iff.2 (by simpa using alone), joined_nil inside]
  · rw [List.filter_eq_self.2 (by simpa using alone)]
    exact insertSegment_of_before fun s hs => (above s hs).1

/-- A segment that shares a byte with new ones may be joined with them first. -/
theorem merge_of_overlaps {result : List Segment} (before : ∀ s ∈ rest, head.Before s)
    (apart : rest.Pairwise Segment.Before) (bounded : head.limit < addressSpace)
    (restBounded : ∀ s ∈ rest, s.limit < addressSpace)
    (inside : address + bytes.size < addressSpace) (below : ¬ head.ClearBelow address bytes)
    (above : ¬ head.ClearAbove address bytes) (shares : head.Overlaps address bytes)
    (merged : merge (head.overlay address bytes).base (head.overlay address bytes).bytes rest =
      some result) : merge address bytes (head :: rest) = some result := by
  obtain ⟨new, hnew, rfl⟩ := merge_eq_some_iff.1 merged
  have same : ∀ s ∈ rest, s.Overlaps (head.overlay address bytes).base
      (head.overlay address bytes).bytes ↔ s.Overlaps address bytes := fun s hs =>
    overlaps_overlay_iff (restBounded s hs) inside bounded below above (before s hs) shares
  have sharing : rest.filter (fun s => s.Overlaps (head.overlay address bytes).base
      (head.overlay address bytes).bytes) = rest.filter fun s => s.Overlaps address bytes :=
    List.filter_congr fun s hs => decide_eq_decide.2 (same s hs)
  refine merge_eq_some_iff.2 ⟨new, ?_, ?_⟩
  · rw [List.filter_cons_of_pos (by simpa using shares), ← hnew, sharing]
    refine joined_cons ?_ ?_ inside below above
    · exact List.pairwise_cons.2
        ⟨fun s hs => before s (List.mem_filter.1 hs).1, apart.filter _⟩
    · rw [List.forall_mem_cons]
      exact ⟨bounded, fun s hs => restBounded s (List.mem_filter.1 hs).1⟩
  · rw [List.filter_cons_of_neg (by simpa using shares)]
    congr 1
    exact List.filter_congr fun s hs => decide_eq_decide.2 (not_congr (same s hs).symm)

/-- A segment without bytes makes room for new ones at its address. -/
theorem merge_of_empty {result : List Segment} (before : ∀ s ∈ rest, head.Before s)
    (bounded : head.limit < addressSpace) (inside : address + bytes.size < addressSpace)
    (start : head.base = address) (stop : head.limit = address)
    (merged : merge address bytes rest = some result) :
    merge address bytes (head :: rest) = some result := by
  obtain ⟨new, hnew, rfl⟩ := merge_eq_some_iff.1 merged
  have alone : ¬ head.Overlaps address bytes := by
    rw [overlaps_iff bounded inside]
    omega
  have here : new.base = head.base := by
    have least : address ≤ joinedStart address (rest.filter fun s => s.Overlaps address bytes) :=
      le_joinedStart (Nat.le_refl _) fun s hs => by
        have := (before s (List.mem_filter.1 hs).1).1
        omega
    have := (joinedStart_le address (rest.filter fun s => s.Overlaps address bytes)).1
    rw [base_of_joined hnew]
    omega
  have lower : ∀ s ∈ rest.filter (fun s => ¬ s.Overlaps address bytes), new.base < s.base := by
    intro s hs
    rw [here]
    exact (before s (List.mem_filter.1 hs).1).1
  refine merge_eq_some_iff.2 ⟨new, ?_, ?_⟩
  · rw [List.filter_cons_of_neg (by simpa using alone), hnew]
  · rw [List.filter_cons_of_pos (by simpa using alone), insertSegment, if_neg (by omega),
      if_pos here, insertSegment_of_before lower]

/-- **Taking segments out and putting one in their place is splicing**, unless the bytes are none
and lie in a segment.  The induction is on the segments; one that shares a byte with the new ones is
joined with them, and the rest is written with both. -/
theorem merge_eq_splice (apart : segments.Pairwise Segment.Before)
    (bounded : ∀ s ∈ segments, s.limit < addressSpace)
    (inside : address + bytes.size < addressSpace)
    (outside : bytes.size = 0 → ∀ s ∈ segments, ¬ s.Holds address 0) :
    merge address bytes segments = some (splice address bytes segments) := by
  induction segments generalizing address bytes with
  | nil => exact merge_of_above (by simp) inside (by simp)
  | cons head rest ih =>
    obtain ⟨before, apartRest⟩ := List.pairwise_cons.1 apart
    have headBounded := bounded head List.mem_cons_self
    have restBounded : ∀ s ∈ rest, s.limit < addressSpace := fun s hs =>
      bounded s (List.mem_cons_of_mem _ hs)
    have outsideRest : bytes.size = 0 → ∀ s ∈ rest, ¬ s.Holds address 0 := fun empty s hs =>
      outside empty s (List.mem_cons_of_mem _ hs)
    rw [splice]
    split
    · next clear =>
      exact merge_of_below before headBounded inside clear.1 clear.2.1
        (ih apartRest restBounded inside outsideRest)
    · split
      · next clear =>
        refine merge_of_above bounded inside (List.forall_mem_cons.2 ⟨clear, fun s hs => ?_⟩)
        have := (before s hs).1
        simp only [Segment.ClearAbove] at clear
        omega
      · next below above =>
        have ordered : head.base ≤ head.limit := Nat.le_add_right _ _
        have some_bytes : bytes.size ≠ 0 := fun empty => by
          refine outside empty head List.mem_cons_self ?_
          simp only [Segment.ClearBelow, Segment.ClearAbove, Segment.Holds] at below above ⊢
          omega
        have reach := Segment.limit_overlay below above
        by_cases shares : head.Overlaps address bytes
        · refine merge_of_overlaps before apartRest headBounded restBounded inside below above
            shares (ih apartRest restBounded ?_ fun empty => ?_)
          · show (head.overlay address bytes).limit < addressSpace
            omega
          · have start : (head.overlay address bytes).base = min address head.base := rfl
            rw [Segment.limit] at reach
            omega
        · have here : head.base = address ∧ head.limit = address := by
            rw [overlaps_iff headBounded inside] at shares
            simp only [Segment.ClearBelow, Segment.ClearAbove] at below above
            omega
          rw [Segment.overlay_of_empty here.1 here.2]
          exact merge_of_empty before headBounded inside here.1 here.2
            (ih apartRest restBounded inside outsideRest)

end Merging

/-! ### Writing inside a segment -/

section Inside

variable {address : Nat} {bytes : Array UInt8} {found : Segment} {segments : List Segment}

/-- Bytes copied inside a segment are laid over it. -/
theorem copyInto_eq_overlay (holds : found.Holds address bytes.size) :
    copyInto found.bytes (address - found.base) bytes =
      some (found.overlay address bytes).bytes := by
  obtain ⟨above, within⟩ := holds
  rw [Segment.limit] at within
  rw [copyInto, if_pos (by omega), Segment.overlay,
    show address + bytes.size - found.base = address - found.base + bytes.size by omega]

/-- The segment written is laid over in its place. -/
theorem writeInside_eq_map (holds : found.Holds address bytes.size) :
    writeInside found address bytes segments =
      some (segments.map fun s => if s.base = found.base then found.overlay address bytes else s) := by
  rw [writeInside, copyInto_eq_overlay holds]
  refine congrArg some (List.map_congr_left fun s _ => ?_)
  split
  · next here => rw [here, ← (Segment.overlay_inside holds).1]
  · rfl

/-- Segments that come before or after the one written stay as they are. -/
theorem map_overlay_of_ne (others : ∀ s ∈ segments, s.base ≠ found.base) :
    (segments.map fun s => if s.base = found.base then found.overlay address bytes else s) =
      segments :=
  (List.map_congr_left fun s hs => if_neg (others s hs)).trans (List.map_id _)

/-- Nothing written inside a segment leaves all of them as they are. -/
theorem map_overlay_nothing (apart : segments.Pairwise Segment.Before) (mem : found ∈ segments)
    (empty : bytes.size = 0) (holds : found.Holds address 0) :
    (segments.map fun s => if s.base = found.base then found.overlay address bytes else s) =
      segments := by
  have same : ∀ s ∈ segments,
      (if s.base = found.base then found.overlay address bytes else s) = s := by
    intro s hs
    split
    · next here =>
      rcases eq_or_before apart hs mem with rfl | before | before
      · exact Segment.overlay_nothing empty holds
      · exact absurd here (Nat.ne_of_lt before.1)
      · exact absurd here.symm (Nat.ne_of_lt before.1)
    · rfl
  exact (List.map_congr_left same).trans (List.map_id _)

/-- **Changing bytes where they are is splicing.**  The induction is on the segments before the one
that is written; only if there are no bytes may one of those end where they would lie. -/
theorem writeInside_eq_splice (apart : segments.Pairwise Segment.Before) (mem : found ∈ segments)
    (holds : found.Holds address bytes.size) :
    writeInside found address bytes segments = some (splice address bytes segments) := by
  rw [writeInside_eq_map holds, Option.some.injEq]
  induction segments with
  | nil => simp at mem
  | cons head rest ih =>
    obtain ⟨before, apartRest⟩ := List.pairwise_cons.1 apart
    have ⟨above, within⟩ := holds
    rcases List.mem_cons.1 mem with rfl | later
    · obtain ⟨base, limit⟩ := Segment.overlay_inside holds
      have after : ∀ s ∈ rest, (found.overlay address bytes).Before s := fun s hs => by
        rw [Segment.Before, base, limit]
        exact before s hs
      rw [List.map_cons, if_pos rfl, splice, if_neg fun clear => Nat.not_le_of_lt clear.2.2 within,
        if_neg fun clear => Nat.not_le_of_lt clear.1 above, splice_of_before after,
        map_overlay_of_ne fun s hs => Ne.symm (Nat.ne_of_lt (before s hs).1)]
    · obtain ⟨start, stop⟩ := before found later
      by_cases clear : head.limit < address + bytes.size
      · rw [List.map_cons, if_neg (Nat.ne_of_lt start), splice, if_pos ⟨by omega, by omega, clear⟩,
          ih apartRest later]
      · -- the bytes are none, and the head ends where the one that is written starts
        have empty : bytes.size = 0 := by omega
        have touches : head.Holds address 0 := ⟨by omega, by omega⟩
        rw [map_overlay_nothing apart mem empty (empty ▸ holds), splice,
          if_neg fun below => clear below.2.2, if_neg fun past => Nat.not_le_of_lt past.1 touches.1,
          Segment.overlay_nothing empty touches, splice_of_before before]

end Inside

section Overwrite

variable {address : Nat} {bytes : Array UInt8} {segments written : List Segment}

/-- **A write comes to the same as `splice`**, whichever way it goes.  What is refused is exactly a
range that reaches past the last address. -/
theorem overwrite_eq_splice (bytes : Array UInt8) (apart : segments.Pairwise Segment.Before)
    (bounded : ∀ s ∈ segments, s.limit < addressSpace) (inside : address < addressSpace) :
    overwrite address bytes segments =
      if address + bytes.size < addressSpace then some (splice address bytes segments)
      else none := by
  rw [overwrite]
  split
  · next found held =>
    obtain ⟨mem, holds⟩ := containing_eq_some apart held
    have fits : address + bytes.size < addressSpace :=
      Nat.lt_of_le_of_lt holds.2 (bounded found mem)
    rw [if_pos fits, writeInside_eq_splice apart mem holds]
  · next alone =>
    have outside := containing_eq_none apart bounded alone
    split
    · next fits => exact merge_eq_splice apart bounded fits fun empty => empty ▸ outside
    · next past =>
      rw [merge, joined_eq_none inside (Nat.le_of_not_lt past)]
      rfl

theorem overwrite_eq_some_iff (apart : segments.Pairwise Segment.Before)
    (bounded : ∀ s ∈ segments, s.limit < addressSpace) (inside : address < addressSpace) :
    overwrite address bytes segments = some written ↔
      address + bytes.size < addressSpace ∧ written = splice address bytes segments := by
  rw [overwrite_eq_splice bytes apart bounded inside, Option.ite_none_right_eq_some,
    Option.some.injEq, eq_comm (a := written)]

theorem apart_of_overwrite (apart : segments.Pairwise Segment.Before)
    (bounded : ∀ s ∈ segments, s.limit < addressSpace) (inside : address < addressSpace)
    (h : overwrite address bytes segments = some written) : written.Pairwise Segment.Before := by
  obtain ⟨-, rfl⟩ := (overwrite_eq_some_iff apart bounded inside).1 h
  exact pairwise_splice apart

theorem bounded_of_overwrite (apart : segments.Pairwise Segment.Before)
    (bounded : ∀ s ∈ segments, s.limit < addressSpace) (inside : address < addressSpace)
    (h : overwrite address bytes segments = some written) :
    ∀ s ∈ written, s.limit < addressSpace := by
  obtain ⟨fits, rfl⟩ := (overwrite_eq_some_iff apart bounded inside).1 h
  exact limit_lt_of_mem_splice fits bounded

end Overwrite

end Postmortem
