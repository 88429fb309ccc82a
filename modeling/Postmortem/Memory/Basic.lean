import Postmortem.Memory.Overwrite

/-!
# Memory: the mapped bytes of a process

A `Memory` is a list of segments, sorted by address, no two of which share a byte, and all of which
end inside a 64-bit address space.  Both facts are part of the type, so every memory has them.

* `Memory.map` — bytes written over the memory.  It refuses exactly a range that would reach past
  the last address, and otherwise is a pointwise update: **`byteAt?_map`**.
* `Memory.mapZeroed` — a run of zero bytes written over the memory.  It refuses also a run longer
  than `longestRun`, and otherwise writes as `Memory.map` does: **`mapZeroed_eq_map`**.
* `Memory.read` — the bytes of a range, all from one segment.  **`read_eq_some_iff`** says when a
  range can be read; touching segments are not read across.
* `Memory.byteAt?` — the partial function from addresses to bytes that a memory stands for.
* `Memory.length`, `Memory.limit` — how many bytes are mapped, and the first address above them all.
-/

namespace Postmortem

/-- The most bytes that one run can have.  Distances inside a run are signed 64-bit integers, so it
is shorter than half the address space. -/
def longestRun : Nat :=
  0x7fffffffffffffff

/-- The mapped bytes of a process. -/
structure Memory where
  /-- The segments, by ascending address. -/
  segments : List Segment
  /-- Each segment ends before the next one starts. -/
  apart : segments.Pairwise Segment.Before
  /-- Each segment ends inside the address space. -/
  bounded : ∀ s ∈ segments, s.limit < addressSpace
  deriving Repr, DecidableEq

namespace Memory

def empty : Memory where
  segments := []
  apart := .nil
  bounded := by simp

instance : Inhabited Memory :=
  ⟨empty⟩

/-! ## Writing -/

/-- Bytes written at a 64-bit address, over what was there.  A range inside a segment is changed in
place; a range that shares bytes with segments joins them in one.  A range that reaches past the
last address is refused. -/
def map (m : Memory) (address : Nat) (bytes : List UInt8) : Option Memory :=
  if inside : address < addressSpace then
    match written : overwrite address bytes.toArray m.segments with
    | some segments =>
      some {
        segments
        apart := apart_of_overwrite m.apart m.bounded inside written
        bounded := bounded_of_overwrite m.apart m.bounded inside written }
    | none => none
  else none

/-- A run of zero bytes written at an address, over what was there.  The run is looked at before it
is made: one that is too long, or that reaches past the last address, is refused. -/
def mapZeroed (m : Memory) (address length : Nat) : Option Memory :=
  if length ≤ longestRun ∧ address + length < addressSpace then
    m.map address (List.replicate length 0)
  else none

/-! ## Reading -/

/-- The bytes of a range, if one segment holds them all. -/
def read (m : Memory) (address length : Nat) : Option (List UInt8) :=
  (containing m.segments address length).map fun s => s.slice address length

/-- The byte at an address, if it is mapped. -/
def byteAt? (m : Memory) (address : Nat) : Option UInt8 :=
  byteIn? m.segments address

def length (m : Memory) : Nat :=
  m.segments.foldr (fun s count => s.bytes.size + count) 0

/-- No segment is stored; a segment without bytes counts. -/
def isEmpty (m : Memory) : Bool :=
  m.segments.isEmpty

/-- An address above every mapped byte. -/
def limit (m : Memory) : Nat :=
  m.segments.foldr (fun s bound => max s.limit bound) 0

/-! ## What writing does -/

/-- **Writing is splicing**, unless the range reaches past the last address. -/
theorem map_eq_some_iff {m m' : Memory} {address : Nat} {bytes : List UInt8} :
    m.map address bytes = some m' ↔ address + bytes.length < addressSpace ∧
      m'.segments = splice address bytes.toArray m.segments := by
  constructor
  · intro h
    unfold map at h
    split at h
    · next inside =>
      split at h
      · next segments written =>
        obtain rfl := Option.some.inj h
        exact (overwrite_eq_some_iff m.apart m.bounded inside).1 written
      · contradiction
    · contradiction
  · rintro ⟨fits, segments_eq⟩
    have inside : address < addressSpace := by omega
    have spliced : overwrite address bytes.toArray m.segments = some m'.segments :=
      (overwrite_eq_some_iff m.apart m.bounded inside).2 ⟨fits, segments_eq⟩
    rw [map, dif_pos inside]
    split
    · next segments written =>
      obtain rfl : segments = m'.segments := Option.some.inj (written.symm.trans spliced)
      rfl
    · next refused => simp [refused] at spliced

/-- Writing is refused exactly when the range reaches past the last address. -/
theorem map_eq_none_iff {m : Memory} {address : Nat} {bytes : List UInt8} :
    m.map address bytes = none ↔ addressSpace ≤ address + bytes.length := by
  constructor
  · intro refused
    refine Nat.le_of_not_lt fun fits => ?_
    let spliced : Memory :=
      { segments := splice address bytes.toArray m.segments
        apart := pairwise_splice m.apart
        bounded := limit_lt_of_mem_splice fits m.bounded }
    have written : m.map address bytes = some spliced := map_eq_some_iff.2 ⟨fits, rfl⟩
    simp [refused] at written
  · intro past
    cases h : m.map address bytes with
    | none => rfl
    | some m' => exact absurd (map_eq_some_iff.1 h).1 (Nat.not_lt_of_le past)

/-- Writing a run of zeros is writing its bytes. -/
theorem mapZeroed_eq_map {m : Memory} {address length : Nat} (h : length ≤ longestRun) :
    m.mapZeroed address length = m.map address (List.replicate length 0) := by
  unfold mapZeroed
  split
  · rfl
  · rw [eq_comm, map_eq_none_iff, List.length_replicate]
    omega

/-- Writing a run of zeros is refused exactly when the run is too long or reaches past the last
address. -/
theorem mapZeroed_eq_none_iff {m : Memory} {address length : Nat} :
    m.mapZeroed address length = none ↔
      longestRun < length ∨ addressSpace ≤ address + length := by
  unfold mapZeroed
  split
  · rw [map_eq_none_iff, List.length_replicate]
    omega
  · simp only [true_iff]
    omega

theorem segments_map {m m' : Memory} {address : Nat} {bytes : List UInt8}
    (h : m.map address bytes = some m') :
    m'.segments = splice address bytes.toArray m.segments :=
  (map_eq_some_iff.1 h).2

/-- **Writing is a pointwise update.** -/
theorem byteAt?_map {m m' : Memory} {address : Nat} {bytes : List UInt8}
    (h : m.map address bytes = some m') (x : Nat) :
    m'.byteAt? x =
      if address ≤ x ∧ x < address + bytes.length then bytes[x - address]? else m.byteAt? x := by
  simp only [byteAt?, segments_map h, byteIn?_splice, List.size_toArray, List.getElem?_toArray]

/-! ## What can be read -/

/-- **A range can be read exactly when one segment holds all of it.**  At most one segment holds a
range with a byte in it, and that is the nearest one. -/
theorem read_eq_some_iff {m : Memory} {address length : Nat} {bytes : List UInt8} :
    m.read address length = some bytes ↔
      ∃ s ∈ m.segments, s.Holds address length ∧ s.slice address length = bytes := by
  constructor
  · intro h
    obtain ⟨s, found, hslice⟩ := Option.map_eq_some_iff.1 h
    obtain ⟨hs, holds⟩ := containing_eq_some m.apart found
    exact ⟨s, hs, holds, hslice⟩
  · rintro ⟨s, hs, holds, hslice⟩
    cases found : containing m.segments address length with
    | none => exact absurd holds (containing_eq_none m.apart m.bounded found s hs)
    | some t =>
      obtain ⟨ht, tholds⟩ := containing_eq_some m.apart found
      rw [read, found, Option.map_some, ← hslice]
      rcases eq_or_before m.apart hs ht with rfl | h
      · rfl
      · have hlength : length = 0 := by
          simp only [Segment.Holds, Segment.Before] at *
          omega
        simp [Segment.slice, hlength]

/-- A range can be read exactly when some segment holds it. -/
theorem read_eq_none_iff {m : Memory} {address length : Nat} :
    m.read address length = none ↔ ∀ s ∈ m.segments, ¬ s.Holds address length := by
  rw [read, Option.map_eq_none_iff]
  constructor
  · exact containing_eq_none m.apart m.bounded
  · intro outside
    cases found : containing m.segments address length with
    | none => rfl
    | some s =>
      obtain ⟨hs, holds⟩ := containing_eq_some m.apart found
      exact absurd holds (outside s hs)

/-- What is read has the length that was asked for. -/
theorem length_of_read {m : Memory} {address length : Nat} {bytes : List UInt8}
    (h : m.read address length = some bytes) : bytes.length = length := by
  obtain ⟨s, -, holds, rfl⟩ := read_eq_some_iff.1 h
  simp only [Segment.Holds, Segment.limit] at holds
  simp only [Segment.slice, Array.length_toList, Array.size_extract]
  omega

theorem limit_le_of_mem {m : Memory} {s : Segment} (h : s ∈ m.segments) : s.limit ≤ m.limit := by
  suffices ∀ segments : List Segment, s ∈ segments →
      s.limit ≤ segments.foldr (fun s bound => max s.limit bound) 0 from this _ h
  intro segments h
  induction segments with
  | nil => simp at h
  | cons head rest ih =>
    rw [List.foldr_cons]
    rcases List.mem_cons.1 h with rfl | h
    · omega
    · have := ih h
      omega

/-- Nothing is read from above the limit. -/
theorem le_limit_of_read {m : Memory} {address length : Nat} {bytes : List UInt8}
    (h : m.read address length = some bytes) : address + length ≤ m.limit := by
  obtain ⟨s, hs, holds, -⟩ := read_eq_some_iff.1 h
  have := limit_le_of_mem hs
  simp only [Segment.Holds] at holds
  omega

end Memory

end Postmortem
