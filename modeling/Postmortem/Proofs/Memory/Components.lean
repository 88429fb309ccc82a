import Mathlib.Data.List.Induction
import Mathlib.Data.Set.Lattice
import Mathlib.Logic.Relation
import Mathlib.Order.Interval.Set.LinearOrder
import Postmortem.Image.Read

/-!
# Segments are the overlap components of what was mapped

Whoever captured a process maps ranges one by one, and each call merges segments as it finds them.
What comes out can be said without the calls: two ranges belong together if they share a byte, or if
a chain of ranges each sharing a byte with the next leads from one to the other.

* `Joined` / `component` — the transitive closure of sharing a byte, and the addresses that are
  joined to a range.  Ranges that only touch end to end share no byte.
* `Partition` — a family of sets of addresses that is apart, covers every range, and is held
  together by the ranges.  **There is only one** (`Partition.eq_components`), and it is the family
  of components.
* `Partition.absorb` — one more range merges the sets it shares a byte with and leaves the others.
* `extents_splice` — that is what laying bytes over a list of segments does.
* **`segments_are_overlap_components`** — the segments of an image after any calls.

The proofs never follow a bridge between segments: everything about chains of ranges is settled in
`Partition`, and everything about the sorted list in `Merges`.
-/

namespace Postmortem

/-! ## Components -/

/-- A chain of ranges, each sharing a byte with the next, leads from one to the other. -/
def Joined (ranges : Set (Set ℕ)) : Set ℕ → Set ℕ → Prop :=
  Relation.TransGen fun r s => r ∈ ranges ∧ s ∈ ranges ∧ (r ∩ s).Nonempty

/-- The union of all ranges joined to one. -/
def component (ranges : Set (Set ℕ)) (r : Set ℕ) : Set ℕ :=
  ⋃₀ {s | Joined ranges r s}

lemma Joined.mono {ranges ranges' : Set (Set ℕ)} (h : ranges ⊆ ranges') {r s : Set ℕ}
    (joined : Joined ranges r s) : Joined ranges' r s :=
  Relation.TransGen.mono (fun _ _ edge => ⟨h edge.1, h edge.2.1, edge.2.2⟩) r s joined

lemma Joined.mem {ranges : Set (Set ℕ)} {r s : Set ℕ} (joined : Joined ranges r s) :
    s ∈ ranges := by
  induction joined with
  | single edge => exact edge.2.1
  | tail _ edge _ => exact edge.2.1

lemma component_mono {ranges ranges' : Set (Set ℕ)} (h : ranges ⊆ ranges') (r : Set ℕ) :
    component ranges r ⊆ component ranges' r :=
  Set.sUnion_subset_sUnion fun _ joined => Joined.mono h joined

lemma component_subset_of_joined {ranges : Set (Set ℕ)} {r s : Set ℕ}
    (joined : Joined ranges r s) : component ranges s ⊆ component ranges r :=
  Set.sUnion_subset_sUnion fun _ further => Relation.TransGen.trans joined further

lemma subset_component {ranges : Set (Set ℕ)} {r : Set ℕ} (hr : r ∈ ranges)
    (nonempty : r.Nonempty) : r ⊆ component ranges r :=
  Set.subset_sUnion_of_mem (Relation.TransGen.single ⟨hr, hr, by rwa [Set.inter_self]⟩)

/-! ## The partition that ranges make -/

/-- The parts are apart, every range lies in one of them, every part has a range in it, and any
range of a part is joined to all of it. -/
structure Partition (parts ranges : Set (Set ℕ)) : Prop where
  apart : ∀ t ∈ parts, ∀ u ∈ parts, (t ∩ u).Nonempty → t = u
  covered : ∀ r ∈ ranges, ∃ t ∈ parts, r ⊆ t
  occupied : ∀ t ∈ parts, ∃ r ∈ ranges, r ⊆ t
  joined : ∀ t ∈ parts, ∀ r ∈ ranges, r ⊆ t → t ⊆ component ranges r

namespace Partition

variable {parts ranges : Set (Set ℕ)}

/-- A chain of ranges never leaves the part it starts in. -/
lemma subset_of_joined (p : Partition parts ranges) {t r s : Set ℕ} (ht : t ∈ parts) (hr : r ⊆ t)
    (joined : Joined ranges r s) : s ⊆ t := by
  have step {q s : Set ℕ} (hq : q ⊆ t) (hs : s ∈ ranges) (share : (q ∩ s).Nonempty) : s ⊆ t := by
    obtain ⟨u, hu, hsu⟩ := p.covered s hs
    obtain rfl := p.apart t ht u hu (share.mono (Set.inter_subset_inter hq hsu))
    exact hsu
  induction joined with
  | single edge => exact step hr edge.2.1 edge.2.2
  | tail _ edge ih => exact step ih edge.2.1 edge.2.2

/-- The part around a range is the component of the range. -/
lemma eq_component (p : Partition parts ranges) {t r : Set ℕ} (ht : t ∈ parts) (hr : r ∈ ranges)
    (inside : r ⊆ t) : t = component ranges r :=
  Set.Subset.antisymm (p.joined t ht r hr inside)
    (Set.sUnion_subset fun _ joined => p.subset_of_joined ht inside joined)

/-- **Ranges make one partition only, that into their components.** -/
lemma eq_components (p : Partition parts ranges) : parts = component ranges '' ranges := by
  ext t
  constructor
  · intro ht
    obtain ⟨r, hr, inside⟩ := p.occupied t ht
    exact ⟨r, hr, (p.eq_component ht hr inside).symm⟩
  · rintro ⟨r, hr, rfl⟩
    obtain ⟨t, ht, inside⟩ := p.covered r hr
    rwa [← p.eq_component ht hr inside]

/-! ### One more range -/

/-- A new range with the parts that share a byte with it. -/
def merged (range : Set ℕ) (parts : Set (Set ℕ)) : Set ℕ :=
  range ∪ ⋃₀ {t ∈ parts | (t ∩ range).Nonempty}

/-- The parts that share a byte with a new range become one with it. -/
def absorb (range : Set ℕ) (parts : Set (Set ℕ)) : Set (Set ℕ) :=
  insert (merged range parts) {t ∈ parts | ¬ (t ∩ range).Nonempty}

variable {range t r : Set ℕ}

lemma subset_merged (ht : t ∈ parts) (share : (t ∩ range).Nonempty) : t ⊆ merged range parts :=
  (Set.subset_sUnion_of_mem (show t ∈ {t ∈ parts | (t ∩ range).Nonempty} from ⟨ht, share⟩)).trans
    Set.subset_union_right

/-- The merged part and the parts left alone are apart. -/
lemma merged_apart (p : Partition parts ranges) (ht : t ∈ parts)
    (clear : ¬ (t ∩ range).Nonempty) : ¬ (merged range parts ∩ t).Nonempty := by
  rintro ⟨x, hx | ⟨u, ⟨hu, share⟩, hxu⟩, hxt⟩
  · exact clear ⟨x, hxt, hx⟩
  · obtain rfl := p.apart u hu t ht ⟨x, hxu, hxt⟩
    exact clear share

/-- A new range reaches every part that it shares a byte with, through a range of that part. -/
lemma joined_of_share (p : Partition parts ranges) (ht : t ∈ parts)
    (share : (t ∩ range).Nonempty) :
    ∃ q ∈ ranges, q ⊆ t ∧ Joined (insert range ranges) range q := by
  obtain ⟨x, hxt, hxrange⟩ := share
  obtain ⟨r, hr, inside⟩ := p.occupied t ht
  obtain ⟨q, joined, hxq⟩ := p.joined t ht r hr inside hxt
  have hq := Joined.mem joined
  exact ⟨q, hq, p.subset_of_joined ht inside joined,
    .single ⟨Set.mem_insert _ _, Set.mem_insert_of_mem _ hq, x, hxrange, hxq⟩⟩

/-- The merged part is joined up by the new range. -/
lemma merged_subset_component (p : Partition parts ranges) (nonempty : range.Nonempty) :
    merged range parts ⊆ component (insert range ranges) range := by
  refine Set.union_subset (subset_component (Set.mem_insert _ _) nonempty) ?_
  refine Set.sUnion_subset fun t ⟨ht, share⟩ => ?_
  obtain ⟨q, hq, inside, joined⟩ := p.joined_of_share ht share
  calc t ⊆ component ranges q := p.joined t ht q hq inside
    _ ⊆ component (insert range ranges) q := component_mono (Set.subset_insert _ _) q
    _ ⊆ component (insert range ranges) range := component_subset_of_joined joined

/-- An old range that lies in the merged part is joined to the new one. -/
lemma joined_of_subset_merged (p : Partition parts ranges) (hr : r ∈ ranges) (filled : r.Nonempty)
    (inside : r ⊆ merged range parts) : Joined (insert range ranges) r range := by
  obtain ⟨t, ht, hrt⟩ := p.covered r hr
  obtain ⟨x, hx⟩ := filled
  have share : (t ∩ range).Nonempty := by
    by_contra clear
    exact p.merged_apart ht clear ⟨x, inside hx, hrt hx⟩
  obtain ⟨y, hyt, hyrange⟩ := share
  obtain ⟨q, joined, hyq⟩ := p.joined t ht r hr hrt hyt
  have edge : Joined (insert range ranges) q range :=
    .single ⟨Set.mem_insert_of_mem _ (Joined.mem joined), Set.mem_insert _ _, y, hyq, hyrange⟩
  exact (Joined.mono (Set.subset_insert _ _) joined).trans edge

/-- **One more range turns the partition of the others into that of all.** -/
lemma partition_absorb (p : Partition parts ranges) (filled : ∀ r ∈ ranges, r.Nonempty)
    (nonempty : range.Nonempty) : Partition (absorb range parts) (insert range ranges) := by
  constructor
  · rintro t (rfl | ⟨ht, hclear⟩) u (rfl | ⟨hu, uclear⟩) share
    · rfl
    · exact absurd share (p.merged_apart hu uclear)
    · exact absurd (Set.inter_comm t _ ▸ share) (p.merged_apart ht hclear)
    · exact p.apart t ht u hu share
  · rintro r (rfl | hr)
    · exact ⟨_, Set.mem_insert _ _, Set.subset_union_left⟩
    · obtain ⟨t, ht, inside⟩ := p.covered r hr
      by_cases share : (t ∩ range).Nonempty
      · exact ⟨_, Set.mem_insert _ _, inside.trans (subset_merged ht share)⟩
      · exact ⟨t, Set.mem_insert_of_mem _ ⟨ht, share⟩, inside⟩
  · rintro t (rfl | ⟨ht, -⟩)
    · exact ⟨range, Set.mem_insert _ _, Set.subset_union_left⟩
    · obtain ⟨r, hr, inside⟩ := p.occupied t ht
      exact ⟨r, Set.mem_insert_of_mem _ hr, inside⟩
  · rintro t (rfl | ⟨ht, hclear⟩) r (rfl | hr) inside
    · exact p.merged_subset_component nonempty
    · exact (p.merged_subset_component nonempty).trans (component_subset_of_joined
        (p.joined_of_subset_merged hr (filled r hr) inside))
    · obtain ⟨x, hx⟩ := nonempty
      exact absurd ⟨x, inside hx, hx⟩ hclear
    · exact (p.joined t ht r hr inside).trans (component_mono (Set.subset_insert _ _) r)

end Partition

/-! ## What a splice does to segments -/

namespace Segment

/-- The addresses that a segment maps. -/
def range (s : Segment) : Set ℕ :=
  Set.Ico s.base s.limit

/-- The segment shares no byte with the `size` addresses from `address` on. -/
def Clear (s : Segment) (address size : ℕ) : Prop :=
  s.limit ≤ address ∨ address + size ≤ s.base

lemma clear_iff {s : Segment} {address : ℕ} {bytes : Array UInt8} (filled : s.base < s.limit)
    (some_bytes : 0 < bytes.size) :
    s.Clear address bytes.size ↔ s.ClearBelow address bytes ∨ s.ClearAbove address bytes := by
  simp only [Clear, ClearBelow, ClearAbove]
  omega

lemma range_overlay {s : Segment} {address : ℕ} {bytes : Array UInt8}
    (below : ¬ s.ClearBelow address bytes) (above : ¬ s.ClearAbove address bytes) :
    (s.overlay address bytes).range = Set.Ico address (address + bytes.size) ∪ s.range := by
  have hlimit := limit_overlay below above
  have hbase : (s.overlay address bytes).base = min address s.base := rfl
  ext x
  rw [range, hlimit, hbase, range, Set.mem_union, Set.mem_Ico, Set.mem_Ico, Set.mem_Ico]
  simp only [ClearBelow, ClearAbove] at below above
  omega

/-- A later segment is clear of what the head and new bytes make together exactly if it is clear of
the new bytes. -/
lemma clear_overlay_iff {head s : Segment} {address : ℕ} {bytes : Array UInt8}
    (below : ¬ head.ClearBelow address bytes) (above : ¬ head.ClearAbove address bytes)
    (before : head.Before s) (filled : s.base < s.limit) :
    s.Clear (head.overlay address bytes).base (head.overlay address bytes).bytes.size ↔
      s.Clear address bytes.size := by
  have hlimit := limit_overlay below above
  have hbase : (head.overlay address bytes).base = min address head.base := rfl
  rw [limit] at hlimit
  simp only [Clear, ClearBelow, ClearAbove, Before] at *
  omega

end Segment

lemma Segment.share_iff {s : Segment} {address size : ℕ} (filled : s.base < s.limit)
    (some_bytes : 0 < size) :
    (s.range ∩ Set.Ico address (address + size)).Nonempty ↔ ¬ s.Clear address size := by
  rw [range, Set.Ico_inter_Ico, Set.nonempty_Ico, Clear]
  omega

/-- The sets of addresses that the segments of a list map. -/
def extents (segments : List Segment) : Set (Set ℕ) :=
  Segment.range '' {s | s ∈ segments}

/-- One segment of a list is the union of a range with all segments that share a byte with it, and
the others are the segments left alone. -/
structure Merges (address size : ℕ) (segments : List Segment) (merged : Segment)
    (result : List Segment) : Prop where
  mem_iff : ∀ s, s ∈ result ↔ s = merged ∨ s ∈ segments ∧ s.Clear address size
  range_iff : ∀ x, x ∈ merged.range ↔ x ∈ Set.Ico address (address + size) ∨
    ∃ s ∈ segments, ¬ s.Clear address size ∧ x ∈ s.range

lemma merges_of_clear {address : ℕ} {bytes : Array UInt8} {segments : List Segment}
    (clear : ∀ s ∈ segments, s.Clear address bytes.size) :
    Merges address bytes.size segments ⟨address, bytes⟩ (⟨address, bytes⟩ :: segments) where
  mem_iff s := by rw [List.mem_cons, and_iff_left_of_imp (clear s)]
  range_iff x := by
    have none_shares : ¬ ∃ s ∈ segments, ¬ s.Clear address bytes.size ∧ x ∈ s.range :=
      fun ⟨s, hs, share, _⟩ => share (clear s hs)
    rw [or_iff_left none_shares]
    rfl

namespace Merges

variable {address : ℕ} {head merged : Segment} {rest result : List Segment}

/-- A segment that is clear of the range is passed over. -/
lemma cons {size : ℕ} (h : Merges address size rest merged result)
    (clear : head.Clear address size) :
    Merges address size (head :: rest) merged (head :: result) where
  mem_iff s := by
    rw [List.mem_cons, List.mem_cons, h.mem_iff]
    constructor
    · rintro (rfl | rfl | ⟨hs, hclear⟩)
      exacts [.inr ⟨.inl rfl, clear⟩, .inl rfl, .inr ⟨.inr hs, hclear⟩]
    · rintro (rfl | ⟨rfl | hs, hclear⟩)
      exacts [.inr (.inl rfl), .inl rfl, .inr (.inr ⟨hs, hclear⟩)]
  range_iff x := by
    simp only [h.range_iff, List.mem_cons, exists_eq_or_imp, clear, not_true, false_and, false_or]

/-- A segment that shares a byte with the range is taken into it. -/
lemma of_overlay {bytes : Array UInt8} (below : ¬ head.ClearBelow address bytes)
    (above : ¬ head.ClearAbove address bytes) (before : ∀ s ∈ rest, head.Before s)
    (filled : ∀ s ∈ rest, s.base < s.limit) (share : ¬ head.Clear address bytes.size)
    (h : Merges (head.overlay address bytes).base (head.overlay address bytes).bytes.size rest
      merged result) : Merges address bytes.size (head :: rest) merged result := by
  have later : ∀ s ∈ rest, s.Clear (head.overlay address bytes).base
      (head.overlay address bytes).bytes.size ↔ s.Clear address bytes.size :=
    fun s hs => Segment.clear_overlay_iff below above (before s hs) (filled s hs)
  refine ⟨fun s => ?_, fun x => ?_⟩
  · rw [h.mem_iff, and_congr_right (later s), List.mem_cons]
    constructor
    · exact Or.imp_right fun ⟨hs, clear⟩ => ⟨.inr hs, clear⟩
    · rintro (rfl | ⟨rfl | hs, clear⟩)
      exacts [.inl rfl, absurd clear share, .inr ⟨hs, clear⟩]
  · have hrest : (∃ s ∈ rest, ¬ s.Clear (head.overlay address bytes).base
        (head.overlay address bytes).bytes.size ∧ x ∈ s.range) ↔
        ∃ s ∈ rest, ¬ s.Clear address bytes.size ∧ x ∈ s.range :=
      exists_congr fun s => and_congr_right fun hs => by rw [later s hs]
    rw [h.range_iff, hrest]
    show x ∈ (head.overlay address bytes).range ∨ _ ↔ _
    rw [Segment.range_overlay below above, Set.mem_union, or_assoc]
    simp only [List.mem_cons, exists_eq_or_imp, share, not_false_iff, true_and]

end Merges

/-- Laying bytes over segments that are not empty merges what shares a byte with them. -/
lemma exists_merges_splice {address : ℕ} {bytes : Array UInt8} {segments : List Segment}
    (some_bytes : 0 < bytes.size) (apart : segments.Pairwise Segment.Before)
    (filled : ∀ s ∈ segments, s.base < s.limit) :
    ∃ merged, Merges address bytes.size segments merged (splice address bytes segments) := by
  induction segments generalizing address bytes with
  | nil => exact ⟨_, merges_of_clear (by simp)⟩
  | cons head rest ih =>
      have ⟨hHead, hRest⟩ := List.pairwise_cons.mp apart
      have ⟨fHead, fRest⟩ := List.forall_mem_cons.mp filled
      have head_clear_iff : head.Clear address bytes.size ↔ _ := Segment.clear_iff fHead some_bytes
      simp only [splice]
      split
      · next clear =>
        obtain ⟨merged, h⟩ := ih some_bytes hRest fRest
        exact ⟨merged, h.cons (head_clear_iff.mpr (.inl clear))⟩
      · split
        · next clear =>
          have beyond : ∀ s ∈ rest, s.Clear address bytes.size :=
            fun s hs => .inr (clear.2.trans (hHead s hs).1.le)
          exact ⟨_, merges_of_clear
            (List.forall_mem_cons.mpr ⟨head_clear_iff.mpr (.inr clear), beyond⟩)⟩
        · next below above =>
          have grown : 0 < (head.overlay address bytes).bytes.size := by
            have hlimit := Segment.limit_overlay below above
            have hbase : (head.overlay address bytes).base = min address head.base := rfl
            rw [Segment.limit] at hlimit
            omega
          have share : ¬ head.Clear address bytes.size := by
            rw [head_clear_iff, not_or]
            exact ⟨below, above⟩
          obtain ⟨merged, h⟩ := ih grown hRest fRest
          exact ⟨merged, h.of_overlay below above hHead fRest share⟩

/-- **Laying bytes over segments absorbs the new range.** -/
lemma extents_splice {address : ℕ} {bytes : Array UInt8} {segments : List Segment}
    (some_bytes : 0 < bytes.size) (apart : segments.Pairwise Segment.Before)
    (filled : ∀ s ∈ segments, s.base < s.limit) :
    extents (splice address bytes segments) =
      Partition.absorb (Set.Ico address (address + bytes.size)) (extents segments) := by
  obtain ⟨merged, hmem, hrange⟩ : ∃ merged, Merges address bytes.size segments merged _ :=
    exists_merges_splice some_bytes apart filled
  have share {s : Segment} (hs : s ∈ segments) :
      (s.range ∩ Set.Ico address (address + bytes.size)).Nonempty ↔ ¬ s.Clear address bytes.size :=
    Segment.share_iff (filled s hs) some_bytes
  have hmerged : merged.range =
      Partition.merged (Set.Ico address (address + bytes.size)) (extents segments) := by
    ext x
    rw [hrange, Partition.merged, Set.mem_union, Set.mem_sUnion]
    refine or_congr_right ⟨?_, ?_⟩
    · rintro ⟨s, hs, hshare, hx⟩
      exact ⟨s.range, ⟨⟨s, hs, rfl⟩, (share hs).mpr hshare⟩, hx⟩
    · rintro ⟨-, ⟨⟨s, hs, rfl⟩, hshare⟩, hx⟩
      exact ⟨s, hs, (share hs).mp hshare, hx⟩
  rw [Partition.absorb, ← hmerged]
  ext t
  constructor
  · rintro ⟨s, hs, rfl⟩
    rcases (hmem s).mp hs with rfl | ⟨hs, clear⟩
    · exact .inl rfl
    · exact .inr ⟨⟨s, hs, rfl⟩, fun h => (share hs).mp h clear⟩
  · rintro (rfl | ⟨⟨s, hs, rfl⟩, hclear⟩)
    · exact ⟨merged, (hmem merged).mpr (.inl rfl), rfl⟩
    · rw [share hs, not_not] at hclear
      exact ⟨s, (hmem s).mpr (.inr ⟨hs, hclear⟩), rfl⟩

/-! ## Calls that map -/

/-- A call that maps a range of an image: bytes, a run of zeros, or the low bytes of an integer. -/
inductive Mapping where
  | data (address : ℕ) (bytes : List UInt8)
  | zeros (address length : ℕ)
  | integer (address size : ℕ) (word : Word)

namespace Mapping

def address : Mapping → ℕ
  | data address _ | zeros address _ | integer address _ _ => address

def length : Mapping → ℕ
  | data _ bytes => bytes.length
  | zeros _ length => length
  | integer _ size _ => size

/-- The addresses that the call maps. -/
def range (c : Mapping) : Set ℕ :=
  Set.Ico c.address (c.address + c.length)

/-- What the call writes can be made: a run of zeros is no longer than runs can be, and an integer
gives no more bytes than it has. -/
def Makeable : Mapping → Prop
  | data _ _ => True
  | zeros _ length => length ≤ longestRun
  | integer _ size _ => size ≤ 8

def apply (image : Image) : Mapping → Option Image
  | data address bytes => image.map address bytes
  | zeros address length => image.mapZeroed address length
  | integer address size word => image.write address size word

/-- Every call that can be made is a write of as many bytes as its range has. -/
lemma apply_eq_map {c : Mapping} (h : c.Makeable) (image : Image) :
    ∃ bytes : List UInt8, bytes.length = c.length ∧ c.apply image = image.map c.address bytes := by
  cases c with
  | data address bytes => exact ⟨bytes, rfl, rfl⟩
  | zeros address length =>
      refine ⟨List.replicate length 0, List.length_replicate, ?_⟩
      rw [apply, Image.mapZeroed, Memory.mapZeroed_eq_map h]
      rfl
  | integer address size word =>
      exact ⟨image.order.encode size word, ByteOrder.length_encode _ _ _, if_pos h⟩

lemma apply_eq_none {c : Mapping} (h : ¬ c.Makeable) (image : Image) : c.apply image = none := by
  cases c with
  | data address bytes => exact absurd trivial h
  | zeros address length =>
      rw [apply, Image.mapZeroed, Option.map_eq_none_iff, Memory.mapZeroed_eq_none_iff]
      exact .inl (not_le.mp h)
  | integer address size word => exact if_neg h

end Mapping

/-- The image after a sequence of calls, if none is refused. -/
def Image.mapAll (image : Image) (calls : List Mapping) : Option Image :=
  calls.foldlM Mapping.apply image

/-- The ranges that a sequence of calls maps. -/
def ranges (calls : List Mapping) : Set (Set ℕ) :=
  Mapping.range '' {c | c ∈ calls}

/-- The call maps at least one byte, and none past the last address. -/
def Mapping.Proper (c : Mapping) : Prop :=
  0 < c.length ∧ c.address + c.length < addressSpace

lemma ranges_append (calls : List Mapping) (c : Mapping) :
    ranges (calls ++ [c]) = insert c.range (ranges calls) := by
  ext r
  simp [ranges, eq_comm, or_and_right, exists_or, or_comm]

lemma nonempty_of_mem_ranges {calls : List Mapping} (proper : ∀ c ∈ calls, c.Proper) :
    ∀ r ∈ ranges calls, r.Nonempty := by
  rintro - ⟨c, hc, rfl⟩
  exact Set.nonempty_Ico.mpr (Nat.lt_add_of_pos_right (proper c hc).1)

lemma Mapping.isSome_apply_iff {c : Mapping} (proper : c.Proper) (image : Image) :
    (c.apply image).isSome ↔ c.Makeable := by
  constructor
  · intro h
    by_contra hmake
    simp [apply_eq_none hmake] at h
  · intro hmake
    obtain ⟨bytes, hlength, happly⟩ := apply_eq_map hmake image
    rw [happly, Image.map, Option.isSome_map, Option.isSome_iff_ne_none, ne_eq,
      Memory.map_eq_none_iff, hlength]
    exact not_le.mpr proper.2

lemma isSome_mapAll_iff {calls : List Mapping} (proper : ∀ c ∈ calls, c.Proper) (image : Image) :
    (image.mapAll calls).isSome ↔ ∀ c ∈ calls, c.Makeable := by
  induction calls generalizing image with
  | nil => simp [Image.mapAll]
  | cons c calls ih =>
      have ⟨hc, hcalls⟩ := List.forall_mem_cons.mp proper
      have happly := Mapping.isSome_apply_iff hc image
      rw [List.forall_mem_cons, ← happly, Image.mapAll, List.foldlM_cons]
      cases h : c.apply image with
      | none => simp
      | some next => simpa [Image.mapAll] using ih hcalls next

/-- **Call by call the segments stay the partition that the mapped ranges make.** -/
lemma partition_mapAll {start image : Image} (fresh : start.memory = .empty)
    {calls : List Mapping} (proper : ∀ c ∈ calls, c.Proper)
    (h : start.mapAll calls = some image) :
    Partition (extents image.memory.segments) (ranges calls) := by
  induction calls using List.reverseRecOn generalizing image with
  | nil =>
      obtain rfl : start = image := Option.some.inj h
      constructor <;> simp [fresh, Memory.empty, extents, ranges]
  | append_singleton calls c ih =>
      rw [Image.mapAll, List.foldlM_append, Option.bind_eq_bind, Option.bind_eq_some_iff] at h
      obtain ⟨before, hbefore, hlast⟩ := h
      replace hlast : c.apply before = some image := by simpa using hlast
      have hcalls : ∀ c ∈ calls, c.Proper := fun c hc => proper c (List.mem_append_left _ hc)
      have hc : c.Proper := proper c (by simp)
      have hmake : c.Makeable := (Mapping.isSome_apply_iff hc before).mp (by simp [hlast])
      obtain ⟨bytes, hlength, happly⟩ := Mapping.apply_eq_map hmake before
      rw [happly] at hlast
      obtain ⟨m, hm, rfl⟩ := Option.map_eq_some_iff.mp hlast
      have p := ih hcalls hbefore
      have nonempty := nonempty_of_mem_ranges hcalls
      have filled : ∀ s ∈ before.memory.segments, s.base < s.limit := by
        intro s hs
        obtain ⟨r, hr, inside⟩ := p.occupied s.range ⟨s, hs, rfl⟩
        exact Set.nonempty_Ico.mp ((nonempty r hr).mono inside)
      have some_bytes : 0 < bytes.toArray.size := by simpa [hlength] using hc.1
      rw [ranges_append, Memory.segments_map hm,
        extents_splice some_bytes before.memory.apart filled, List.size_toArray, hlength]
      exact p.partition_absorb nonempty (nonempty_of_mem_ranges proper _ ⟨c, by simp, rfl⟩)

/-! ## Reading -/

lemma Segment.holds_iff {s : Segment} {address length : ℕ} (some_bytes : 1 ≤ length) :
    s.Holds address length ↔ Set.Ico address (address + length) ⊆ s.range := by
  rw [range, Set.Ico_subset_Ico_iff (by omega), Holds]

/-- **The segments of an image are the overlap components of what was mapped.**  Calls that map
ranges inside the address space are refused only if what they write cannot be made.  Afterwards the
segments are the components of the ranges, whatever the order of the calls, and a range with a byte
in it can be read exactly when it lies in one component. -/
theorem segments_are_overlap_components {start : Image} (fresh : start.memory = .empty)
    {calls : List Mapping} (proper : ∀ c ∈ calls, c.Proper) :
    ((start.mapAll calls).isSome ↔ ∀ c ∈ calls, c.Makeable) ∧
    ∀ image, start.mapAll calls = some image →
      extents image.memory.segments = component (ranges calls) '' ranges calls ∧
      (∀ start' calls' image', start'.memory = .empty → calls.Perm calls' →
        Image.mapAll start' calls' = some image' →
        extents image'.memory.segments = extents image.memory.segments) ∧
      ∀ address length, 1 ≤ length →
        ((∃ r ∈ ranges calls,
            Set.Ico address (address + length) ⊆ component (ranges calls) r) →
          ∃ bytes, image.readBytes address length = .ok bytes) ∧
        ((¬ ∃ r ∈ ranges calls,
            Set.Ico address (address + length) ⊆ component (ranges calls) r) →
          image.readBytes address length = .error (.unmapped address length)) := by
  refine ⟨isSome_mapAll_iff proper start, fun image h => ?_⟩
  have hparts := (partition_mapAll fresh proper h).eq_components
  refine ⟨hparts, fun start' calls' image' fresh' perm h' => ?_,
    fun address length some_bytes => ?_⟩
  · have hranges : ranges calls' = ranges calls := by
      ext r
      simp only [ranges, Set.mem_image, Set.mem_ofPred_eq, perm.mem_iff]
    rw [hparts, ← hranges]
    exact (partition_mapAll fresh' (fun c hc => proper c (perm.mem_iff.mpr hc)) h').eq_components
  · have held : (∃ r ∈ ranges calls,
        Set.Ico address (address + length) ⊆ component (ranges calls) r) ↔
        ∃ s ∈ image.memory.segments, s.Holds address length := by
      have lifted : (∃ r ∈ ranges calls,
          Set.Ico address (address + length) ⊆ component (ranges calls) r) ↔
          ∃ t ∈ component (ranges calls) '' ranges calls, Set.Ico address (address + length) ⊆ t :=
        Set.exists_mem_image.symm
      rw [lifted, ← hparts, extents, Set.exists_mem_image]
      simp only [Segment.holds_iff some_bytes, Set.mem_ofPred_eq]
    rw [held]
    constructor
    · rintro ⟨s, hs, holds⟩
      have hread := Memory.read_eq_some_iff.mpr ⟨s, hs, holds, rfl⟩
      exact ⟨_, by rw [Image.readBytes, hread]⟩
    · intro hnone
      have hread : image.memory.read address length = none :=
        Memory.read_eq_none_iff.mpr fun s hs holds => hnone ⟨s, hs, holds⟩
      rw [Image.readBytes, hread]

/-- An integer that bridges two ranges, and two ranges that only touch. -/
def bridgingCalls : List Mapping :=
  [.data 0x10 [1, 2], .zeros 0x20 2, .zeros 0x14 2, .integer 0x11 4 7, .data 0x22 [3]]

theorem bridgingCalls_components :
    component (ranges bridgingCalls) '' ranges bridgingCalls =
      {Set.Ico 0x10 0x16, Set.Ico 0x20 0x22, Set.Ico 0x22 0x23} := by
  have proper : ∀ c ∈ bridgingCalls, c.Proper := by
    simp [bridgingCalls, Mapping.Proper, Mapping.length, Mapping.address, addressSpace]
  have fresh : (Image.empty .big).memory = .empty := rfl
  let image : Image :=
    { Image.empty .big with
      memory :=
        { segments := [⟨0x10, #[1, 0, 0, 0, 7, 0]⟩, ⟨0x20, #[0, 0]⟩, ⟨0x22, #[3]⟩]
          apart := by decide
          bounded := by decide } }
  have mapped : (Image.empty .big).mapAll bridgingCalls = some image := by decide +kernel
  obtain ⟨-, components⟩ := segments_are_overlap_components fresh proper
  obtain ⟨extents_eq, -⟩ := components image mapped
  rw [← extents_eq]
  ext t
  simp [image, extents, Segment.range, Segment.limit, eq_comm]

end Postmortem
