import Mathlib.Logic.Relation
import Postmortem.Proofs.Memory.Update

/-!
# Images that grow

An image is not always captured at once.  Ranges are mapped where nothing was mapped before, and
types are added, or defined under ids that were only declared.  Nothing that was there is touched;
yet segments merge, and tables get longer, so it has to be said what stays.

* `Image.Grows` — one such step.
* `exists_around_splice` — laying bytes over segments never takes a segment apart: what one segment
  held, one segment holds afterwards.
* `Image.Extends` — what growth leaves: every range that could be read reads the same, and every
  type that was defined is the same.
* **`extends_of_growth`** — any number of steps leads to an extension.
-/

namespace Postmortem

/-! ## Steps -/

/-- An image grows by one step: by bytes where nothing is mapped, by a type, or by a type under an
id that has none. -/
inductive Image.Grows (image : Image) : Image → Prop
  | map {address : ℕ} {bytes : List UInt8} {image' : Image}
      (fresh : ∀ x, address ≤ x → x < address + bytes.length → image.memory.byteAt? x = none)
      (mapped : image.map address bytes = some image') : Grows image image'
  | add (info : TypeInfo) : Grows image { image with types := (image.types.add info).2 }
  | declare : Grows image { image with types := image.types.declare.2 }
  | define {id : TypeId} (undefined : image.types.get? id = none) (info : TypeInfo) :
      Grows image { image with types := image.types.define id info }

/-- What an image has grown out of another leaves of it. -/
structure Image.Extends (image image' : Image) : Prop where
  order_eq : image'.order = image.order
  read : ∀ {address length : ℕ} {bytes : List UInt8},
    image.memory.read address length = some bytes → image'.memory.read address length = some bytes
  limit_le : image.memory.limit ≤ image'.memory.limit
  get? : ∀ {id : TypeId} {info : TypeInfo},
    image.types.get? id = some info → image'.types.get? id = some info
  size_le : image.types.size ≤ image'.types.size

namespace Image.Extends

lemma refl (image : Image) : image.Extends image :=
  ⟨rfl, id, Nat.le_refl _, id, Nat.le_refl _⟩

lemma trans {image image' image'' : Image} (h : image.Extends image')
    (h' : image'.Extends image'') : image.Extends image'' :=
  ⟨h'.order_eq.trans h.order_eq, h'.read ∘ h.read, Nat.le_trans h.limit_le h'.limit_le,
    h'.get? ∘ h.get?, Nat.le_trans h.size_le h'.size_le⟩

end Image.Extends

/-! ## Bytes where nothing is mapped -/

/-- Every segment lies inside one of the segments after a splice. -/
lemma exists_around_splice {address : ℕ} {bytes : Array UInt8} {segments : List Segment}
    {s : Segment} (hs : s ∈ segments) :
    ∃ t ∈ splice address bytes segments, t.base ≤ s.base ∧ s.limit ≤ t.limit := by
  induction segments generalizing address bytes with
  | nil => simp at hs
  | cons head rest ih =>
      rw [splice]
      split
      · rcases List.mem_cons.mp hs with rfl | hs
        · exact ⟨s, List.mem_cons_self, Nat.le_refl _, Nat.le_refl _⟩
        · obtain ⟨t, ht, around⟩ := ih hs
          exact ⟨t, List.mem_cons_of_mem _ ht, around⟩
      · split
        · exact ⟨s, List.mem_cons_of_mem _ hs, Nat.le_refl _, Nat.le_refl _⟩
        · next below above =>
          rcases List.mem_cons.mp hs with rfl | hs
          · -- the head and the new bytes make the range that is laid over the rest
            obtain ⟨t, ht, holds⟩ := exists_holds_splice (s.overlay address bytes).base
              (s.overlay address bytes).bytes rest
            have hlimit := Segment.limit_overlay below above
            refine ⟨t, ht, ?_⟩
            simp only [Segment.Holds, Segment.limit, Segment.overlay] at holds hlimit ⊢
            omega
          · exact ih hs

namespace Memory

lemma limit_le_iff {m : Memory} {bound : ℕ} :
    m.limit ≤ bound ↔ ∀ s ∈ m.segments, s.limit ≤ bound := by
  rw [limit]
  induction m.segments with
  | nil => simp
  | cons head rest ih => rw [List.foldr_cons, max_le_iff, ih, List.forall_mem_cons]

variable {m m' : Memory} {address : ℕ} {bytes : List UInt8}

lemma limit_le_map (h : m.map address bytes = some m') : m.limit ≤ m'.limit := by
  rw [limit_le_iff]
  intro s hs
  obtain ⟨t, ht, -, around⟩ := exists_around_splice hs
  rw [← segments_map h] at ht
  exact Nat.le_trans around (limit_le_of_mem ht)

/-- **Bytes written where nothing is mapped leave every range as it could be read.** -/
lemma read_of_map {start length : ℕ} {found : List UInt8} (h : m.map address bytes = some m')
    (fresh : ∀ x, address ≤ x → x < address + bytes.length → m.byteAt? x = none)
    (read : m.read start length = some found) : m'.read start length = some found := by
  obtain ⟨⟨s, hs, above, inside⟩, hlength, hbytes⟩ := read_eq_some_iff_bytes.mp read
  obtain ⟨t, ht, below, around⟩ := exists_around_splice hs
  rw [← segments_map h] at ht
  refine read_eq_some_iff_bytes.mpr ⟨⟨t, ht, by omega, by omega⟩, hlength, fun i hi => ?_⟩
  rw [byteAt?_map h]
  split
  · next written =>
    -- a byte that was read was mapped
    have unmapped := fresh (start + i) written.1 written.2
    rw [hbytes i hi, List.getElem?_eq_getElem (hlength ▸ hi)] at unmapped
    contradiction
  · exact hbytes i hi

end Memory

/-! ## Growth -/

lemma Image.Grows.extends {image image' : Image} (h : image.Grows image') :
    image.Extends image' := by
  cases h with
  | map fresh mapped =>
      obtain ⟨m, hm, rfl⟩ := Option.map_eq_some_iff.mp mapped
      exact ⟨rfl, Memory.read_of_map hm fresh, Memory.limit_le_map hm, id, Nat.le_refl _⟩
  | add info =>
      refine ⟨rfl, id, Nat.le_refl _, fun {id found} h => ?_, ?_⟩
      · rw [TypeTable.get?_add, if_neg (Nat.ne_of_lt (TypeTable.lt_size_of_get? h))]
        exact h
      · simp [TypeTable.add, TypeTable.size]
  | declare =>
      refine ⟨rfl, id, Nat.le_refl _, fun {id found} h => ?_, ?_⟩
      · rwa [TypeTable.get?_declare]
      · simp [TypeTable.declare, TypeTable.size]
  | @define target undefined info =>
      refine ⟨rfl, id, Nat.le_refl _, fun {id found} h => ?_, ?_⟩
      · have other : ¬ (id = target ∧ id < image.types.size) := by
          rintro ⟨rfl, -⟩
          rw [undefined] at h
          contradiction
        rwa [TypeTable.get?_define, if_neg other]
      · simp [TypeTable.define, TypeTable.size]

/-- **However an image grows, it extends what it was.** -/
lemma extends_of_growth {image image' : Image}
    (h : Relation.ReflTransGen Image.Grows image image') : image.Extends image' := by
  induction h with
  | refl => exact .refl image
  | tail _ step ih => exact ih.trans step.extends

end Postmortem
