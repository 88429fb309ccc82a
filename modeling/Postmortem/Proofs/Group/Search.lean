import Postmortem.Group.Walk
import Postmortem.Proofs.Image.StoredIntegers

/-!
# A search lands on the first marked slot

The walk looks for marked slots group by group: it clears the bits it has passed, skips groups
while the mask is empty, and takes the lowest bit.  What that comes to does not mention masks at
all: among the slots in lexicographic order it is the first marked one after the slot it set out
from.

* `lowestSlot_eq` — the lowest bit of a mask is the one below which none is set.
* `address_lt_limit_of_control` — a group whose control words can be read lies below the last
  mapped byte, so the bound on a search never cuts one short.
* `GroupTable.landing` — where a search rests on a marked slot: at the end of the table if the slot
  is the end, else on the slot.
* **`value_searchFrom`**, **`value_searchAfter`** — a search rests on the first marked slot.
-/

namespace Postmortem

/-! ## Masks -/

lemma lowestSlot_eq {mask : Mask} {n : ℕ} (hn : n < 32) (here : mask.getLsbD n = true)
    (first : ∀ i < n, mask.getLsbD i = false) : lowestSlot mask = n := by
  have hfind : (List.range 32).find? (fun slot => mask.getLsbD slot) = some n := by
    rw [List.find?_range_eq_some]
    exact ⟨here, List.mem_range.mpr hn, fun i hi => by rw [first i hi]; rfl⟩
  rw [lowestSlot, hfind, Option.getD_some]

lemma mask_eq_zero {mask : Mask} (h : ∀ i, mask.getLsbD i = false) : mask = 0 :=
  BitVec.eq_of_getLsbD_eq fun i _ => (h i).trans BitVec.getLsbD_zero.symm

lemma mask_ne_zero {mask : Mask} {i : ℕ} (h : mask.getLsbD i = true) : mask ≠ 0 := by
  rintro rfl
  simp at h

/-! ## Groups that can be read -/

lemma address_le_of_index {image : Image} {o element : Object} {i : ℕ}
    (h : image.index o i = .ok element) : o.address ≤ element.address := by
  obtain ⟨info, -, h⟩ := bind_eq_ok.mp h
  split at h
  · split at h
    · obtain ⟨stride, -, h⟩ := bind_eq_ok.mp h
      rw [← Except.ok.inj h]
      exact Nat.le_add_right _ _
    · contradiction
  · contradiction

/-- A group whose control words can be read lies below the last mapped byte. -/
lemma address_lt_limit_of_control {image : Image} {group : Object} {words : List Word}
    (h : GroupShape.control image group = .ok words) (nonempty : words ≠ []) :
    group.address < image.memory.limit := by
  obtain ⟨m, hm, h⟩ := bind_eq_ok.mp h
  obtain ⟨length, -, h⟩ := bind_eq_ok.mp h
  cases length with
  | zero => exact absurd (Except.ok.inj h).symm nonempty
  | succ length =>
      rw [List.range_succ_eq_map, List.mapM_cons] at h
      obtain ⟨word, hword, -⟩ := bind_eq_ok.mp h
      obtain ⟨element, helement, hread⟩ := bind_eq_ok.mp hword
      have hbelow := Image.address_lt_limit_of_readIntegral hread
      have hmember := Image.address_le_of_field hm
      have hindex := address_le_of_index helement
      omega

/-- Slots in the order of the table. -/
def Slot.Before (s u : Slot) : Prop :=
  s.group < u.group ∨ s.group = u.group ∧ s.offset < u.offset

namespace GroupTable

variable {t : GroupTable} {image : Image} {words : ℕ → List Word}

/-- Where a search rests on a marked slot. -/
def landing (t : GroupTable) (words : List Word) (slot : Slot) : Landing :=
  if t.endsAt words slot.offset then .sentinel slot.group else .slot slot

lemma landing?_of_lowest {control : List Word} {mask : Mask} {slot : Slot}
    (inside : slot.offset < 32) (here : mask.getLsbD slot.offset = true)
    (first : ∀ i < slot.offset, mask.getLsbD i = false) :
    t.landing? slot.group control mask = some (t.landing control slot) := by
  rw [landing?, if_neg (mask_ne_zero here), lowestSlot_eq inside here first, landing]
  split <;> rfl

lemma landing?_of_unmarked {group : ℕ} {control : List Word} {mask : Mask}
    (h : ∀ i, mask.getLsbD i = false) : t.landing? group control mask = none := by
  rw [landing?, if_pos (mask_eq_zero h)]

lemma searchFrom_of_unreadable {group : ℕ} {fault : Fault}
    (h : t.control image group = .error fault) :
    t.searchFrom image group = pure (.unreadable group fault) := by
  rw [searchFrom, h]

lemma searchFrom_of_landing {group : ℕ} {control : List Word} {landing : Landing}
    (h : t.control image group = .ok control)
    (found : t.landing? group control (t.marked control) = some landing) :
    t.searchFrom image group = pure landing := by
  rw [searchFrom, h]
  simp only [found]

/-- A group that marks no slot is skipped, unless nothing can be read above it. -/
lemma value_searchFrom_of_unmarked {group : ℕ} {control : List Word}
    (h : t.control image group = .ok control)
    (unmarked : t.landing? group control (t.marked control) = none) :
    (t.searchFrom image group).value =
      if 0 < t.shape.size ∧ t.groupAddress group < image.memory.limit then
        (t.searchFrom image (group + 1)).value
      else .unreadable group .endless := by
  rw [searchFrom, h]
  simp only [unmarked]
  split <;> rfl

/-- **A search from the start of a group rests on the first marked slot.** -/
lemma value_searchFrom {group : ℕ} {slot : Slot} (sized : 0 < t.shape.size)
    (readable : ∀ g ≤ slot.group, t.control image g = .ok (words g) ∧ words g ≠ [])
    (reached : group ≤ slot.group) (inside : slot.offset < 32)
    (here : (t.marked (words slot.group)).getLsbD slot.offset = true)
    (first : ∀ i < slot.offset, (t.marked (words slot.group)).getLsbD i = false)
    (skipped : ∀ g, group ≤ g → g < slot.group → ∀ i, (t.marked (words g)).getLsbD i = false) :
    (t.searchFrom image group).value = t.landing (words slot.group) slot := by
  obtain ⟨count, hcount⟩ := Nat.exists_eq_add_of_le reached
  induction count generalizing group with
  | zero =>
      obtain rfl : slot.group = group := hcount
      rw [searchFrom_of_landing (readable _ (Nat.le_refl _)).1
        (landing?_of_lowest inside here first)]
      rfl
  | succ count ih =>
      have hgroup : group < slot.group := by omega
      obtain ⟨hcontrol, nonempty⟩ := readable group (Nat.le_of_lt hgroup)
      have hlimit : t.groupAddress group < image.memory.limit :=
        address_lt_limit_of_control hcontrol nonempty
      have unmarked := skipped group (Nat.le_refl _) hgroup
      rw [value_searchFrom_of_unmarked hcontrol (landing?_of_unmarked unmarked),
        if_pos ⟨sized, hlimit⟩]
      exact ih (by omega) (fun g hg => skipped g (by omega)) (by omega)

/-- **A search after a slot rests on the first marked slot after it.** -/
lemma value_searchAfter {slot next : Slot} (sized : 0 < t.shape.size)
    (readable : ∀ g ≤ next.group, t.control image g = .ok (words g) ∧ words g ≠ [])
    (later : slot.Before next) (inside : next.offset < 32)
    (here : (t.marked (words next.group)).getLsbD next.offset = true)
    (first : ∀ between : Slot, slot.Before between → between.Before next →
      (t.marked (words between.group)).getLsbD between.offset = false) :
    (t.searchAfter image slot).value = t.landing (words next.group) next := by
  rcases later with hgroup | ⟨hgroup, hoffset⟩
  · obtain ⟨hcontrol, -⟩ := readable slot.group (Nat.le_of_lt hgroup)
    have passed : ∀ i, ((t.marked (words slot.group)).after slot.offset).getLsbD i = false := by
      intro i
      rw [getLsbD_after]
      by_cases hi : slot.offset < i
      · rw [first ⟨slot.group, i⟩ (.inr ⟨rfl, hi⟩) (.inl hgroup), Bool.and_false]
      · rw [decide_eq_false hi, Bool.false_and]
    rw [searchAfter, hcontrol]
    simp only [landing?_of_unmarked passed, Logged.value_bind]
    exact value_searchFrom sized readable hgroup inside here
      (fun i hi => first ⟨next.group, i⟩ (.inl hgroup) (.inr ⟨rfl, hi⟩))
      (fun g hg hnext i => first ⟨g, i⟩ (.inl hg) (.inl hnext))
  · obtain ⟨hcontrol, -⟩ := readable next.group (Nat.le_refl _)
    rw [searchAfter, hgroup, hcontrol]
    have lowest : t.landing? next.group (words next.group)
        ((t.marked (words next.group)).after slot.offset) =
        some (t.landing (words next.group) next) := by
      refine landing?_of_lowest inside ?_ fun i hi => ?_
      · rw [getLsbD_after, decide_eq_true hoffset, Bool.true_and, here]
      · rw [getLsbD_after]
        by_cases hpast : slot.offset < i
        · rw [first ⟨next.group, i⟩ (.inr ⟨hgroup, hpast⟩) (.inr ⟨rfl, hi⟩), Bool.and_false]
        · rw [decide_eq_false hpast, Bool.false_and]
    simp only [lowest]
    rfl

end GroupTable

end Postmortem
