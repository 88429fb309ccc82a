import Mathlib.Tactic.ByContra
import Postmortem.Proofs.Group.Search
import Postmortem.Proofs.Traversal

/-!
# Where a grouped walk goes

Whatever lies in memory, a grouped walk only goes forward: every slot it stops on is marked by the
control words of its group, and comes after the slots it has stopped on before.

* `Mask.toList` — the slots of a mask in ascending order; what is left of it after its first
  (`toList_after_head`), and where a search in one group rests (`landing?_eq`).
* `GroupTable.Marks` — the control words of a slot's group can be read and mark the slot.
* `GroupWalk.call` — one call of a walk, without what it logs; `GroupWalk.LandsOn`, where it comes to
  rest.
* `GroupWalk.located` — one call of a walk, with the slot it stands on after it.
* **`marks_and_before_of_located`** — what one call does: it lands on a marked slot, and on a later
  one than the walk stood on.
* **`before_of_entryAt_lt`** — so the slots of any two calls are in order.
-/

namespace Postmortem

/-! ## Masks as lists -/

/-- The slots of a mask, in ascending order. -/
def Mask.toList (mask : Mask) : List ℕ :=
  (List.range 32).filter fun i => mask.getLsbD i

lemma mem_toList {mask : Mask} {i : ℕ} : i ∈ mask.toList ↔ mask.getLsbD i = true := by
  simp only [Mask.toList, List.mem_filter, List.mem_range, and_iff_right_iff_imp]
  intro h
  by_contra outside
  rw [BitVec.getLsbD_of_ge _ _ (Nat.not_lt.mp outside)] at h
  contradiction

lemma pairwise_toList (mask : Mask) : mask.toList.Pairwise (· < ·) :=
  List.pairwise_lt_range.filter _

lemma toList_after (mask : Mask) (slot : ℕ) :
    (mask.after slot).toList = mask.toList.filter (slot < ·) := by
  simp only [Mask.toList, List.filter_filter, getLsbD_after]

/-- What is left after the first of the slots. -/
lemma toList_after_head {mask : Mask} {i : ℕ} {rest : List ℕ} (h : mask.toList = i :: rest) :
    (mask.after i).toList = rest := by
  have sorted := List.pairwise_cons.mp (h ▸ pairwise_toList mask)
  rw [toList_after, h, List.filter_cons_of_neg (by simp), List.filter_eq_self]
  simpa using sorted.1

lemma after_after {mask : Mask} {slot i : ℕ} (h : slot < i) :
    (mask.after slot).after i = mask.after i := by
  refine BitVec.eq_of_getLsbD_eq fun k _ => ?_
  rw [getLsbD_after, getLsbD_after, getLsbD_after, ← Bool.and_assoc]
  congr 1
  simp only [Bool.and_eq_left_iff_imp, decide_eq_true_eq]
  exact Nat.lt_trans h

/-- What is left after the first of the slots that were left. -/
lemma toList_after_of_cons {mask : Mask} {slot i : ℕ} {rest : List ℕ}
    (h : (mask.after slot).toList = i :: rest) : (mask.after i).toList = rest := by
  have later : slot < i := by
    have hi : i ∈ (mask.after slot).toList := h ▸ List.mem_cons_self
    rw [mem_toList, getLsbD_after] at hi
    simp at hi
    exact hi.1
  rw [← after_after later, toList_after_head h]

lemma exists_toList_of_first {mask : Mask} (h : mask.getLsbD 0 = true) :
    ∃ rest, mask.toList = 0 :: rest := by
  cases hmask : mask.toList with
  | nil =>
      rw [← mem_toList, hmask] at h
      contradiction
  | cons i rest =>
      have sorted := List.pairwise_cons.mp (hmask ▸ pairwise_toList mask)
      rw [← mem_toList, hmask] at h
      rcases List.mem_cons.mp h with rfl | behind
      · exact ⟨rest, rfl⟩
      · exact absurd (sorted.1 0 behind) (Nat.not_lt_zero i)

lemma toList_after_zero {mask : Mask} (h : mask.getLsbD 0 = false) :
    (mask.after 0).toList = mask.toList := by
  rw [toList_after, List.filter_eq_self]
  intro i hi
  rw [mem_toList] at hi
  refine decide_eq_true (Nat.pos_of_ne_zero ?_)
  rintro rfl
  exact Bool.false_ne_true (h.symm.trans hi)

lemma toList_eq_nil_iff {mask : Mask} : mask.toList = [] ↔ mask = 0 := by
  simp only [List.eq_nil_iff_forall_not_mem, mem_toList, Bool.not_eq_true]
  exact ⟨mask_eq_zero, by rintro rfl; simp⟩

lemma lowestSlot_of_toList_cons {mask : Mask} {i : ℕ} {rest : List ℕ}
    (h : mask.toList = i :: rest) : lowestSlot mask = i := by
  rw [lowestSlot, ← List.head?_filter, ← Mask.toList, h]
  rfl

/-- No layout marks more than fifteen slots. -/
lemma lt_of_getLsbD_occupied {layout : ControlLayout} {control : List Word} {i : ℕ}
    (h : (layout.occupied control).getLsbD i = true) : i < 15 := by
  have masked : ∃ mask : Mask, layout.occupied control = mask &&& elementSlots := by
    cases layout with
    | regular => exact ⟨_, rfl⟩
    | packed =>
        match control with
        | _ :: _ :: _ => exact ⟨_, rfl⟩
        | [_] | [] => exact ⟨0#32, by simp [ControlLayout.occupied]⟩
  obtain ⟨mask, hmask⟩ := masked
  rw [hmask, BitVec.getLsbD_and, getLsbD_elementSlots] at h
  simp at h
  exact h.2

/-! ## Slots in order -/

lemma Slot.Before.trans {s u v : Slot} (h : s.Before u) (h' : u.Before v) : s.Before v := by
  simp only [Slot.Before] at *
  omega

namespace GroupTable

/-- The control words of a slot's group can be read, and mark the slot. -/
def Marks (t : GroupTable) (image : Image) (slot : Slot) : Prop :=
  ∃ control, t.control image slot.group = .ok control ∧
    (t.marked control).getLsbD slot.offset = true

variable {t : GroupTable} {image : Image}

lemma Marks.offset_lt {slot : Slot} (h : t.Marks image slot) : slot.offset < 15 := by
  obtain ⟨_, -, marked⟩ := h
  exact lt_of_getLsbD_occupied marked

/-- In one group a search rests on the first slot of the mask. -/
lemma landing?_eq (t : GroupTable) (group : ℕ) (control : List Word) (mask : Mask) :
    t.landing? group control mask =
      mask.toList.head?.map fun i => t.landing control ⟨group, i⟩ := by
  cases h : mask.toList with
  | nil => simp [landing?, toList_eq_nil_iff.mp h]
  | cons i rest =>
      have nonzero : mask ≠ 0 := fun zero => by
        rw [toList_eq_nil_iff.mpr zero] at h
        contradiction
      rw [landing?, if_neg nonzero, lowestSlot_of_toList_cons h, List.head?_cons, Option.map_some,
        landing]
      split <;> rfl

lemma slot_of_landing {control : List Word} {place slot : Slot}
    (h : t.landing control place = .slot slot) :
    place = slot ∧ t.endsAt control slot.offset = false := by
  rw [landing] at h
  split at h
  · contradiction
  · next hends => exact Landing.slot.inj h ▸ ⟨rfl, by simpa using hends⟩

/-- The slot that a search in one group rests on is the first of the mask, and not the end. -/
lemma of_landing?_eq_slot {group : ℕ} {control : List Word} {mask : Mask} {slot : Slot}
    (h : t.landing? group control mask = some (.slot slot)) :
    slot.group = group ∧ mask.getLsbD slot.offset = true ∧
      (∀ i < slot.offset, mask.getLsbD i = false) ∧ t.endsAt control slot.offset = false := by
  rw [landing?_eq, Option.map_eq_some_iff] at h
  obtain ⟨i, hi, hlanding⟩ := h
  obtain ⟨rest, hlist⟩ := List.head?_eq_some_iff.mp hi
  obtain ⟨rfl, hends⟩ := slot_of_landing hlanding
  refine ⟨rfl, mem_toList.mp (hlist ▸ List.mem_cons_self), fun k hk => ?_, hends⟩
  have sorted := List.pairwise_cons.mp (hlist ▸ pairwise_toList mask)
  by_contra marked
  rw [Bool.not_eq_false, ← mem_toList, hlist] at marked
  rcases List.mem_cons.mp marked with rfl | behind
  · exact Nat.lt_irrefl _ hk
  · exact Nat.lt_asymm hk (sorted.1 k behind)

/-! ## What a search does -/

lemma marks_of_searchFrom {group : ℕ} {slot : Slot}
    (h : (t.searchFrom image group).value = .slot slot) :
    t.Marks image slot ∧ group ≤ slot.group := by
  fun_induction searchFrom t image group with
  | case1 group fault hcontrol => simp at h
  | case2 group control hcontrol landing hlanding =>
      rw [Logged.value_pure] at h
      obtain ⟨rfl, marked, -⟩ := of_landing?_eq_slot (hlanding.trans (congrArg some h))
      exact ⟨⟨control, hcontrol, marked⟩, Nat.le_refl _⟩
  | case3 group control hcontrol hnone hlimit ih =>
      obtain ⟨marks, le⟩ := ih h
      exact ⟨marks, Nat.le_of_succ_le le⟩
  | case4 group control hcontrol hnone hlimit => simp at h

lemma marks_of_searchAfter {slot next : Slot}
    (h : (t.searchAfter image slot).value = .slot next) :
    t.Marks image next ∧ slot.Before next := by
  rw [searchAfter] at h
  split at h
  · simp at h
  next control hcontrol =>
    split at h
    next landing hlanding =>
      rw [Logged.value_pure] at h
      obtain ⟨hgroup, marked, -⟩ := of_landing?_eq_slot (hlanding.trans (congrArg some h))
      rw [getLsbD_after] at marked
      simp only [Bool.and_eq_true, decide_eq_true_eq] at marked
      exact ⟨⟨control, hgroup ▸ hcontrol, marked.2⟩, .inr ⟨hgroup.symm, marked.1⟩⟩
    next hnone =>
      obtain ⟨marks, le⟩ := marks_of_searchFrom h
      exact ⟨marks, .inl le⟩

end GroupTable

/-! ## What a call does -/

namespace GroupWalk

variable {image : Image}

/-- One call of a walk, without what it logs. -/
def call (image : Image) (walk : GroupWalk) : Entry Object × GroupWalk :=
  (walk.next image).value

lemma call_standing (t : GroupTable) (image : Image) (slot : Slot) :
    call image ⟨t, .standing slot⟩ =
      (⟨t, .standing slot⟩ : GroupWalk).land image slot.offset (t.searchAfter image slot).value :=
  rfl

/-- The next call of a walk comes to rest here. -/
def LandsOn (walk : GroupWalk) (image : Image) (landing : Landing) : Prop :=
  ∃ offset, call image walk = walk.land image offset landing

lemma landsOn_standing (t : GroupTable) (image : Image) (slot : Slot) :
    (⟨t, .standing slot⟩ : GroupWalk).LandsOn image (t.searchAfter image slot).value :=
  ⟨_, call_standing t image slot⟩

lemma visit_of_payload {walk : GroupWalk} {image : Image} {slot : Slot} {value : Object}
    (h : walk.table.payload image slot = .ok value) :
    walk.visit image slot = (.item value, ⟨walk.table, .standing slot⟩) := by
  simp only [visit, h]

section FirstCall

variable {t : GroupTable} {control : List Word}

/-- The first call takes the first slot if it is marked. -/
lemma next_fresh_of_marked (readable : t.control image 0 = .ok control)
    (first : (t.marked control).getLsbD 0 = true) :
    (⟨t, .fresh⟩ : GroupWalk).next image =
      pure ((⟨t, .fresh⟩ : GroupWalk).visit image ⟨0, 0⟩) := by
  rw [next, readable]
  simp only [first, if_true]

/-- Otherwise the first call is one that stands on the first slot. -/
lemma next_fresh_of_unmarked (readable : t.control image 0 = .ok control)
    (first : (t.marked control).getLsbD 0 = false) :
    (⟨t, .fresh⟩ : GroupWalk).next image =
      (⟨t, .standing ⟨0, 0⟩⟩ : GroupWalk).next image := by
  rw [next, readable]
  simp only [first, Bool.false_eq_true, if_false]
  rfl

/-- The first call fails if the first group cannot be read. -/
lemma next_fresh_of_unreadable {fault : Fault} (unreadable : t.control image 0 = .error fault) :
    (⟨t, .fresh⟩ : GroupWalk).next image =
      pure ((⟨t, .fresh⟩ : GroupWalk).fail ⟨0, 0⟩ fault) := by
  rw [next, unreadable]

lemma call_fresh_of_marked (readable : t.control image 0 = .ok control)
    (first : (t.marked control).getLsbD 0 = true) :
    call image ⟨t, .fresh⟩ = (⟨t, .fresh⟩ : GroupWalk).visit image ⟨0, 0⟩ :=
  congrArg Logged.value (next_fresh_of_marked readable first)

lemma call_fresh_of_unmarked (readable : t.control image 0 = .ok control)
    (first : (t.marked control).getLsbD 0 = false) :
    call image ⟨t, .fresh⟩ = call image ⟨t, .standing ⟨0, 0⟩⟩ :=
  congrArg Logged.value (next_fresh_of_unmarked readable first)

lemma call_fresh_of_unreadable {fault : Fault} (unreadable : t.control image 0 = .error fault) :
    call image ⟨t, .fresh⟩ = (⟨t, .fresh⟩ : GroupWalk).fail ⟨0, 0⟩ fault :=
  congrArg Logged.value (next_fresh_of_unreadable unreadable)

end FirstCall

/-- A call that does not answer with the end at once lands somewhere, and if it lands on a slot then
on a marked one, later than the one the walk stood on. -/
lemma exists_landsOn (walk : GroupWalk) (image : Image) :
    call image walk = (.done, walk) ∨
      ∃ landing, walk.LandsOn image landing ∧ ∀ slot, landing = .slot slot →
        walk.table.Marks image slot ∧
          ∀ previous, walk.stage = .standing previous → previous.Before slot := by
  obtain ⟨t, stage⟩ := walk
  cases stage with
  | ended group => exact .inl rfl
  | broken slot => exact .inl rfl
  | standing slot =>
      refine .inr ⟨_, landsOn_standing t image slot, fun next hnext => ?_⟩
      obtain ⟨marks, later⟩ := GroupTable.marks_of_searchAfter hnext
      refine ⟨marks, fun previous hprevious => ?_⟩
      cases hprevious
      exact later
  | fresh =>
      right
      cases hcontrol : t.control image 0 with
      | error fault =>
          exact ⟨.unreadable 0 fault, ⟨0, call_fresh_of_unreadable hcontrol⟩, by simp⟩
      | ok control =>
          cases first : (t.marked control).getLsbD 0 with
          | true =>
              refine ⟨.slot ⟨0, 0⟩, ⟨0, call_fresh_of_marked hcontrol first⟩, ?_⟩
              rintro slot ⟨⟩
              exact ⟨⟨control, hcontrol, first⟩, by simp⟩
          | false =>
              refine ⟨_, ⟨_, call_fresh_of_unmarked hcontrol first⟩, fun slot hslot => ?_⟩
              exact ⟨(GroupTable.marks_of_searchAfter hslot).1, by simp⟩

/-- One call of a walk, with the slot it stands on after it. -/
def located (image : Image) (walk : GroupWalk) : Entry (Object × Option Slot) × GroupWalk :=
  let answer := call image walk
  (answer.1.map fun element => (element, answer.2.position), answer.2)

lemma located_of_call {walk after : GroupWalk} {entry : Entry Object}
    (h : call image walk = (entry, after)) :
    located image walk = (entry.map fun element => (element, after.position), after) := by
  simp only [located, h]

/-- The slots are an addition to what the calls give. -/
lemma entryAt_located (image : Image) (walk : GroupWalk) (n : ℕ) :
    ∃ place, entryAt (located image) walk n =
      (entryAt (call image) walk n).map fun element => (element, place) := by
  induction n generalizing walk with
  | zero => exact ⟨_, rfl⟩
  | succ n ih => exact ih _

lemma gives_of_located {walk : GroupWalk} {values : List (Object × Option Slot)}
    (h : Gives (located image) walk values) :
    Gives (call image) walk (values.map Prod.fst) := by
  intro n
  obtain ⟨place, hentry⟩ := entryAt_located image walk n
  rw [h n] at hentry
  rw [List.getElem?_map]
  cases hvalue : values[n]? <;> cases hcall : entryAt (call image) walk n <;> simp_all [Entry.map]

lemma located_congr {walk walk' : GroupWalk} (h : call image walk = call image walk') :
    located image walk = located image walk' := by
  simp only [located, h]

/-- **A call lands on a marked slot, later than the one the walk stood on.** -/
lemma marks_and_before_of_located {walk : GroupWalk} {element : Object} {place : Option Slot}
    (h : (located image walk).1 = .item (element, place)) :
    ∃ slot, place = some slot ∧ walk.table.payload image slot = .ok element ∧
      (located image walk).2 = ⟨walk.table, .standing slot⟩ ∧ walk.table.Marks image slot ∧
      ∀ previous, walk.stage = .standing previous → previous.Before slot := by
  rcases exists_landsOn walk image with hdone | ⟨landing, ⟨offset, hland⟩, lands⟩
  · simp [located, hdone, Entry.map] at h
  cases landing with
  | sentinel group => simp [located, hland, land, Entry.map] at h
  | unreadable group fault => simp [located, hland, land, fail, Entry.map] at h
  | slot slot =>
      cases hpayload : walk.table.payload image slot with
      | error fault => simp [located, hland, land, visit, hpayload, fail, Entry.map] at h
      | ok value =>
          have hcall : call image walk = (.item value, ⟨walk.table, .standing slot⟩) :=
            hland.trans (visit_of_payload hpayload)
          rw [located_of_call hcall] at h ⊢
          obtain ⟨rfl, rfl⟩ := Prod.mk.inj (Entry.item.inj h)
          exact ⟨slot, rfl, hpayload, rfl, lands slot rfl⟩

/-- Only a call that gives an element leaves more to come. -/
lemma located_of_no_item {walk : GroupWalk}
    (h : ∀ value, (located image walk).1 ≠ .item value) :
    located image (located image walk).2 = (.done, (located image walk).2) := by
  rcases exists_landsOn walk image with hdone | ⟨landing, ⟨offset, hland⟩, -⟩
  · rw [located_of_call hdone]
    exact located_of_call hdone
  cases landing with
  | sentinel group =>
      have hcall : call image walk = (.done, ⟨walk.table, .ended group⟩) := hland
      rw [located_of_call hcall]
      rfl
  | unreadable group fault =>
      have hcall : call image walk = (.fault fault, ⟨walk.table, .broken ⟨group, offset⟩⟩) := hland
      rw [located_of_call hcall]
      rfl
  | slot slot =>
      cases hpayload : walk.table.payload image slot with
      | error fault =>
          have hcall : call image walk = (.fault fault, ⟨walk.table, .broken slot⟩) := by
            rw [hland]
            simp only [land, visit, hpayload, fail]
          rw [located_of_call hcall]
          rfl
      | ok value =>
          have hcall : call image walk = (.item value, ⟨walk.table, .standing slot⟩) :=
            hland.trans (visit_of_payload hpayload)
          rw [located_of_call hcall] at h
          exact absurd rfl (h _)

/-! ## What a run does -/

/-- If a call gives an element, so did the one before it. -/
lemma item_of_entryAt_succ {walk : GroupWalk} {n : ℕ} {value : Object × Option Slot}
    (h : entryAt (located image) walk (n + 1) = .item value) :
    ∃ element slot, located image walk =
      (.item (element, some slot), ⟨walk.table, .standing slot⟩) := by
  cases hentry : (located image walk).1 with
  | item first =>
      obtain ⟨slot, hplace, -, hafter, -⟩ := marks_and_before_of_located hentry
      exact ⟨first.1, slot, Prod.ext (hentry.trans (by rw [← hplace])) hafter⟩
  | _ =>
      rw [entryAt_succ, gives_nil_of_fixed (located_of_no_item (by simp [hentry]))] at h
      simp at h

/-- Every element is given on a marked slot. -/
lemma marks_of_entryAt {walk : GroupWalk} {n : ℕ} {element : Object} {place : Option Slot}
    (h : entryAt (located image) walk n = .item (element, place)) :
    ∃ slot, place = some slot ∧ walk.table.payload image slot = .ok element ∧
      walk.table.Marks image slot := by
  induction n generalizing walk with
  | zero =>
      obtain ⟨slot, hplace, hpayload, -, marks, -⟩ := marks_and_before_of_located h
      exact ⟨slot, hplace, hpayload, marks⟩
  | succ n ih =>
      obtain ⟨_, slot, hfirst⟩ := item_of_entryAt_succ h
      rw [entryAt_succ, hfirst] at h
      have later := ih h
      exact later

/-- From a slot on, elements are given on later slots. -/
lemma before_of_entryAt_standing {t : GroupTable} {slot next : Slot} {n : ℕ} {element : Object}
    (h : entryAt (located image) ⟨t, .standing slot⟩ n = .item (element, some next)) :
    slot.Before next := by
  induction n generalizing slot with
  | zero =>
      obtain ⟨_, hplace, -, -, -, later⟩ := marks_and_before_of_located h
      cases hplace
      exact later slot rfl
  | succ n ih =>
      obtain ⟨_, between, hfirst⟩ := item_of_entryAt_succ h
      obtain ⟨_, hplace, -, -, -, later⟩ := marks_and_before_of_located (congrArg Prod.fst hfirst)
      cases hplace
      rw [entryAt_succ, hfirst] at h
      exact (later slot rfl).trans (ih h)

/-- **The slots of any two calls are in order.** -/
lemma before_of_entryAt_lt {walk : GroupWalk} {m n : ℕ} (hmn : m < n) {element element' : Object}
    {slot slot' : Slot} (h : entryAt (located image) walk m = .item (element, some slot))
    (h' : entryAt (located image) walk n = .item (element', some slot')) : slot.Before slot' := by
  obtain ⟨k, rfl⟩ := Nat.exists_eq_add_of_lt hmn
  rw [Nat.add_assoc, entryAt_add] at h'
  obtain ⟨_, hplace, -, hafter, -⟩ := marks_and_before_of_located h
  cases hplace
  rw [entryAt_succ, hafter] at h'
  exact before_of_entryAt_standing h'

end GroupWalk

end Postmortem
