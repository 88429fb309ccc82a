import Postmortem.Proofs.Group.Recovery
import Postmortem.Proofs.Group.Survey

/-!
# Groups of fewer than fifteen slots

A type of groups may have any number of slots from one to fifteen, and that number says which
element belongs to a slot and which slot can be the end.  The decoders are not told of it.  A mask
has fifteen bits whatever the number of slots, and the end of a packed table is always looked for in
slot 14.  With fifteen slots all of this fits together; this file says what is left with fewer.

* **`groupWalk_offsets`** — offsets are below fifteen, and slots come in order.  Elements come in
  order, none of them twice, if no group marks a slot that it does not have.
* **`groupWalk_of_fewer_slots`** — a regular table of two slots or more is walked as it should be.
  Of a packed table, and of a table whose only slot is its end, the walk gives the end slot as if it
  were an element.
-/

namespace Postmortem

variable {image : Image}

/-! ## Slots that a group does not have -/

/-- **Which slots the calls of a walk give.**  Their offsets are below fifteen, and they are in
order.  Their elements are in order too if the groups have fifteen slots, or if every slot that is
marked is one that its group has. -/
theorem groupWalk_offsets (image : Image) (walk : GroupWalk) :
    (∀ n element place, entryAt (GroupWalk.located image) walk n = .item (element, place) →
      ∃ slot, place = some slot ∧ slot.offset < 15) ∧
    (∀ m n, m < n → ∀ element slot element' slot',
      entryAt (GroupWalk.located image) walk m = .item (element, some slot) →
      entryAt (GroupWalk.located image) walk n = .item (element', some slot') →
      slot.Before slot') ∧
    ((walk.table.shape.slots = 15 ∨
        ∀ slot, walk.table.Marks image slot → slot.offset < walk.table.shape.slots) →
      (∀ n element slot, entryAt (GroupWalk.located image) walk n = .item (element, some slot) →
        slot.offset < walk.table.shape.slots) ∧
      ∀ m n, m < n → ∀ element slot element' slot',
        entryAt (GroupWalk.located image) walk m = .item (element, some slot) →
        entryAt (GroupWalk.located image) walk n = .item (element', some slot') →
        walk.table.elementIndex slot < walk.table.elementIndex slot') := by
  refine ⟨fun n element place h => ?_,
    fun m n hmn element slot element' slot' => GroupWalk.before_of_entryAt_lt hmn,
    fun fits => ?_⟩
  · obtain ⟨slot, hplace, -, marks⟩ := GroupWalk.marks_of_entryAt h
    exact ⟨slot, hplace, marks.offset_lt⟩
  have inside (n : ℕ) (element : Object) (slot : Slot)
      (h : entryAt (GroupWalk.located image) walk n = .item (element, some slot)) :
      slot.offset < walk.table.shape.slots := by
    obtain ⟨_, hplace, -, marks⟩ := GroupWalk.marks_of_entryAt h
    cases hplace
    rcases fits with fifteen | fits
    · exact fifteen ▸ marks.offset_lt
    · exact fits slot marks
  refine ⟨inside, fun m n hmn element slot element' slot' h h' => ?_⟩
  exact number_lt_of_before (inside m element slot h) (GroupWalk.before_of_entryAt_lt hmn h h')

/-- Three sets of integers whose groups have three slots.  The one at `0x10` is as it should be; the
one at `0x20` is packed; in the one at `0x30` the first group marks a fourth slot. -/
def threeSlots : Image where
  order := .little
  memory :=
    { segments :=
        [⟨0x10, #[0, 4, 0, 0, 0, 0, 0, 0, 0, 1, 0, 0, 0, 0, 0, 0,
            0, 2, 0, 0, 0, 0, 0, 0, 0, 1, 0, 0, 0, 0, 0, 0,
            0, 3, 0, 0, 0, 0, 0, 0, 0, 1, 0, 0, 0, 0, 0, 0]⟩,
          ⟨0x100, #[10, 0, 0, 0, 11, 0, 0, 0, 12, 0, 0, 0, 13, 0, 0, 0, 14, 0, 0, 0, 15, 0, 0, 0]⟩,
          ⟨0x200, #[5, 0, 0, 0, 1, 0, 0, 0, 0, 0, 0, 0, 0, 0, 0, 0]⟩,
          ⟨0x300, #[5, 0, 0, 7, 0, 0, 0, 0, 0, 0, 0, 0, 0, 0, 0, 0,
            9, 0, 1, 0, 0, 0, 0, 0, 0, 0, 0, 0, 0, 0, 0, 0]⟩,
          ⟨0x400, #[0, 7, 0, 0, 0, 0, 0, 0, 0, 0, 0, 0, 0, 0, 0, 0,
            5, 0, 1, 0, 0, 0, 0, 0, 0, 0, 0, 0, 0, 0, 0, 0]⟩]
      apart := by decide
      bounded := by decide }
  types := ⟨#[some (.plain "unsigned char" 1 .unsigned),
    some (.plain "unsigned char [16]" 16 (.array 0 16)),
    some ⟨"group3", 16, .record [⟨"m", 0, 1, false⟩], [], [("N", 3)]⟩,
    some (.plain "group3 *" 8 (.pointer 2)),
    some (.plain "unsigned long" 8 .unsigned),
    some (.plain "unsigned long [2]" 16 (.array 4 2)),
    some ⟨"packed_group3", 16, .record [⟨"m", 0, 5, false⟩], [], [("N", 3)]⟩,
    some (.plain "packed_group3 *" 8 (.pointer 6)),
    some (.plain "int" 4 .signed),
    some (.plain "int *" 8 (.pointer 8)),
    some (.plain "arrays" 16 (.record [⟨"groups_", 0, 3, false⟩, ⟨"elements_", 8, 9, false⟩])),
    some (.plain "table" 16 (.record [⟨"arrays", 0, 10, false⟩])),
    some (.plain "set" 16 (.record [⟨"table_", 0, 11, false⟩])),
    some (.plain "packed_arrays" 16
      (.record [⟨"groups_", 0, 7, false⟩, ⟨"elements_", 8, 9, false⟩])),
    some (.plain "packed_table" 16 (.record [⟨"arrays", 0, 13, false⟩])),
    some (.plain "packed_set" 16 (.record [⟨"table_", 0, 14, false⟩]))]⟩

/-- Two of the five slots of a table are occupied. -/
def threeSlotsContents : TableContents 3 where
  groups := 2
  groups_pos := by decide
  occupied := {1, 3}
  occupied_lt := by decide
  hash
    | 1 => 7
    | _ => 5
  two_le_hash := by decide
  spare _ _ := 0

def threeSlotsTable : StoredTable threeSlots ⟨0x10, 12⟩ .regular threeSlotsContents where
  table := ⟨0x10, 11⟩
  arrays := ⟨0x10, 10⟩
  groupPointer := ⟨0x10, 3⟩
  elementPointer := ⟨0x18, 9⟩
  groups := 0x400
  groupType := 2
  elements := 0x100
  elementType := 8
  elementSize := 4
  table_eq := rfl
  arrays_eq := rfl
  groupPointer_eq := .first rfl
  elementPointer_eq := .first rfl
  groupType_eq := rfl
  elementType_eq := rfl
  groups_eq := rfl
  elements_eq := rfl
  elementSize_eq := rfl
  group :=
    { control := ⟨0, 1⟩, array := .plain "unsigned char [16]" 16 (.array 0 16), word := 0,
      stride := 1, offset := 0, size := 16, control_eq := rfl, array_eq := rfl, kind_eq := rfl,
      stride_eq := rfl, keeps := .direct (.plain rfl (by decide) rfl (by decide)),
      slots_eq := .recorded rfl, sentinel_eq := .leftOut rfl, size_eq := rfl,
      size_pos := by decide }
  words g := regularWords (threeSlotsContents.byte g)
  encoded _ _ := .regular
  stored := by
    have bytes : ∀ g < 2, ∀ i, ∀ hi : i < 16,
        threeSlots.Stores (0x400 + g * 16 + 0 + 1 * i + 0) 1
          (regularWords (threeSlotsContents.byte g))[i] := by
      unfold Image.Stores
      decide
    exact bytes
  elements_ne := by decide
  value s := ⟨0x100 + s * 4, 8⟩
  held _ _ := .itself rfl (by decide)

/-- The walk through a table of regular groups of three slots, before its first call. -/
def threeSlotsWalk (groups : ℕ) : GroupWalk :=
  ⟨⟨⟨.regular, 3, 1, 16⟩, groups, 2, 0x100, 8, 4⟩, .fresh⟩

theorem threeSlots_in_order :
    (∀ slot, (threeSlotsWalk 0x400).table.Marks threeSlots slot →
      slot.offset < (threeSlotsWalk 0x400).table.shape.slots) ∧
    ∀ m n, m < n → ∀ element slot element' slot',
      entryAt (GroupWalk.located threeSlots) (threeSlotsWalk 0x400) m = .item (element, some slot) →
      entryAt (GroupWalk.located threeSlots) (threeSlotsWalk 0x400) n =
        .item (element', some slot') →
      (threeSlotsWalk 0x400).table.elementIndex slot <
        (threeSlotsWalk 0x400).table.elementIndex slot' := by
  have read : GroupTable.read threeSlots ⟨0x10, 12⟩ = .ok (threeSlotsWalk 0x400).table := rfl
  have shows : Shows (threeSlotsWalk 0x400).table threeSlots threeSlotsContents _ :=
    threeSlotsTable.shows (by decide) fun _ _ _ _ _ => rfl
  have fits : ∀ slot, (threeSlotsWalk 0x400).table.Marks threeSlots slot →
      slot.offset < (threeSlotsWalk 0x400).table.shape.slots := by
    rintro slot ⟨control, hcontrol, marked⟩
    -- nothing is mapped beyond the second group
    have limit : 0x400 + slot.group * 16 < 0x420 :=
      address_lt_limit_of_control hcontrol (GroupTable.control_ne_nil read hcontrol)
    have hgroup : slot.group < 2 := by omega
    obtain rfl := Except.ok.inj ((shows.readable slot.group hgroup).1.symm.trans hcontrol)
    rw [shows.marked slot.group hgroup] at marked
    exact (of_decide_eq_true marked).1
  obtain ⟨-, -, ordered⟩ := groupWalk_offsets threeSlots (threeSlotsWalk 0x400)
  exact ⟨fits, (ordered (.inr fits)).2⟩

/-- A slot that its group does not have has the element of a slot of the next group. -/
theorem threeSlots_element_given_twice :
    GroupWalk.start threeSlots ⟨0x30, 12⟩ = .ok (threeSlotsWalk 0x300) ∧
      entryAt (GroupWalk.located threeSlots) (threeSlotsWalk 0x300) 1 =
        .item (⟨0x10C, 8⟩, some ⟨0, 3⟩) ∧
      entryAt (GroupWalk.located threeSlots) (threeSlotsWalk 0x300) 2 =
        .item (⟨0x10C, 8⟩, some ⟨1, 0⟩) ∧
      (threeSlotsWalk 0x300).table.elementIndex ⟨0, 3⟩ =
        (threeSlotsWalk 0x300).table.elementIndex ⟨1, 0⟩ := by
  have start : GroupWalk.start threeSlots ⟨0x30, 12⟩ = .ok (threeSlotsWalk 0x300) := rfl
  have survey : (threeSlotsWalk 0x300).table.survey threeSlots 0 2 =
      ⟨[⟨0, 0⟩, ⟨0, 3⟩, ⟨1, 0⟩], .done⟩ := rfl
  have payload : ∀ slot, (threeSlotsWalk 0x300).table.payload threeSlots slot =
      .ok ((threeSlotsWalk 0x300).table.element slot) :=
    GroupWalk.payload_of_direct rfl (by decide)
  obtain ⟨items, -⟩ := GroupWalk.answers_survey (GroupWalk.of_start start).1 payload (by decide) 2
  rw [survey] at items
  exact ⟨start, items 1 _ rfl, items 2 _ rfl, rfl⟩

/-! ## An end that is not seen -/

namespace GroupWalk

lemma position_visit (walk : GroupWalk) (image : Image) (slot : Slot) :
    (walk.visit image slot).2.position = some slot := by
  rw [visit]
  split <;> rfl

lemma visit_ne_done (walk : GroupWalk) (image : Image) (slot : Slot) :
    (walk.visit image slot).1 ≠ .done := by
  rw [visit]
  split <;> simp [fail]

lemma located_of_visit {walk before : GroupWalk} {slot : Slot}
    (h : call image walk = before.visit image slot) :
    located image walk = ((before.visit image slot).1.map fun element => (element, some slot),
      (before.visit image slot).2) := by
  simp only [located, h, position_visit]

end GroupWalk

namespace StoredTable

variable {container : Object} {layout : ControlLayout} {slots : ℕ} {contents : TableContents slots}

lemma decodes_of_regular (t : StoredTable image container .regular contents) (le : slots ≤ 15)
    (bare : ∀ g < contents.groups, ∀ i, slots ≤ i → i < 15 → contents.spare g i = 0#8) :
    Decodes t.found image contents t.words where
  toShows := t.shows le bare
  endsAt g hg i hi := by
    have last : (g + 1) * slots ≤ contents.groups * slots := Nat.mul_le_mul_right slots hg
    rw [Nat.succ_mul] at last
    show ControlLayout.regular.isSentinel (t.words g) i slots 1#64 = _
    rw [(t.encoded g hg).isSentinel_of_regular (by omega)]
    refine decide_eq_decide.mpr ((and_congr_right' (contents.byte_eq_one_iff hi)).trans ?_)
    exact and_iff_right_of_imp fun here => by omega

/-- Slot 14 is none of fewer than fifteen, so no slot of a packed group is seen to be the end. -/
lemma endsAt_of_packed (t : StoredTable image container .packed contents) (few : slots < 15)
    (bare : ∀ g < contents.groups, ∀ i, slots ≤ i → i < 15 → contents.spare g i = 0#8) {g : ℕ}
    (hg : g < contents.groups) (i : ℕ) : t.found.endsAt (t.words g) i = false := by
  show ControlLayout.packed.isSentinel (t.words g) i slots 1#64 = _
  rw [(t.encoded g hg).isSentinel_of_packed, TableContents.byte, if_pos (by omega),
    bare g hg 14 (by omega) (by decide)]
  simp

/-- **The walk gives the elements and then tries the last slot**, whatever it holds. -/
lemma givesThen_last (t : StoredTable image container layout contents) (pos : 0 < slots)
    (few : slots < 15)
    (bare : ∀ g < contents.groups, ∀ i, slots ≤ i → i < 15 → contents.spare g i = 0#8)
    (unseen : layout = .packed ∨ contents.groups * slots = 1) :
    GivesThen (GroupWalk.located image) ⟨t.found, .fresh⟩
      (contents.occupied.sort.map fun s => (t.value s, some (slotAt slots s)))
      (((⟨t.found, .fresh⟩ : GroupWalk).visit image contents.last).1.map
          fun element => (element, some contents.last),
        ((⟨t.found, .fresh⟩ : GroupWalk).visit image contents.last).2) := by
  have shows := t.shows (Nat.le_of_lt few) bare
  have nonempty : 0 < contents.groups * slots := Nat.mul_pos contents.groups_pos pos
  rcases Nat.eq_or_lt_of_le (Nat.succ_le_of_lt nonempty) with one | two
  · -- the only slot is taken untested
    have nothing : contents.occupied = ∅ := by
      refine Finset.eq_empty_of_forall_notMem fun s hs => ?_
      have before_end := contents.occupied_lt s hs
      omega
    have last : contents.last = ⟨0, 0⟩ := by
      rw [TableContents.last, ← one, slotAt, Nat.zero_div, Nat.zero_mod]
    have first : (t.found.marked (t.words 0)).getLsbD 0 = true := by
      rw [shows.marked 0 contents.groups_pos 0]
      exact decide_eq_true ⟨pos, .inr (by omega)⟩
    rw [nothing, Finset.sort_empty, last]
    exact GroupWalk.located_of_visit
      (GroupWalk.call_fresh_of_marked (shows.readable 0 contents.groups_pos).1 first)
  · obtain rfl : layout = .packed := unseen.resolve_right (Nat.ne_of_gt two)
    have notEnd {s : ℕ} (hs : s < contents.groups * slots) :
        t.found.endsAt (t.words (slotAt slots s).group) (slotAt slots s).offset = false :=
      t.endsAt_of_packed few bare ((Nat.div_lt_iff_lt_mul pos).mpr hs) _
    refine shows.givesThen_fresh pos (Nat.le_of_lt few) two (fun s hs => t.payload_slotAt hs)
      (fun s hs => notEnd (Nat.lt_of_succ_lt (contents.occupied_lt s hs))) fun stage lands => ?_
    rw [GroupTable.landing, TableContents.last, notEnd (by omega)] at lands
    exact GroupWalk.located_of_visit lands.choose_spec

end StoredTable

/-- **A grouped walk of groups of fewer than fifteen slots.**  Where such a table lies in an image,
and no group marks a position that is not a slot, the walk starts.  It gives the elements of the
occupied slots and then the end exactly if the layout is regular and there are two slots.
Otherwise it gives those elements, and goes on to give the end slot as if it were one more. -/
theorem groupWalk_of_fewer_slots {container : Object} {layout : ControlLayout} {slots : ℕ}
    {contents : TableContents slots} (t : StoredTable image container layout contents)
    (pos : 1 ≤ slots) (few : slots ≤ 14)
    (bare : ∀ g < contents.groups, ∀ i, slots ≤ i → i < 15 → contents.spare g i = 0#8) :
    ∃ walk, GroupWalk.start image container = .ok walk ∧
      (Gives (GroupWalk.located image) walk
          (contents.occupied.sort.map fun s => (t.value s, some (slotAt slots s))) ↔
        layout = .regular ∧ 1 < contents.groups * slots) ∧
      (layout = .packed ∨ contents.groups * slots = 1 →
        Answers (GroupWalk.located image) walk
          (contents.occupied.sort.map fun s => (t.value s, some (slotAt slots s))) .more ∧
        entryAt (GroupWalk.located image) walk contents.occupied.card =
          (walk.visit image contents.last).1.map fun element => (element, some contents.last)) := by
  have beyond := t.givesThen_last pos (Nat.lt_succ_of_le few) bare
  have entry (unseen : layout = .packed ∨ contents.groups * slots = 1) :=
    (beyond unseen).entryAt_length
  simp only [List.length_map, Finset.length_sort] at entry
  refine ⟨⟨t.found, .fresh⟩, t.start_eq pos (by omega), ⟨fun gives => ?_, ?_⟩,
    fun unseen => ⟨(beyond unseen).answers, entry unseen⟩⟩
  · by_contra unsound
    have unseen : layout = .packed ∨ contents.groups * slots = 1 := by
      have nonempty : 0 < contents.groups * slots := Nat.mul_pos contents.groups_pos pos
      cases layout with
      | regular => exact .inr (by simp at unsound; omega)
      | packed => exact .inl rfl
    -- the list has as many entries as there are occupied slots, so the end is due
    have due := gives contents.occupied.card
    rw [entry unseen, List.getElem?_eq_none (by simp)] at due
    exact GroupWalk.visit_ne_done _ _ _ (Entry.map_eq_done_iff.mp due)
  · rintro ⟨rfl, two⟩
    exact (t.decodes_of_regular (by omega) bare).gives_located pos (by omega) two
      fun s hs => t.payload_slotAt hs

theorem threeSlots_given :
    ∃ walk, GroupWalk.start threeSlots ⟨0x10, 12⟩ = .ok walk ∧
      Gives (GroupWalk.located threeSlots) walk
        [(⟨0x104, 8⟩, some ⟨0, 1⟩), (⟨0x10C, 8⟩, some ⟨1, 0⟩)] := by
  obtain ⟨walk, start, gives, -⟩ :=
    groupWalk_of_fewer_slots threeSlotsTable (by decide) (by decide) fun _ _ _ _ _ => rfl
  have listed : threeSlotsContents.occupied = [1, 3].toFinset := by decide
  have given := gives.mpr ⟨rfl, by decide⟩
  rw [listed, (List.toFinset_sort (· ≤ ·) (by decide)).mpr (by decide)] at given
  exact ⟨walk, start, given⟩

/-- One slot of a single packed group is occupied, and the last one is its end. -/
def packedContents : TableContents 3 where
  groups := 1
  groups_pos := by decide
  occupied := {0}
  occupied_lt := by decide
  hash _ := 5
  two_le_hash := by decide
  spare _ _ := 0

def packedTable : StoredTable threeSlots ⟨0x20, 15⟩ .packed packedContents where
  table := ⟨0x20, 14⟩
  arrays := ⟨0x20, 13⟩
  groupPointer := ⟨0x20, 7⟩
  elementPointer := ⟨0x28, 9⟩
  groups := 0x200
  groupType := 6
  elements := 0x100
  elementType := 8
  elementSize := 4
  table_eq := rfl
  arrays_eq := rfl
  groupPointer_eq := .first rfl
  elementPointer_eq := .first rfl
  groupType_eq := rfl
  elementType_eq := rfl
  groups_eq := rfl
  elements_eq := rfl
  elementSize_eq := rfl
  group :=
    { control := ⟨0, 5⟩, array := .plain "unsigned long [2]" 16 (.array 4 2), word := 4,
      stride := 8, offset := 0, size := 16, control_eq := rfl, array_eq := rfl, kind_eq := rfl,
      stride_eq := rfl, keeps := .direct (.plain rfl (by decide) rfl (by decide)),
      slots_eq := .recorded rfl, sentinel_eq := .leftOut rfl, size_eq := rfl,
      size_pos := by decide }
  words _ := (PackedControl.empty.write [(0, 5), (2, 1)]).toList
  encoded := by
    have last : (∀ w ∈ [(0, 5), (2, (1 : BitVec 8))], w.1 < 16) ∧
        ∀ i < 16, (lastHash? [(0, 5), (2, 1)] i).getD 0#8 = packedContents.byte 0 i := by decide
    intro g hg
    obtain rfl : g = 0 := Nat.lt_one_iff.mp hg
    exact .packed last.1 last.2
  stored := by
    have bytes : ∀ g < 1, ∀ i, ∀ hi : i < 2, threeSlots.Stores (0x200 + g * 16 + 0 + 8 * i + 0) 8
        (PackedControl.empty.write [(0, 5), (2, 1)]).toList[i] := by
      unfold Image.Stores
      decide
    exact bytes
  elements_ne := by decide
  value s := ⟨0x100 + s * 4, 8⟩
  held _ _ := .itself rfl (by decide)

/-- The walk of a packed table with three slots gives the last of them, which is its end. -/
theorem packedTable_end_given :
    (∀ g i, packedContents.spare g i = 0#8) ∧
      ∃ walk, GroupWalk.start threeSlots ⟨0x20, 15⟩ = .ok walk ∧
        entryAt (GroupWalk.located threeSlots) walk 1 =
          .item (⟨0x108, 8⟩, some packedContents.last) ∧
        ¬ Gives (GroupWalk.located threeSlots) walk
          (packedContents.occupied.sort.map fun s => (packedTable.value s, some (slotAt 3 s))) := by
  have given : entryAt (GroupWalk.located threeSlots) ⟨packedTable.found, .fresh⟩ 1 =
      .item (⟨0x108, 8⟩, some packedContents.last) := rfl
  refine ⟨fun _ _ => rfl, _, packedTable.start_eq (by decide) (by decide), given, fun gives => ?_⟩
  have due := given.symm.trans (gives 1)
  rw [List.getElem?_eq_none (by simp [packedContents])] at due
  contradiction

end Postmortem
