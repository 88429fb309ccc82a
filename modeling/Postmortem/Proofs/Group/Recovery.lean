import Mathlib.Data.Finset.Sort
import Postmortem.Proofs.Group.Positions
import Postmortem.Proofs.Group.Storage

/-!
# A grouped walk recovers the table

The walk knows groups, offsets and masks; the table is a set of numbered slots.  This file puts the
two together: whatever the walk has given, it stands on a slot of the set, and the slots it has
still to give are the greater ones.

* `slotAt` — the slot with a number; slots are ordered as their numbers are (`before_slotAt`).
* `Shows`, `Decodes` — the control words of all groups mark the occupied slots and the last one, and
  also say that the last one is the end.
* `value_searchAfter_slotAt` — a search lands on the next slot that is occupied or the last.
* `Shows.givesThen_standing` — from a slot on, the walk gives the elements of the greater slots and
  then tries the last one.
* **`groupWalk_gives_occupied`** — the walk of a stored table gives the elements of its occupied
  slots, each once and in ascending order, and then the end for ever.

The first slot needs care: the walk tries it before it looks for the end.  In a table of two slots
the first of them is not the end, so nothing is lost.
-/

namespace Postmortem

/-! ## Slots by number -/

/-- The slot with a number, among groups of `slots` slots. -/
def slotAt (slots s : ℕ) : Slot :=
  ⟨s / slots, s % slots⟩

lemma number_slotAt (slots s : ℕ) : (slotAt slots s).group * slots + (slotAt slots s).offset = s :=
  Nat.div_add_mod' s slots

lemma before_slotAt {slots s u : ℕ} (h : s < u) : (slotAt slots s).Before (slotAt slots u) := by
  have le : s / slots ≤ u / slots := Nat.div_le_div_right (Nat.le_of_lt h)
  rcases Nat.lt_or_eq_of_le le with hgroup | hgroup
  · exact .inl hgroup
  · have hs := number_slotAt slots s
    have hu := number_slotAt slots u
    refine .inr ⟨hgroup, ?_⟩
    have same : (slotAt slots s).group = (slotAt slots u).group := hgroup
    rw [same] at hs
    omega

/-- Slots are in the order of their numbers. -/
lemma number_lt_of_before {slots : ℕ} {a b : Slot} (ha : a.offset < slots) (h : a.Before b) :
    a.group * slots + a.offset < b.group * slots + b.offset := by
  rcases h with hgroup | ⟨hgroup, hoffset⟩
  · have hnext : (a.group + 1) * slots ≤ b.group * slots := Nat.mul_le_mul_right slots hgroup
    rw [Nat.succ_mul] at hnext
    omega
  · rw [hgroup]
    omega

/-- The rest of an ascending list is what is greater than its first number. -/
lemma mem_rest_iff {u v : ℕ} {rest : List ℕ} (sorted : (u :: rest).Pairwise (· < ·)) :
    v ∈ rest ↔ v ∈ u :: rest ∧ u < v := by
  have later := (List.pairwise_cons.mp sorted).1
  constructor
  · intro hv
    exact ⟨List.mem_cons_of_mem u hv, later v hv⟩
  · rintro ⟨hv, huv⟩
    rcases List.mem_cons.mp hv with rfl | hrest
    · exact absurd huv (Nat.lt_irrefl v)
    · exact hrest

/-- The last slot of a table, which is its end. -/
def TableContents.last {slots : ℕ} (contents : TableContents slots) : Slot :=
  slotAt slots (contents.groups * slots - 1)

/-! ## What the walk sees -/

/-- The control words of all groups can be read, and mark the occupied slots and the last one. -/
structure Shows (t : GroupTable) (image : Image) {slots : ℕ} (contents : TableContents slots)
    (words : ℕ → List Word) : Prop where
  sized : 0 < t.shape.size
  readable : ∀ g < contents.groups, t.control image g = .ok (words g) ∧ words g ≠ []
  marked : ∀ g < contents.groups, ∀ i, (t.marked (words g)).getLsbD i = decide (i < slots ∧
    (g * slots + i ∈ contents.occupied ∨ g * slots + i + 1 = contents.groups * slots))

/-- The control words of all groups can be read; they mark the occupied slots and the last one, and
the last one is the end. -/
structure Decodes (t : GroupTable) (image : Image) {slots : ℕ} (contents : TableContents slots)
    (words : ℕ → List Word) : Prop extends Shows t image contents words where
  endsAt : ∀ g < contents.groups, ∀ i < slots,
    t.endsAt (words g) i = decide (g * slots + i + 1 = contents.groups * slots)

section Walk

variable {t : GroupTable} {image : Image} {slots : ℕ} {contents : TableContents slots}
  {words : ℕ → List Word}

namespace Shows

/-- **A search lands on the next slot that is occupied or the last.** -/
lemma value_searchAfter_slotAt (d : Shows t image contents words) (pos : 0 < slots)
    (le : slots ≤ 15) {s u : ℕ} (later : s < u) (inside : u < contents.groups * slots)
    (here : u ∈ contents.occupied ∨ u + 1 = contents.groups * slots)
    (first : ∀ v ∈ contents.occupied, s < v → ¬ v < u) :
    (t.searchAfter image (slotAt slots s)).value =
      t.landing (words (slotAt slots u).group) (slotAt slots u) := by
  have hgroup : (slotAt slots u).group < contents.groups :=
    (Nat.div_lt_iff_lt_mul pos).mpr inside
  have hoffset : (slotAt slots u).offset < slots := Nat.mod_lt u pos
  have hmarked := d.marked _ hgroup (slotAt slots u).offset
  rw [number_slotAt, decide_eq_true ⟨hoffset, here⟩] at hmarked
  have readable : ∀ g ≤ (slotAt slots u).group, t.control image g = .ok (words g) ∧ words g ≠ [] :=
    fun g hg => d.readable g (Nat.lt_of_le_of_lt hg hgroup)
  refine GroupTable.value_searchAfter d.sized readable (before_slotAt later) (by omega) hmarked ?_
  intro between hafter hbefore
  have between_lt : between.group < contents.groups := by
    rcases hbefore with h | ⟨h, -⟩
    · exact Nat.lt_trans h hgroup
    · rwa [h]
  rw [d.marked _ between_lt]
  refine decide_eq_false ?_
  rintro ⟨hslot, hstands⟩
  -- a marked slot between the two would have a number between theirs
  have hlow := number_lt_of_before (Nat.mod_lt s pos) hafter
  have hhigh := number_lt_of_before hslot hbefore
  rw [number_slotAt] at hlow hhigh
  rcases hstands with hoccupied | hlast
  · exact first _ hoccupied hlow hhigh
  · omega

/-! ## The walk -/

variable {value : ℕ → Object} {answer : Entry (Object × Option Slot) × GroupWalk}

/-- **From a slot on, the walk gives the elements of the greater slots**, and then tries the last
one.  The induction is on the list of the slots that are still to give. -/
lemma givesThen_standing (d : Shows t image contents words) (pos : 0 < slots) (le : slots ≤ 15)
    (held : ∀ s ∈ contents.occupied, t.payload image (slotAt slots s) = .ok (value s))
    (notEnd : ∀ s ∈ contents.occupied,
      t.endsAt (words (slotAt slots s).group) (slotAt slots s).offset = false)
    (last : ∀ stage, (⟨t, stage⟩ : GroupWalk).LandsOn image
        (t.landing (words contents.last.group) contents.last) →
      GroupWalk.located image ⟨t, stage⟩ = answer)
    {s : ℕ} {rest : List ℕ} (inside : s + 1 < contents.groups * slots)
    (ahead : ∀ u, u ∈ rest ↔ u ∈ contents.occupied ∧ s < u) (sorted : rest.Pairwise (· < ·)) :
    GivesThen (GroupWalk.located image) ⟨t, .standing (slotAt slots s)⟩
      (rest.map fun u => (value u, some (slotAt slots u))) answer := by
  induction rest generalizing s with
  | nil =>
      have lands := GroupWalk.landsOn_standing t image (slotAt slots s)
      rw [d.value_searchAfter_slotAt pos le (by omega) (by omega)
        (.inr (Nat.sub_add_cancel (by omega)))] at lands
      · exact last _ lands
      intro v hv hsv
      exact absurd ((ahead v).mpr ⟨hv, hsv⟩) List.not_mem_nil
  | cons u rest ih =>
      have ⟨least, sortedRest⟩ := List.pairwise_cons.mp sorted
      obtain ⟨hu, later⟩ := (ahead u).mp List.mem_cons_self
      have before_end := contents.occupied_lt u hu
      have hslot : (t.searchAfter image (slotAt slots s)).value = .slot (slotAt slots u) := by
        rw [d.value_searchAfter_slotAt pos le later (by omega) (.inl hu), GroupTable.landing,
          notEnd u hu]
        · rfl
        intro v hv hsv hvu
        rcases List.mem_cons.mp ((ahead v).mpr ⟨hv, hsv⟩) with rfl | hrest
        · omega
        · exact Nat.lt_asymm hvu (least v hrest)
      have step : GroupWalk.call image ⟨t, .standing (slotAt slots s)⟩ =
          (.item (value u), ⟨t, .standing (slotAt slots u)⟩) := by
        rw [GroupWalk.call_standing, hslot]
        exact GroupWalk.visit_of_payload (held u hu)
      refine ⟨_, GroupWalk.located_of_call step, ih before_end (fun v => ?_) sortedRest⟩
      rw [mem_rest_iff sorted, ahead v, and_assoc]
      exact and_congr_right fun _ => and_iff_right_of_imp (Nat.lt_trans later)

/-- The first call tries the first slot, which is not the last one if there are two. -/
lemma givesThen_fresh (d : Shows t image contents words) (pos : 0 < slots) (le : slots ≤ 15)
    (two : 1 < contents.groups * slots)
    (held : ∀ s ∈ contents.occupied, t.payload image (slotAt slots s) = .ok (value s))
    (notEnd : ∀ s ∈ contents.occupied,
      t.endsAt (words (slotAt slots s).group) (slotAt slots s).offset = false)
    (last : ∀ stage, (⟨t, stage⟩ : GroupWalk).LandsOn image
        (t.landing (words contents.last.group) contents.last) →
      GroupWalk.located image ⟨t, stage⟩ = answer) :
    GivesThen (GroupWalk.located image) ⟨t, .fresh⟩
      (contents.occupied.sort.map fun s => (value s, some (slotAt slots s))) answer := by
  have hzero : slotAt slots 0 = ⟨0, 0⟩ := by rw [slotAt, Nat.zero_div, Nat.zero_mod]
  have sorted : contents.occupied.sort.Pairwise (· < ·) := contents.occupied.sortedLT_sort.pairwise
  have hmem : ∀ u, u ∈ contents.occupied.sort ↔ u ∈ contents.occupied := fun u => Finset.mem_sort _
  generalize contents.occupied.sort = all at sorted hmem
  have hcontrol := (d.readable 0 contents.groups_pos).1
  have hmark : (t.marked (words 0)).getLsbD 0 = decide (0 ∈ contents.occupied) := by
    rw [d.marked 0 contents.groups_pos 0]
    refine decide_eq_decide.mpr ?_
    rw [Nat.zero_mul, Nat.zero_add]
    exact ⟨fun h => h.2.resolve_right (by omega), fun h => ⟨by omega, .inl h⟩⟩
  by_cases first : 0 ∈ contents.occupied
  · -- the list of all slots begins with the first
    obtain ⟨s, rest, rfl⟩ : ∃ s rest, all = s :: rest :=
      List.exists_cons_of_ne_nil (List.ne_nil_of_mem ((hmem 0).mpr first))
    obtain rfl : s = 0 := by
      by_contra nonzero
      have behind : 0 ∈ rest := List.mem_of_ne_of_mem (Ne.symm nonzero) ((hmem 0).mpr first)
      exact Nat.not_lt_zero s ((mem_rest_iff sorted).mp behind).2
    have step : GroupWalk.call image ⟨t, .fresh⟩ =
        (.item (value 0), ⟨t, .standing (slotAt slots 0)⟩) := by
      rw [GroupWalk.call_fresh_of_marked hcontrol (hmark.trans (decide_eq_true first)),
        ← hzero]
      exact GroupWalk.visit_of_payload (held 0 first)
    refine ⟨_, GroupWalk.located_of_call step, d.givesThen_standing pos le held notEnd last two
      (fun u => ?_) (List.pairwise_cons.mp sorted).2⟩
    rw [mem_rest_iff sorted, hmem]
  · have same := GroupWalk.call_fresh_of_unmarked hcontrol
      (hmark.trans (decide_eq_false first))
    rw [← hzero] at same
    refine (givesThen_congr (GroupWalk.located_congr same)).mpr
      (d.givesThen_standing pos le held notEnd last two (fun u => ?_) sorted)
    rw [hmem u]
    refine (and_iff_left_of_imp fun hu => ?_).symm
    exact Nat.pos_of_ne_zero fun h => first (h ▸ hu)

end Shows

namespace Decodes

variable {value : ℕ → Object}

lemma endsAt_slotAt (d : Decodes t image contents words) (pos : 0 < slots) {s : ℕ}
    (inside : s < contents.groups * slots) :
    t.endsAt (words (slotAt slots s).group) (slotAt slots s).offset =
      decide (s + 1 = contents.groups * slots) := by
  have hgroup : (slotAt slots s).group < contents.groups := (Nat.div_lt_iff_lt_mul pos).mpr inside
  have hoffset : (slotAt slots s).offset < slots := Nat.mod_lt s pos
  rw [d.endsAt _ hgroup _ hoffset, number_slotAt]

/-- **If there are two slots, the walk gives the elements of the occupied ones**, and then the end
for ever. -/
lemma gives_located (d : Decodes t image contents words) (pos : 0 < slots) (le : slots ≤ 15)
    (two : 1 < contents.groups * slots)
    (held : ∀ s ∈ contents.occupied, t.payload image (slotAt slots s) = .ok (value s)) :
    Gives (GroupWalk.located image) ⟨t, .fresh⟩
      (contents.occupied.sort.map fun s => (value s, some (slotAt slots s))) := by
  have hlast : t.endsAt (words contents.last.group) contents.last.offset = true := by
    rw [TableContents.last, d.endsAt_slotAt pos (by omega)]
    exact decide_eq_true (by omega)
  have notEnd : ∀ s ∈ contents.occupied,
      t.endsAt (words (slotAt slots s).group) (slotAt slots s).offset = false := by
    intro s hs
    have before_end := contents.occupied_lt s hs
    rw [d.endsAt_slotAt pos (by omega)]
    exact decide_eq_false (by omega)
  have last (stage : GroupWalk.Stage) (lands : (⟨t, stage⟩ : GroupWalk).LandsOn image
      (t.landing (words contents.last.group) contents.last)) :
      GroupWalk.located image ⟨t, stage⟩ = (.done, ⟨t, .ended contents.last.group⟩) := by
    rw [GroupTable.landing, hlast] at lands
    exact GroupWalk.located_of_call lands.choose_spec
  exact (d.givesThen_fresh pos le two held notEnd last).gives rfl

/-- The first slot is not the end if a group has two. -/
lemma gives_fresh (d : Decodes t image contents words) (two : 2 ≤ slots) (le : slots ≤ 15)
    (held : ∀ s ∈ contents.occupied, t.payload image (slotAt slots s) = .ok (value s)) :
    Gives (GroupWalk.call image) ⟨t, .fresh⟩ (contents.occupied.sort.map value) := by
  have hslots : slots ≤ contents.groups * slots := Nat.le_mul_of_pos_left slots contents.groups_pos
  have gives := GroupWalk.gives_of_located (d.gives_located (by omega) le (by omega) held)
  rwa [List.map_map] at gives

end Decodes

end Walk

namespace StoredTable

variable {image : Image} {container : Object} {layout : ControlLayout} {slots : ℕ}
  {contents : TableContents slots}

/-- The walk of a stored table starts. -/
lemma start_eq (t : StoredTable image container layout contents) (pos : 0 < slots)
    (le : slots ≤ 15) : GroupWalk.start image container = .ok ⟨t.found, .fresh⟩ := by
  have nonnull : t.found.elements ≠ 0 := t.elements_ne
  rw [GroupWalk.start, t.read_eq pos le, ok_bind, GroupWalk.ofTable, if_neg nonnull]
  rfl

lemma payload_slotAt (t : StoredTable image container layout contents) {s : ℕ}
    (hs : s ∈ contents.occupied) : t.found.payload image (slotAt slots s) = .ok (t.value s) := by
  have number := number_slotAt slots s
  rw [← number] at hs
  rw [t.payload_eq hs, number]

/-- The groups show what is stored if no position is marked that is not a slot. -/
lemma shows (t : StoredTable image container layout contents) (le : slots ≤ 15)
    (bare : ∀ g < contents.groups, ∀ i, slots ≤ i → i < 15 → contents.spare g i = 0#8) :
    Shows t.found image contents t.words where
  sized := t.group.size_pos
  readable g hg := by
    refine ⟨t.control_eq hg, List.ne_nil_of_length_pos ?_⟩
    rw [(t.encoded g hg).length_eq]
    cases layout <;> decide
  marked g hg i := by
    show (layout.occupied (t.words g)).getLsbD i = _
    rw [(t.encoded g hg).getLsbD_occupied]
    refine decide_eq_decide.mpr ?_
    by_cases hi : i < slots
    · rw [contents.byte_ne_zero_iff hi]
      exact and_congr_left' (iff_of_true (by omega) hi)
    · refine iff_of_false ?_ (fun h => hi h.1)
      rintro ⟨hlt, nonzero⟩
      rw [TableContents.byte, if_pos (Nat.not_lt.mp hi)] at nonzero
      exact nonzero (bare g hg i (Nat.not_lt.mp hi) hlt)

end StoredTable

/-- Groups of fifteen slots decode in both layouts. -/
lemma StoredTable.decodes {image : Image} {container : Object} {layout : ControlLayout}
    {contents : TableContents 15} (t : StoredTable image container layout contents) :
    Decodes t.found image contents t.words where
  toShows := t.shows (Nat.le_refl _) fun _ _ _ hi hlt => absurd hlt (Nat.not_lt.mpr hi)
  endsAt g hg i hi := by
    show layout.isSentinel (t.words g) i 15 1#64 = _
    rw [(t.encoded g hg).isSentinel (by omega)]
    refine decide_eq_decide.mpr ((and_congr_right' (contents.byte_eq_one_iff hi)).trans ?_)
    exact and_iff_right_of_imp fun last => by omega

/-- **A grouped walk recovers the table.**  Wherever a table with groups of fifteen slots lies in an
image, in either layout, however its types keep the control words and whatever the spare positions
hold, the walk starts, gives the elements of the occupied slots in ascending order, and then the end
for ever. -/
theorem groupWalk_gives_occupied {image : Image} {container : Object} {layout : ControlLayout}
    {contents : TableContents 15} (t : StoredTable image container layout contents) :
    ∃ walk, GroupWalk.start image container = .ok walk ∧
      Gives (GroupWalk.call image) walk (contents.occupied.sort.map t.value) := by
  refine ⟨⟨t.found, .fresh⟩, t.start_eq (by decide) (Nat.le_refl _), ?_⟩
  exact t.decodes.gives_fresh (by decide) (Nat.le_refl _) fun s hs => t.payload_slotAt hs

/-- A big-endian table of three packed groups, whose second group is empty.  Its control words are
atomics in a record, and its elements are held through pointers. -/
def threeGroups : Image where
  order := .big
  memory :=
    { segments :=
        [⟨0x10, #[0, 0, 0, 0, 0, 0, 1, 0, 0, 0, 0, 0, 0, 0, 2, 0]⟩,
          ⟨0x100, #[128, 2, 128, 0, 128, 2, 128, 2, 128, 2, 128, 0, 128, 2, 128, 0,
            0, 0, 0, 0, 0, 0, 128, 0, 0, 0, 0, 0, 0, 0, 0, 0,
            0, 0, 0, 0, 0, 2, 64, 0, 4, 0, 0, 0, 0, 0, 0, 0]⟩,
          ⟨0x208, #[0, 0, 0, 0, 0, 0, 4, 0]⟩,
          ⟨0x2F8, #[0, 0, 0, 0, 0, 0, 4, 8]⟩,
          ⟨0x340, #[0, 0, 0, 0, 0, 0, 4, 4]⟩]
      apart := by decide
      bounded := by decide }
  types := ⟨#[some (.plain "unsigned long" 8 .unsigned),
    some ⟨"std::atomic<unsigned long>", 8, .record [], [0], []⟩,
    some (.plain "atomic_integral<unsigned long>" 8 (.record [⟨"n", 0, 1, false⟩])),
    some (.plain "atomic_integral<unsigned long> [2]" 16 (.array 2 2)),
    some ⟨"group15", 16, .record [⟨"m", 0, 3, false⟩], [], [("N", 15)]⟩,
    some (.plain "group15 *" 8 (.pointer 4)),
    some (.plain "int" 4 .signed),
    some (.plain "int *" 8 (.pointer 6)),
    some (.plain "boost::unordered::detail::foa::element_type<int, int *>" 8
      (.record [⟨"p", 0, 7, false⟩])),
    some (.plain "element *" 8 (.pointer 8)),
    some (.plain "arrays" 16 (.record [⟨"groups_", 0, 5, false⟩, ⟨"elements", 8, 9, false⟩])),
    some (.plain "table" 16 (.record [⟨"arrays", 0, 10, false⟩])),
    some (.plain "set" 16 (.record [⟨"table_", 0, 11, false⟩]))]⟩

/-- Three occupied slots; the sixteenth positions of two groups are in use. -/
def threeGroupsContents : TableContents 15 where
  groups := 3
  groups_pos := by decide
  occupied := {1, 31, 40}
  occupied_lt := by decide
  hash
    | 1 => 0xAB
    | 31 => 0x02
    | _ => 0x80
  two_le_hash := by decide
  spare
    | 0, _ => 0xFF
    | 1, _ => 0x01
    | _, _ => 0

theorem threeGroups_given :
    ∃ walk, GroupWalk.start threeGroups ⟨0x10, 12⟩ = .ok walk ∧
      Gives (GroupWalk.call threeGroups) walk
        [⟨0x400, 6⟩, ⟨0x408, 6⟩, ⟨0x404, 6⟩] := by
  let writes : ℕ → List (ℕ × BitVec 8)
    | 0 => [(1, 0xAB), (15, 0xFF), (7, 0x11), (7, 0)]
    | 1 => [(15, 0x01)]
    | _ => [(1, 0x02), (10, 0x80), (14, 0x01)]
  have atomic : IntegerType threeGroups.types 8 1 := .atomic rfl (by decide) rfl rfl (by decide) rfl
  have n : threeGroups.types.member 2 "n" = .ok ⟨0, 1⟩ := rfl
  have keeps : KeepsInteger threeGroups.types 8 2 0 := .member rfl rfl (by decide) n atomic
  let group : GroupType threeGroups.types 4 .packed 15 :=
    { control := ⟨0, 3⟩, array := .plain "atomic_integral<unsigned long> [2]" 16 (.array 2 2),
      word := 2, stride := 8, offset := 0, size := 16, control_eq := rfl, array_eq := rfl,
      kind_eq := rfl, stride_eq := rfl, keeps,
      slots_eq := .recorded rfl, sentinel_eq := .leftOut rfl, size_eq := rfl,
      size_pos := by decide }
  let t : StoredTable threeGroups ⟨0x10, 12⟩ .packed threeGroupsContents :=
    { table := ⟨0x10, 11⟩, arrays := ⟨0x10, 10⟩, groupPointer := ⟨0x10, 5⟩,
      elementPointer := ⟨0x18, 9⟩, groups := 0x100, groupType := 4, elements := 0x200,
      elementType := 8, elementSize := 8, table_eq := rfl, arrays_eq := rfl,
      groupPointer_eq := .first rfl, elementPointer_eq := .second rfl rfl, groupType_eq := rfl,
      elementType_eq := rfl, groups_eq := rfl, elements_eq := rfl, elementSize_eq := rfl,
      group, words := fun g => (PackedControl.empty.write (writes g)).toList,
      encoded := by
        have last : ∀ g < 3, (∀ w ∈ writes g, w.1 < 16) ∧
            ∀ i < 16, (lastHash? (writes g) i).getD 0#8 = threeGroupsContents.byte g i := by decide
        exact fun g hg => .packed (last g hg).1 (last g hg).2,
      stored := by
        have bytes : ∀ g < 3, ∀ i, ∀ hi : i < 2,
            threeGroups.Stores (0x100 + g * 16 + 8 * i) 8
              (PackedControl.empty.write (writes g)).toList[i] := by
          unfold Image.Stores
          decide
        exact bytes,
      elements_ne := by decide,
      value
        | 1 => ⟨0x400, 6⟩
        | 31 => ⟨0x408, 6⟩
        | _ => ⟨0x404, 6⟩,
      held := by
        intro s hs
        simp only [threeGroupsContents, Finset.mem_insert, Finset.mem_singleton] at hs
        rcases hs with rfl | rfl | rfl <;>
          exact .pointee rfl (by decide) rfl rfl rfl (by decide) }
  obtain ⟨walk, start, gives⟩ := groupWalk_gives_occupied t
  have listed : threeGroupsContents.occupied = [1, 31, 40].toFinset := by decide
  rw [listed, (List.toFinset_sort (· ≤ ·) (by decide)).mpr (by decide)] at gives
  exact ⟨walk, start, gives⟩

end Postmortem
