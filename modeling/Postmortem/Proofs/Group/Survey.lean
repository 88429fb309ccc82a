import Postmortem.Proofs.Group.Positions

/-!
# A grouped walk over any memory

The walk is made to be resumed: it remembers one slot, reads the control words again on each call,
clears the bits it has passed and looks for the next one.  What it gives is simple.  Write down the
marked slots of all groups in order; strike out everything from the first one that is the end of
the table, or from the first group that cannot be read.

* `GroupTable.survey` — that list, as far as a number of groups tells, with what comes after it.
* `GroupTable.Reaches` — the same said of a single slot: it is marked, and nothing stops the walk
  on the way to it.  `mem_slots_survey_iff` ties the two together.
* **`answers_survey`** — the calls of a walk answer as the survey says, for any number of groups.
* **`groupWalk_enumerates_reached`** — the walk stops on the slots that are reached, on each of them
  once and in order, and then meets the end or the fault that stopped it.

Groups without size need care.  All of them are one group, so if it marks nothing a search would
never come back; a survey of such groups is empty and leaves open what comes next.
-/

namespace Postmortem

/-- The slots that lie ahead of a walk, and what comes after them. -/
structure Survey where
  slots : List Slot
  ending : Ending
  deriving Repr, DecidableEq

namespace GroupTable

/-! ## Surveys -/

/-- Some slots of a group up to the end of the table, and then what lies ahead in later groups. -/
def surveyGroup (t : GroupTable) (group : ℕ) (control : List Word) (later : Survey) :
    List ℕ → Survey
  | [] => later
  | i :: rest =>
      if t.endsAt control i then ⟨[], .done⟩
      else
        let ahead := t.surveyGroup group control later rest
        ⟨⟨group, i⟩ :: ahead.slots, ahead.ending⟩

/-- What a number of groups tell of a walk, from a group on. -/
def survey (t : GroupTable) (image : Image) : ℕ → ℕ → Survey
  | _, 0 => ⟨[], .more⟩
  | group, count + 1 =>
      match t.control image group with
      | .error fault => ⟨[], .fault fault⟩
      | .ok control =>
          t.surveyGroup group control (t.survey image (group + 1) count)
            (t.marked control).toList

def Readable (t : GroupTable) (image : Image) (group : ℕ) : Prop :=
  ∃ control, t.control image group = .ok control

/-- The control words of a slot's group mark the slot, and mark the end of the table there. -/
def MarksEnd (t : GroupTable) (image : Image) (slot : Slot) : Prop :=
  ∃ control, t.control image slot.group = .ok control ∧
    (t.marked control).getLsbD slot.offset = true ∧ t.endsAt control slot.offset = true

/-- A slot is marked, and neither the end of the table nor a group that cannot be read lies on the
way to it from a group. -/
def ReachesFrom (t : GroupTable) (image : Image) (group : ℕ) (slot : Slot) : Prop :=
  t.Marks image slot ∧ (∀ g, group ≤ g → g < slot.group → t.Readable image g) ∧
    ∀ u : Slot, group ≤ u.group → u = slot ∨ u.Before slot → ¬ t.MarksEnd image u

/-- A slot is marked, and neither the end of the table nor a group that cannot be read lies on the
way to it. -/
def Reaches (t : GroupTable) (image : Image) (slot : Slot) : Prop :=
  t.ReachesFrom image 0 slot

variable {t : GroupTable} {image : Image} {later : Survey} {group : ℕ} {control : List Word}

lemma ending_surveyGroup (offsets : List ℕ) :
    (t.surveyGroup group control later offsets).ending =
      if offsets.any (t.endsAt control) then .done else later.ending := by
  induction offsets with
  | nil => rfl
  | cons i rest ih =>
      rw [surveyGroup]
      split
      · next hi => simp [hi]
      · next hi => simp [hi, ih]

lemma mem_slots_surveyGroup {offsets : List ℕ} (sorted : offsets.Pairwise (· < ·)) {slot : Slot} :
    slot ∈ (t.surveyGroup group control later offsets).slots ↔
      (slot.group = group ∧ slot.offset ∈ offsets ∧
        ∀ i ∈ offsets, i ≤ slot.offset → t.endsAt control i = false) ∨
      (slot ∈ later.slots ∧ ∀ i ∈ offsets, t.endsAt control i = false) := by
  induction offsets with
  | nil => simp [surveyGroup]
  | cons k rest ih =>
      have ⟨least, sortedRest⟩ := List.pairwise_cons.mp sorted
      cases hk : t.endsAt control k with
      | true =>
          have here : slot.offset ∈ k :: rest → k ≤ slot.offset := by
            intro h
            rcases List.mem_cons.mp h with h | h
            · exact Nat.le_of_eq h.symm
            · exact Nat.le_of_lt (least _ h)
          simp only [surveyGroup, hk, if_true, List.not_mem_nil, List.forall_mem_cons, false_iff]
          rintro (⟨-, hmem, hopen, -⟩ | ⟨-, hopen, -⟩)
          · simpa using hopen (here hmem)
          · simp at hopen
      | false =>
          simp only [surveyGroup, hk, Bool.false_eq_true, if_false, List.forall_mem_cons,
            implies_true, true_and]
          simp only [List.mem_cons, ih sortedRest]
          constructor
          · rintro (rfl | h | h)
            · refine .inl ⟨rfl, .inl rfl, fun i hi hle => ?_⟩
              exact absurd (least i hi) (Nat.not_lt.mpr hle)
            · exact .inl ⟨h.1, .inr h.2.1, h.2.2⟩
            · exact .inr h
          · rintro (⟨hgroup, hoffset | hoffset, hopen⟩ | h)
            · exact .inl (by cases slot; simp_all)
            · exact .inr (.inl ⟨hgroup, hoffset, hopen⟩)
            · exact .inr (.inr h)

/-! ### What a survey holds -/

lemma survey_succ (hcontrol : t.control image group = .ok control) (count : ℕ) :
    t.survey image group (count + 1) = t.surveyGroup group control
      (t.survey image (group + 1) count) (t.marked control).toList := by
  rw [survey, hcontrol]

lemma reachesFrom_here_iff {slot : Slot} (hcontrol : t.control image slot.group = .ok control) :
    t.ReachesFrom image slot.group slot ↔ slot.offset ∈ (t.marked control).toList ∧
      ∀ i ∈ (t.marked control).toList, i ≤ slot.offset → t.endsAt control i = false := by
  constructor
  · rintro ⟨⟨c, hc, marked⟩, -, hopen⟩
    obtain rfl : c = control := Except.ok.inj (hc.symm.trans hcontrol)
    refine ⟨mem_toList.mpr marked, fun i hi hle => ?_⟩
    by_contra hend
    refine hopen ⟨slot.group, i⟩ (Nat.le_refl _) ?_ ⟨c, hc, mem_toList.mp hi, by simpa using hend⟩
    rcases Nat.eq_or_lt_of_le hle with rfl | hlt
    · exact .inl rfl
    · exact .inr (.inr ⟨rfl, hlt⟩)
  · rintro ⟨marked, hopen⟩
    refine ⟨⟨control, hcontrol, mem_toList.mp marked⟩, fun g hg hlt => absurd hg (by omega), ?_⟩
    rintro u hu hle ⟨c, hc, hmarked, hend⟩
    have hgroup : u.group = slot.group ∧ u.offset ≤ slot.offset := by
      rcases hle with rfl | hbefore
      · exact ⟨rfl, Nat.le_refl _⟩
      · simp only [Slot.Before] at hbefore
        omega
    obtain rfl : c = control := Except.ok.inj (hc.symm.trans (hgroup.1 ▸ hcontrol))
    simp [hopen u.offset (mem_toList.mpr hmarked) hgroup.2] at hend

lemma reachesFrom_later_iff {slot : Slot} (hcontrol : t.control image group = .ok control)
    (hgroup : group < slot.group) :
    t.ReachesFrom image group slot ↔ t.ReachesFrom image (group + 1) slot ∧
      ∀ i ∈ (t.marked control).toList, t.endsAt control i = false := by
  constructor
  · rintro ⟨marks, readable, hopen⟩
    refine ⟨⟨marks, fun g hg => readable g (Nat.le_of_succ_le hg),
      fun u hu => hopen u (Nat.le_of_succ_le hu)⟩, fun i hi => ?_⟩
    by_contra hend
    exact hopen ⟨group, i⟩ (Nat.le_refl _) (.inr (.inl hgroup))
      ⟨control, hcontrol, mem_toList.mp hi, by simpa using hend⟩
  · rintro ⟨⟨marks, readable, hopen⟩, here⟩
    refine ⟨marks, fun g hg hlt => ?_, fun u hu hle => ?_⟩
    · rcases Nat.eq_or_lt_of_le hg with rfl | hg
      · exact ⟨control, hcontrol⟩
      · exact readable g hg hlt
    · rcases Nat.eq_or_lt_of_le hu with rfl | hu
      · rintro ⟨c, hc, hmarked, hend⟩
        obtain rfl : c = control := Except.ok.inj (hc.symm.trans hcontrol)
        simp [here u.offset (mem_toList.mpr hmarked)] at hend
      · exact hopen u hu hle

/-- **A survey holds the slots that are reached.** -/
lemma mem_slots_survey_iff {count : ℕ} {slot : Slot} :
    slot ∈ (t.survey image group count).slots ↔
      group ≤ slot.group ∧ slot.group < group + count ∧ t.ReachesFrom image group slot := by
  induction count generalizing group with
  | zero =>
      simp only [survey, List.not_mem_nil, false_iff]
      omega
  | succ count ih =>
      cases hcontrol : t.control image group with
      | error fault =>
          simp only [survey, hcontrol, List.not_mem_nil, false_iff]
          rintro ⟨hle, -, ⟨c, hc, -⟩, readable, -⟩
          rcases Nat.eq_or_lt_of_le hle with rfl | hlt
          · simp [hcontrol] at hc
          · obtain ⟨c, hc⟩ := readable group (Nat.le_refl _) hlt
            simp [hcontrol] at hc
      | ok control =>
          rw [survey_succ hcontrol, mem_slots_surveyGroup (pairwise_toList _), ih]
          rcases Nat.lt_trichotomy group slot.group with hlt | rfl | hgt
          · rw [reachesFrom_later_iff hcontrol hlt]
            simp only [Nat.ne_of_gt hlt, Nat.le_of_lt hlt, Nat.succ_le_of_lt hlt, false_and,
              false_or, true_and, and_assoc, Nat.add_assoc, Nat.add_comm 1]
          · rw [reachesFrom_here_iff hcontrol, or_iff_left fun h => Nat.not_succ_le_self _ h.1.1]
            simp
          · simp only [Nat.ne_of_lt hgt, false_and, false_or]
            constructor <;> rintro ⟨h, -⟩ <;> omega

lemma ending_survey_succ (hcontrol : t.control image group = .ok control) (count : ℕ) :
    (t.survey image group (count + 1)).ending =
      if (t.marked control).toList.any (t.endsAt control) then .done
      else (t.survey image (group + 1) count).ending := by
  rw [survey_succ hcontrol, ending_surveyGroup]

/-- If a survey leaves open what comes next, it has met nothing that stops the walk. -/
lemma readable_of_ending_more {count : ℕ} (h : (t.survey image group count).ending = .more)
    {slot : Slot} (hle : group ≤ slot.group) (hlt : slot.group < group + count) :
    t.Readable image slot.group ∧ ¬ t.MarksEnd image slot := by
  induction count generalizing group with
  | zero => omega
  | succ count ih =>
      cases hcontrol : t.control image group with
      | error fault => simp [survey, hcontrol] at h
      | ok control =>
          rw [ending_survey_succ hcontrol] at h
          split at h
          · contradiction
          next hopen =>
            rcases Nat.eq_or_lt_of_le hle with rfl | hlater
            · refine ⟨⟨control, hcontrol⟩, ?_⟩
              rintro ⟨c, hc, hmarked, hend⟩
              obtain rfl : c = control := Except.ok.inj (hc.symm.trans hcontrol)
              exact hopen (List.any_eq_true.mpr ⟨_, mem_toList.mpr hmarked, hend⟩)
            · exact ih h hlater (by omega)

lemma ending_survey_of_marksEnd {count : ℕ} {slot : Slot} (h : t.MarksEnd image slot)
    (hle : group ≤ slot.group) (hlt : slot.group < group + count)
    (readable : ∀ g, group ≤ g → g ≤ slot.group → t.Readable image g) :
    (t.survey image group count).ending = .done := by
  induction count generalizing group with
  | zero => omega
  | succ count ih =>
      obtain ⟨control, hcontrol⟩ := readable group (Nat.le_refl _) hle
      rw [ending_survey_succ hcontrol]
      split
      · rfl
      next hopen =>
        rcases Nat.eq_or_lt_of_le hle with rfl | hlater
        · obtain ⟨c, hc, hmarked, hend⟩ := h
          obtain rfl : c = control := Except.ok.inj (hc.symm.trans hcontrol)
          exact absurd (List.any_eq_true.mpr ⟨_, mem_toList.mpr hmarked, hend⟩) hopen
        · exact ih hlater (by omega) fun g hg => readable g (Nat.le_of_succ_le hg)

lemma ending_survey_of_unreadable {count g : ℕ} {fault : Fault}
    (h : t.control image g = .error fault) (hle : group ≤ g) (hlt : g < group + count)
    (readable : ∀ k, group ≤ k → k < g → t.Readable image k)
    (hopen : ∀ slot : Slot, slot.group < g → ¬ t.MarksEnd image slot) :
    (t.survey image group count).ending = .fault fault := by
  induction count generalizing group with
  | zero => omega
  | succ count ih =>
      rcases Nat.eq_or_lt_of_le hle with rfl | hlater
      · rw [survey, h]
      · obtain ⟨control, hcontrol⟩ := readable group (Nat.le_refl _) hlater
        rw [ending_survey_succ hcontrol]
        split
        next hend =>
          obtain ⟨i, hi, hend⟩ := List.any_eq_true.mp hend
          exact absurd ⟨control, hcontrol, mem_toList.mp hi, hend⟩ (hopen ⟨group, i⟩ hlater)
        · exact ih hlater (by omega) fun k hk => readable k (Nat.le_of_succ_le hk)

/-! ## Tables that were read -/

/-- What a table that was read says of its types. -/
lemma of_read {container : Object} (h : GroupTable.read image container = .ok t) :
    GroupShape.read image ⟨t.groups, t.groupType⟩ = .ok t.shape ∧
      image.types.byteSize t.elementType = .ok t.elementSize := by
  simp only [GroupTable.read, bind_eq_ok] at h
  obtain ⟨_, -, _, -, _, -, _, -, _, -, _, -, _, -, _, -, _, hshape, _, hsize, h⟩ := h
  cases h
  exact ⟨hshape, hsize⟩

lemma exists_name_of_read {container : Object} (h : GroupTable.read image container = .ok t) :
    ∃ name, image.types.nameOf t.elementType = .ok name := by
  obtain ⟨-, hsize⟩ := of_read h
  obtain ⟨info, hinfo, -⟩ := bind_eq_ok.mp hsize
  exact ⟨info.name, by rw [TypeTable.nameOf, hinfo]; rfl⟩

/-- The type of a group says how many control words there are, and there are some. -/
lemma control_ne_nil {container : Object} {g : ℕ} (h : GroupTable.read image container = .ok t)
    (hcontrol : t.control image g = .ok control) : control ≠ [] := by
  obtain ⟨layout, hlayout, -⟩ := bind_eq_ok.mp (of_read h).1
  obtain ⟨array, harray, hlayout⟩ := bind_eq_ok.mp hlayout
  obtain ⟨length, hlength, hlayout⟩ := bind_eq_ok.mp hlayout
  obtain ⟨array', harray', hcontrol⟩ := bind_eq_ok.mp hcontrol
  obtain ⟨length', hlength', hcontrol⟩ := bind_eq_ok.mp hcontrol
  -- the array lies elsewhere in another group, but has the same type
  obtain ⟨place, hplace, rfl⟩ := Image.field_eq_ok.mp harray
  obtain ⟨place', hplace', rfl⟩ := Image.field_eq_ok.mp harray'
  obtain rfl : place' = place := Except.ok.inj (hplace'.symm.trans hplace)
  obtain rfl : length' = length := Except.ok.inj (hlength'.symm.trans hlength)
  rintro rfl
  cases length' with
  | zero =>
      obtain ⟨name, -, hlayout⟩ := bind_eq_ok.mp hlayout
      contradiction
  | succ length =>
      rw [List.range_succ_eq_map, List.mapM_cons] at hcontrol
      obtain ⟨word, -, hcontrol⟩ := bind_eq_ok.mp hcontrol
      obtain ⟨words, -, hcontrol⟩ := bind_eq_ok.mp hcontrol
      exact absurd (Except.ok.inj hcontrol) (List.cons_ne_nil _ _)

/-! ## Groups without size -/

/-- Groups without size are all the same group. -/
lemma control_of_not_sized (unsized : ¬ 0 < t.shape.size) (g : ℕ) :
    t.control image g = t.control image group := by
  have zero : t.shape.size = 0 := Nat.eq_zero_of_not_pos unsized
  simp only [GroupTable.control, groupAddress, zero, Nat.mul_zero]

lemma survey_of_not_sized (unsized : ¬ 0 < t.shape.size)
    (hcontrol : t.control image group = .ok control) (unmarked : (t.marked control).toList = [])
    (g count : ℕ) : t.survey image g count = ⟨[], .more⟩ := by
  induction count generalizing g with
  | zero => rfl
  | succ count ih =>
      rw [survey_succ ((control_of_not_sized unsized g).trans hcontrol), unmarked]
      exact ih (g + 1)

/-! ## Walks -/

lemma value_searchAfter_of_toList {offset : ℕ} {offsets : List ℕ}
    (hcontrol : t.control image group = .ok control)
    (h : ((t.marked control).after offset).toList = offsets) :
    (t.searchAfter image ⟨group, offset⟩).value =
      (offsets.head?.map fun i => t.landing control ⟨group, i⟩).getD
        (t.searchFrom image (group + 1)).value := by
  rw [searchAfter, hcontrol]
  simp only [landing?_eq, h]
  cases offsets <;> rfl

/-- What a call gives that stops on a slot. -/
def stop (t : GroupTable) (slot : Slot) : Object × Option Slot :=
  (t.element slot, some slot)

end GroupTable

namespace GroupWalk

open GroupTable

variable {t : GroupTable} {image : Image}

lemma located_of_landing {stage : Stage} {control : List Word} {slot : Slot}
    (direct : ∀ slot, t.payload image slot = .ok (t.element slot))
    (h : (⟨t, stage⟩ : GroupWalk).LandsOn image (t.landing control slot)) :
    located image ⟨t, stage⟩ =
      if t.endsAt control slot.offset then (.done, ⟨t, .ended slot.group⟩)
      else (.item (t.stop slot), ⟨t, .standing slot⟩) := by
  obtain ⟨offset, h⟩ := h
  rw [landing] at h
  split at h
  next hend =>
    have hcall : call image ⟨t, stage⟩ = (.done, ⟨t, .ended slot.group⟩) := h
    rw [located_of_call hcall, if_pos hend]
    rfl
  next hend =>
    rw [located_of_call (h.trans (visit_of_payload (direct slot))), if_neg hend]
    rfl

/-- A call that lands on the first of some slots of a group answers as their survey says, if those
after it do. -/
lemma answers_landing {stage : Stage} {i group : ℕ} {control : List Word} {rest : List ℕ}
    {later : Survey} (direct : ∀ slot, t.payload image slot = .ok (t.element slot))
    (h : (⟨t, stage⟩ : GroupWalk).LandsOn image (t.landing control ⟨group, i⟩))
    (after : Answers (located image) ⟨t, .standing ⟨group, i⟩⟩
      ((t.surveyGroup group control later rest).slots.map t.stop)
      (t.surveyGroup group control later rest).ending) :
    Answers (located image) ⟨t, stage⟩
      ((t.surveyGroup group control later (i :: rest)).slots.map t.stop)
      (t.surveyGroup group control later (i :: rest)).ending := by
  have hlocated := located_of_landing direct h
  rw [surveyGroup]
  split
  next hend =>
    rw [if_pos hend] at hlocated
    exact answers_done hlocated rfl
  next hend =>
    rw [if_neg hend] at hlocated
    exact answers_cons hlocated after

/-- **Standing on a slot, a walk answers as the rest of its group says**, and then as the later
groups say, if a search through them does. -/
lemma answers_standing {control : List Word} {later : Survey} {group : ℕ}
    (direct : ∀ slot, t.payload image slot = .ok (t.element slot))
    (hcontrol : t.control image group = .ok control)
    (onward : ∀ stage, (⟨t, stage⟩ : GroupWalk).LandsOn image
        (t.searchFrom image (group + 1)).value →
      Answers (located image) ⟨t, stage⟩ (later.slots.map t.stop) later.ending)
    {offset : ℕ} {rest : List ℕ} (hrest : ((t.marked control).after offset).toList = rest) :
    Answers (located image) ⟨t, .standing ⟨group, offset⟩⟩
      ((t.surveyGroup group control later rest).slots.map t.stop)
      (t.surveyGroup group control later rest).ending := by
  have lands := landsOn_standing t image ⟨group, offset⟩
  rw [value_searchAfter_of_toList hcontrol hrest] at lands
  induction rest generalizing offset with
  | nil => exact onward _ lands
  | cons i rest ih =>
      have hnext := toList_after_of_cons hrest
      refine answers_landing direct lands (ih hnext ?_)
      rw [← value_searchAfter_of_toList hcontrol hnext]
      exact landsOn_standing t image ⟨group, i⟩

/-- **A walk whose next call searches from a group on answers as the survey from that group.**  The
induction is on the number of groups surveyed. -/
lemma answers_searching {container : Object} (read : GroupTable.read image container = .ok t)
    (direct : ∀ slot, t.payload image slot = .ok (t.element slot)) {stage : Stage} {group : ℕ}
    (h : (⟨t, stage⟩ : GroupWalk).LandsOn image (t.searchFrom image group).value) (count : ℕ) :
    Answers (located image) ⟨t, stage⟩ ((t.survey image group count).slots.map t.stop)
      (t.survey image group count).ending := by
  induction count generalizing stage group with
  | zero => exact answers_more _ _
  | succ count ih =>
      rw [searchFrom] at h
      cases hcontrol : t.control image group with
      | error fault =>
          simp only [hcontrol, Logged.value_pure] at h
          obtain ⟨offset, h⟩ := h
          have hcall : call image ⟨t, stage⟩ = (.fault fault, ⟨t, .broken ⟨group, offset⟩⟩) := h
          rw [survey, hcontrol]
          exact answers_fault (located_of_call hcall) rfl
      | ok control =>
          simp only [hcontrol, landing?_eq] at h
          rw [survey_succ hcontrol]
          cases hmarks : (t.marked control).toList with
          | nil =>
              simp only [hmarks, List.head?_nil, Option.map_none] at h
              split at h
              next => exact ih h
              next unlimited =>
                have below : t.groupAddress group < image.memory.limit :=
                  address_lt_limit_of_control hcontrol (control_ne_nil read hcontrol)
                have unsized : ¬ 0 < t.shape.size := fun sized => unlimited ⟨sized, below⟩
                rw [surveyGroup, survey_of_not_sized unsized hcontrol hmarks]
                exact answers_more _ _
          | cons i rest =>
              simp only [hmarks, List.head?_cons, Option.map_some, Logged.value_pure] at h
              exact answers_landing direct h (answers_standing direct hcontrol
                (fun _ lands => ih lands) (toList_after_head hmarks))

/-- **From its first call on, a walk answers as the survey of the table.** -/
lemma answers_survey {container : Object} (read : GroupTable.read image container = .ok t)
    (direct : ∀ slot, t.payload image slot = .ok (t.element slot)) (two : 2 ≤ t.shape.slots)
    (count : ℕ) :
    Answers (located image) ⟨t, .fresh⟩ ((t.survey image 0 count).slots.map t.stop)
      (t.survey image 0 count).ending := by
  cases count with
  | zero => exact answers_more _ _
  | succ count =>
  cases hcontrol : t.control image 0 with
  | error fault =>
      rw [survey, hcontrol]
      exact answers_fault (located_of_call (call_fresh_of_unreadable hcontrol)) rfl
  | ok control =>
      have onward (stage : Stage) (lands : (⟨t, stage⟩ : GroupWalk).LandsOn image
          (t.searchFrom image (0 + 1)).value) :=
        answers_searching read direct lands count
      rw [survey_succ hcontrol]
      cases first : (t.marked control).getLsbD 0 with
      | true =>
          obtain ⟨rest, hmarks⟩ := exists_toList_of_first first
          -- with two slots in a group the first of them is not the end
          have notLast : t.endsAt control 0 = false :=
            ControlLayout.isSentinel_of_ne _ _ _ (by omega)
          have lands : (⟨t, .fresh⟩ : GroupWalk).LandsOn image (t.landing control ⟨0, 0⟩) := by
            rw [landing, notLast]
            exact ⟨0, call_fresh_of_marked hcontrol first⟩
          rw [hmarks]
          exact answers_landing direct lands
            (answers_standing direct hcontrol onward (toList_after_head hmarks))
      | false =>
          have same := located_congr (call_fresh_of_unmarked hcontrol first)
          exact (answers_congr same).mpr
            (answers_standing direct hcontrol onward (toList_after_zero first))

lemma of_start {container : Object} {walk : GroupWalk}
    (h : GroupWalk.start image container = .ok walk) :
    GroupTable.read image container = .ok walk.table ∧ walk = ofTable walk.table := by
  obtain ⟨t, hread, hwalk⟩ := bind_eq_ok.mp h
  cases hwalk
  exact ⟨hread, rfl⟩

/-- An element that is not indirect is itself the value of its slot. -/
lemma payload_of_direct {name : String} (named : image.types.nameOf t.elementType = .ok name)
    (direct : TypeName.startsWith name indirectElementStart = false) (slot : Slot) :
    t.payload image slot = .ok (t.element slot) := by
  have hname : image.typeName (t.element slot) = .ok name := named
  rw [payload, Image.elementPayload, hname, ok_bind, direct]
  rfl

section Enumeration

variable {walk : GroupWalk}

/-- The calls of a walk answer as the survey of its table says, of however many groups. -/
def FollowsSurvey (image : Image) (walk : GroupWalk) : Prop :=
  ∀ count, Answers (located image) walk
    ((walk.table.survey image 0 count).slots.map walk.table.stop)
    (walk.table.survey image 0 count).ending

lemma FollowsSurvey.item (follows : walk.FollowsSurvey image) {count n : ℕ} {slot : Slot}
    (h : (walk.table.survey image 0 count).slots[n]? = some slot) :
    entryAt (located image) walk n = .item (walk.table.stop slot) :=
  (follows count).1 n _ (by rw [List.getElem?_map, h]; rfl)

/-- Before the end of a survey, all calls give elements. -/
lemma FollowsSurvey.exists_item (follows : walk.FollowsSurvey image) {count n : ℕ}
    (h : n < (walk.table.survey image 0 count).slots.length) :
    ∃ value, entryAt (located image) walk n = .item value :=
  ⟨_, follows.item (List.getElem?_eq_getElem h)⟩

lemma FollowsSurvey.reaches_of_item (follows : walk.FollowsSurvey image) {n : ℕ}
    {element : Object} {slot : Slot}
    (h : entryAt (located image) walk n = .item (element, some slot)) :
    walk.table.Reaches image slot := by
  obtain ⟨_, hplace, -, marks⟩ := marks_of_entryAt h
  cases hplace
  have after := (follows (slot.group + 1)).2
  rw [List.length_map] at after
  cases hslot : (walk.table.survey image 0 (slot.group + 1)).slots[n]? with
  | some u =>
      have hentry := h.symm.trans (follows.item hslot)
      obtain ⟨-, hu⟩ := Prod.mk.inj (Entry.item.inj hentry)
      cases hu
      exact (mem_slots_survey_iff.mp (List.mem_of_getElem? hslot)).2.2
  | none =>
      have past := List.getElem?_eq_none_iff.mp hslot
      -- had the survey met an end, the walk would have come to it by now
      have unstopped : (walk.table.survey image 0 (slot.group + 1)).ending = .more := by
        cases hending : (walk.table.survey image 0 (slot.group + 1)).ending with
        | more => rfl
        | done =>
            rw [hending] at after
            simp [after n past] at h
        | fault fault =>
            rw [hending] at after
            rcases Nat.eq_or_lt_of_le past with hn | hn
            · simp [← hn, after.1] at h
            · simp [after.2 n hn] at h
      have passed (u : Slot) (hu : u.group ≤ slot.group) :=
        readable_of_ending_more unstopped (Nat.zero_le u.group) (by omega)
      refine ⟨marks, fun g _ hg => (passed ⟨g, 0⟩ (Nat.le_of_lt hg)).1, fun u _ hu => ?_⟩
      refine (passed u ?_).2
      rcases hu with rfl | hbefore
      · exact Nat.le_refl _
      · simp only [Slot.Before] at hbefore
        omega

lemma FollowsSurvey.exists_entryAt (follows : walk.FollowsSurvey image) {slot : Slot}
    (h : walk.table.Reaches image slot) :
    ∃ n, entryAt (located image) walk n = .item (walk.table.element slot, some slot) := by
  have listed : slot ∈ (walk.table.survey image 0 (slot.group + 1)).slots :=
    mem_slots_survey_iff.mpr ⟨Nat.zero_le _, by omega, h⟩
  obtain ⟨n, hn⟩ := List.mem_iff_getElem?.mp listed
  exact ⟨n, follows.item hn⟩

end Enumeration

end GroupWalk

/-- **A grouped walk over any memory stops on the slots that are reached.**  Elements that are not
indirect are given for exactly the slots that their groups mark and that lie before the first end of
the table and before the first group that cannot be read, one call for each and in order.  The call
after them answers with the end in the first case, and with the fault of that group in the second;
all later calls answer with the end. -/
theorem groupWalk_enumerates_reached {image : Image} {container : Object} {walk : GroupWalk}
    (start : GroupWalk.start image container = .ok walk) (allocated : walk.table.elements ≠ 0)
    (two : 2 ≤ walk.table.shape.slots)
    (direct : ∀ name, image.types.nameOf walk.table.elementType = .ok name →
      TypeName.startsWith name indirectElementStart = false) :
    (∀ n element place, entryAt (GroupWalk.located image) walk n = .item (element, place) →
      ∃ slot, place = some slot ∧ element = walk.table.element slot ∧
        walk.table.Reaches image slot) ∧
    (∀ slot, walk.table.Reaches image slot →
      ∃ n, entryAt (GroupWalk.located image) walk n =
        .item (walk.table.element slot, some slot)) ∧
    (∀ m n, m < n → ∀ element slot element' slot',
      entryAt (GroupWalk.located image) walk m = .item (element, some slot) →
      entryAt (GroupWalk.located image) walk n = .item (element', some slot') →
      slot.Before slot') ∧
    (∀ slot, walk.table.MarksEnd image slot →
      (∀ g ≤ slot.group, walk.table.Readable image g) →
      ∃ n, (∀ k < n, ∃ value, entryAt (GroupWalk.located image) walk k = .item value) ∧
        ∀ k, n ≤ k → entryAt (GroupWalk.located image) walk k = .done) ∧
    (∀ g fault, walk.table.control image g = .error fault →
      (∀ k < g, walk.table.Readable image k) →
      (∀ slot : Slot, slot.group < g → ¬ walk.table.MarksEnd image slot) →
      ∃ n, (∀ k < n, ∃ value, entryAt (GroupWalk.located image) walk k = .item value) ∧
        entryAt (GroupWalk.located image) walk n = .fault fault ∧
        ∀ k, n < k → entryAt (GroupWalk.located image) walk k = .done) := by
  obtain ⟨read, hwalk⟩ := GroupWalk.of_start start
  obtain ⟨name, named⟩ := GroupTable.exists_name_of_read read
  have payload := GroupWalk.payload_of_direct named (direct name named)
  have follows : walk.FollowsSurvey image := by
    rw [hwalk, GroupWalk.ofTable, if_neg allocated]
    exact GroupWalk.answers_survey read payload two
  refine ⟨fun n element place h => ?_, fun slot => follows.exists_entryAt,
    fun m n hmn element slot element' slot' => GroupWalk.before_of_entryAt_lt hmn,
    fun slot hend readable => ?_, fun g fault unreadable readable hopen => ?_⟩
  · obtain ⟨slot, rfl, hpayload, -⟩ := GroupWalk.marks_of_entryAt h
    have helement : element = walk.table.element slot :=
      Except.ok.inj (hpayload.symm.trans (payload slot))
    exact ⟨slot, rfl, helement, follows.reaches_of_item h⟩
  · have ending : (walk.table.survey image 0 (slot.group + 1)).ending = .done :=
      GroupTable.ending_survey_of_marksEnd hend (Nat.zero_le _) (by omega)
        fun g _ hg => readable g hg
    have after := (follows (slot.group + 1)).2
    rw [ending, List.length_map] at after
    exact ⟨_, fun k hk => follows.exists_item hk, after⟩
  · have ending : (walk.table.survey image 0 (g + 1)).ending = .fault fault :=
      GroupTable.ending_survey_of_unreadable unreadable (Nat.zero_le _) (by omega)
        (fun k _ hk => readable k hk) hopen
    have after := (follows (g + 1)).2
    rw [ending, List.length_map] at after
    exact ⟨_, fun k hk => follows.exists_item hk, after⟩

/-- A table of groups of three slots that was torn off in its third group.  The control bytes of the
first group mark slots that it does not have, and the second group is empty. -/
def tornTable : Image where
  order := .little
  memory :=
    { segments :=
        [⟨0x10, #[0, 1, 0, 0, 0, 0, 0, 0, 0, 4, 0, 0, 0, 0, 0, 0]⟩,
          ⟨0x100, #[0, 128, 1, 1, 0, 0, 0, 0, 0, 7, 0, 0, 0, 0, 0, 9,
            0, 0, 0, 0, 0, 0, 0, 0, 0, 0, 0, 0, 0, 0, 0, 0,
            5, 0, 1]⟩]
      apart := by decide
      bounded := by decide }
  types := ⟨#[some (.plain "unsigned char" 1 .unsigned),
    some (.plain "unsigned char [16]" 16 (.array 0 16)),
    some ⟨"group3", 16, .record [⟨"m", 0, 1, false⟩], [], [("N", 3), ("sentinel_", 2)]⟩,
    some (.plain "group3 *" 8 (.pointer 2)),
    some (.plain "int" 4 .signed),
    some (.plain "int *" 8 (.pointer 4)),
    some (.plain "arrays" 16 (.record [⟨"groups_", 0, 3, false⟩, ⟨"elements_", 8, 5, false⟩])),
    some (.plain "table" 16 (.record [⟨"arrays", 0, 6, false⟩])),
    some (.plain "set" 16 (.record [⟨"table_", 0, 7, false⟩]))]⟩

/-- The walk through it, before its first call. -/
def tornWalk : GroupWalk :=
  ⟨⟨⟨.regular, 3, 2, 16⟩, 0x100, 2, 0x400, 4, 4⟩, .fresh⟩

theorem tornTable_enumerated :
    GroupWalk.start tornTable ⟨0x10, 8⟩ = .ok tornWalk ∧ tornWalk.table.elements ≠ 0 ∧
      2 ≤ tornWalk.table.shape.slots ∧
      (∃ n, entryAt (GroupWalk.located tornTable) tornWalk n =
        .item (⟨0x424, 4⟩, some ⟨0, 9⟩)) ∧
      ∃ n, (∀ k < n, ∃ value, entryAt (GroupWalk.located tornTable) tornWalk k = .item value) ∧
        entryAt (GroupWalk.located tornTable) tornWalk n = .fault (.unmapped 0x123 1) ∧
        ∀ k, n < k → entryAt (GroupWalk.located tornTable) tornWalk k = .done := by
  have start : GroupWalk.start tornTable ⟨0x10, 8⟩ = .ok tornWalk := rfl
  have direct : ∀ name, tornTable.types.nameOf tornWalk.table.elementType = .ok name →
      TypeName.startsWith name indirectElementStart = false := by
    rintro name ⟨⟩
    decide
  have survey : tornWalk.table.survey tornTable 0 2 =
      ⟨[⟨0, 1⟩, ⟨0, 2⟩, ⟨0, 3⟩, ⟨0, 9⟩], .more⟩ := rfl
  have reached : tornWalk.table.Reaches tornTable ⟨0, 9⟩ :=
    (GroupTable.mem_slots_survey_iff.mp (by rw [survey]; decide)).2.2
  have passed (slot : Slot) (h : slot.group < 2) :=
    GroupTable.readable_of_ending_more (congrArg Survey.ending survey) (Nat.zero_le slot.group)
      (by simpa using h)
  have torn : tornWalk.table.control tornTable 2 = .error (.unmapped 0x123 1) := rfl
  obtain ⟨-, given, -, -, broken⟩ :=
    groupWalk_enumerates_reached start (by decide) (by decide) direct
  exact ⟨start, by decide, by decide, given _ reached,
    broken 2 _ torn (fun k hk => (passed ⟨k, 0⟩ hk).1) fun slot hslot => (passed slot hslot).2⟩

end Postmortem
