import Postmortem.Proofs.Group.Termination

/-!
# A grouped walk logs every group it goes on to

A walk goes from group to group, and says so each time before it looks at the next.  Over any number
of calls it therefore logs the groups after the first, in order and without a gap, up to the one that
it has come to.

* `exists_marksEnd_of_searchFrom`, `exists_marksEnd_of_searchAfter` — a search that meets the end of
  the table meets it in a group that marks it.
* `GroupWalk.InGroup` — the group that a walk has come to.
* `inGroup_call` — a call logs the groups from there to where it comes to rest.
* **`exists_inGroup_afterCalls`** — so a run logs all groups but the first, up to that one.
-/

namespace Postmortem

/-! ## Searches -/

namespace GroupTable

variable {t : GroupTable} {image : Image} {group : ℕ}

/-- In one group, the end of the table is met where it is marked. -/
lemma exists_marksEnd_of_landing? {g : ℕ} {control : List Word} {mask : Mask}
    (hcontrol : t.control image group = .ok control)
    (marked : ∀ i, mask.getLsbD i = true → (t.marked control).getLsbD i = true)
    (h : t.landing? group control mask = some (.sentinel g)) :
    ∃ offset, t.MarksEnd image ⟨g, offset⟩ := by
  rw [landing?_eq, Option.map_eq_some_iff] at h
  obtain ⟨i, hi, hlanding⟩ := h
  obtain ⟨rest, hlist⟩ := List.head?_eq_some_iff.mp hi
  have here : mask.getLsbD i = true := mem_toList.mp (hlist ▸ List.mem_cons_self)
  rw [landing] at hlanding
  split at hlanding
  · next ends =>
    obtain rfl : group = g := Landing.sentinel.inj hlanding
    exact ⟨i, control, hcontrol, marked i here, ends⟩
  · contradiction

lemma exists_marksEnd_of_searchFrom {g : ℕ}
    (h : (t.searchFrom image group).value = .sentinel g) :
    ∃ offset, t.MarksEnd image ⟨g, offset⟩ := by
  fun_induction searchFrom t image group with
  | case1 group fault hcontrol => contradiction
  | case2 group control hcontrol landing hlanding =>
      obtain rfl : landing = .sentinel g := h
      exact exists_marksEnd_of_landing? hcontrol (fun _ => id) hlanding
  | case3 group control hcontrol hnone hlimit ih => exact ih h
  | case4 group control hcontrol hnone hlimit => contradiction

/-- **A search meets the end of the table where it is marked.** -/
lemma exists_marksEnd_of_searchAfter {slot : Slot} {g : ℕ}
    (h : (t.searchAfter image slot).value = .sentinel g) :
    ∃ offset, t.MarksEnd image ⟨g, offset⟩ := by
  rw [searchAfter] at h
  split at h
  next fault hcontrol => contradiction
  next control hcontrol =>
    split at h
    next landing hlanding =>
      obtain rfl : landing = .sentinel g := h
      refine exists_marksEnd_of_landing? hcontrol (fun i left => ?_) hlanding
      rw [getLsbD_after] at left
      exact (Bool.and_eq_true_iff.mp left).2
    next hnone => exact exists_marksEnd_of_searchFrom h

end GroupTable

/-! ## Walks -/

namespace GroupWalk

/-- What the first `n` calls of a walk log. -/
def log (image : Image) (walk : GroupWalk) (n : ℕ) : List Event :=
  logAfter (call image) (fun walk => (walk.next image).events) walk n

/-- The walk has come to this group, and if it is over, the end of the table is marked there, unless
there are no elements. -/
def InGroup (image : Image) (walk : GroupWalk) (group : ℕ) : Prop :=
  walk.group = group ∧ ∀ last, walk.stage = .ended last →
    (walk.table.elements = 0 ∧ last = 0) ∨ ∃ offset, walk.table.MarksEnd image ⟨last, offset⟩

variable {image : Image} {walk : GroupWalk} {group : ℕ}

lemma inGroup_ofTable (t : GroupTable) (image : Image) : (ofTable t).InGroup image 0 := by
  rw [ofTable]
  split
  · next empty =>
    refine ⟨rfl, fun last finished => .inl ⟨empty, ?_⟩⟩
    exact (Stage.ended.inj finished).symm
  · exact ⟨rfl, by simp⟩

/-- A walk comes to the group in which its search came to rest. -/
lemma inGroup_land (walk : GroupWalk) (offset : ℕ) {landing : Landing} (rests : landing.In group)
    (ends : ∀ last, landing = .sentinel last →
      ∃ offset, walk.table.MarksEnd image ⟨last, offset⟩) :
    (walk.land image offset landing).2.InGroup image group := by
  cases landing with
  | sentinel g =>
      refine ⟨rests, fun last finished => .inr (ends last ?_)⟩
      rw [Stage.ended.inj finished]
  | unreadable g fault => exact ⟨rests, by simp [land, fail]⟩
  | slot slot =>
      rw [land, visit]
      split
      · exact ⟨rests, by simp⟩
      · exact ⟨rests, by simp [fail]⟩

/-- From the slot it stands on, a walk logs the groups that it goes on to. -/
lemma inGroup_standing (t : GroupTable) (image : Image) (slot : Slot) :
    ∃ count, ((⟨t, .standing slot⟩ : GroupWalk).next image).events =
        (List.range' (slot.group + 1) count).map .groupSkipped ∧
      (call image ⟨t, .standing slot⟩).2.InGroup image (slot.group + count) := by
  obtain ⟨count, skips⟩ := GroupTable.exists_skips_searchAfter t image slot
  refine ⟨count, ?_, ?_⟩
  · rw [next, Logged.events_bind, skips.events_eq, Logged.events_pure, List.append_nil]
  · rw [call_standing]
    exact inGroup_land _ _ skips.rests fun last => GroupTable.exists_marksEnd_of_searchAfter

/-- **A call logs the groups that it goes on to**, from the one the walk had come to. -/
lemma inGroup_call (h : walk.InGroup image group) :
    ∃ count, (walk.next image).events = (List.range' (group + 1) count).map .groupSkipped ∧
      (call image walk).2.InGroup image (group + count) := by
  obtain ⟨t, stage⟩ := walk
  cases stage with
  | ended last => exact ⟨0, rfl, h⟩
  | broken slot => exact ⟨0, rfl, h⟩
  | standing slot =>
      obtain rfl : slot.group = group := h.1
      exact inGroup_standing t image slot
  | fresh =>
      obtain rfl : 0 = group := h.1
      cases hcontrol : t.control image 0 with
      | error fault =>
          rw [call_fresh_of_unreadable hcontrol, next_fresh_of_unreadable hcontrol]
          exact ⟨0, rfl, rfl, nofun⟩
      | ok control =>
          cases marked : (t.marked control).getLsbD 0 with
          | true =>
              have rests : (Landing.slot ⟨0, 0⟩).In 0 := rfl
              rw [call_fresh_of_marked hcontrol marked, next_fresh_of_marked hcontrol marked]
              exact ⟨0, rfl, inGroup_land ⟨t, .fresh⟩ 0 rests nofun⟩
          | false =>
              rw [call_fresh_of_unmarked hcontrol marked, next_fresh_of_unmarked hcontrol marked]
              exact inGroup_standing t image ⟨0, 0⟩

/-- **A run logs the groups after the first, one by one**, up to the one it has come to. -/
lemma exists_inGroup_afterCalls (t : GroupTable) (image : Image) (n : ℕ) :
    ∃ group, (ofTable t).log image n = (List.range' 1 group).map .groupSkipped ∧
      (afterCalls (call image) (ofTable t) n).InGroup image group := by
  induction n with
  | zero => exact ⟨0, rfl, inGroup_ofTable t image⟩
  | succ n ih =>
      obtain ⟨group, logged, here⟩ := ih
      obtain ⟨count, said, there⟩ := inGroup_call here
      refine ⟨group + count, ?_, ?_⟩
      · rw [log, logAfter_succ, ← log, logged, said, ← List.map_append, Nat.add_comm group 1,
          List.range'_append_1]
      · rw [afterCalls_succ]
        exact there

end GroupWalk

end Postmortem
