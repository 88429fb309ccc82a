import Postmortem.Proofs.Group.Survey

/-!
# Where a grouped walk stands

A walk can be asked for its position after each call.  It knows the slot of the element it gave
last, and knows none before its first call and after the end.  A fault is the odd case: it ends the
walk as well, but leaves it with a position, made of the group in which the fault was met and the
offset of the slot that was landed on last.  That need not be a slot the walk has ever been on.

* `fault_of_searchFrom`, `fault_of_searchAfter` — a search fails in a group that cannot be read, or
  because groups without size have no end.
* `GroupWalk.call_cases` — the four things a call can do.
* `GroupTable.FailsAt` — what a fault has to do with the position it leaves.
* **`groupWalk_position`** — the position of a walk at any time.
-/

namespace Postmortem

variable {image : Image}

/-! ## Searches that fail -/

namespace GroupTable

variable {t : GroupTable} {group : ℕ} {fault : Fault}

/-- In one group a search rests on the end or on a slot. -/
lemma landing?_ne_unreadable {mask : Mask} {control : List Word} {g : ℕ} :
    t.landing? group control mask ≠ some (.unreadable g fault) := by
  rw [landing?_eq]
  cases mask.toList.head? with
  | none => simp
  | some i =>
      rw [Option.map_some, landing]
      split <;> simp

/-- A search fails in a group whose control words cannot be read, or in one behind which it would
go on for ever. -/
lemma fault_of_searchFrom {g : ℕ} (h : (t.searchFrom image group).value = .unreadable g fault) :
    t.control image g = .error fault ∨ fault = .endless ∧ t.Readable image g ∧
      ¬ (0 < t.shape.size ∧ t.groupAddress g < image.memory.limit) := by
  fun_induction searchFrom t image group with
  | case1 group met hcontrol =>
      rw [Logged.value_pure, Landing.unreadable.injEq] at h
      obtain ⟨rfl, rfl⟩ := h
      exact .inl hcontrol
  | case2 group control hcontrol landing hlanding =>
      rw [Logged.value_pure] at h
      exact absurd (hlanding.trans (congrArg some h)) landing?_ne_unreadable
  | case3 group control hcontrol hnone hlimit ih => exact ih h
  | case4 group control hcontrol hnone hlimit =>
      rw [Logged.value_pure, Landing.unreadable.injEq] at h
      obtain ⟨rfl, rfl⟩ := h
      exact .inr ⟨rfl, ⟨control, hcontrol⟩, hlimit⟩

lemma fault_of_searchAfter {slot : Slot} {g : ℕ}
    (h : (t.searchAfter image slot).value = .unreadable g fault) :
    t.control image g = .error fault ∨ fault = .endless ∧ t.Readable image g ∧
      ¬ (0 < t.shape.size ∧ t.groupAddress g < image.memory.limit) := by
  rw [searchAfter] at h
  split at h
  next met hcontrol =>
    rw [Logged.value_pure, Landing.unreadable.injEq] at h
    obtain ⟨rfl, rfl⟩ := h
    exact .inl hcontrol
  next control hcontrol =>
    split at h
    next landing hlanding =>
      rw [Logged.value_pure] at h
      exact absurd (hlanding.trans (congrArg some h)) landing?_ne_unreadable
    next hnone => exact fault_of_searchFrom h

/-- A search that would go on for ever is one through groups without size. -/
lemma size_eq_zero_of_endless {container : Object} {g : ℕ}
    (read : GroupTable.read image container = .ok t) (readable : t.Readable image g)
    (unlimited : ¬ (0 < t.shape.size ∧ t.groupAddress g < image.memory.limit)) :
    t.shape.size = 0 := by
  obtain ⟨control, hcontrol⟩ := readable
  have below : t.groupAddress g < image.memory.limit :=
    address_lt_limit_of_control hcontrol (control_ne_nil read hcontrol)
  by_contra sized
  exact unlimited ⟨Nat.pos_of_ne_zero sized, below⟩

/-- A fault and the position that it leaves, when the walk had landed on an offset before: the
element of that slot cannot be followed; or the group cannot be read; or no group can be left. -/
inductive FailsAt (t : GroupTable) (image : Image) (last : ℕ) : Slot → Fault → Prop
  | element {slot : Slot} {fault : Fault} (marks : t.Marks image slot)
      (broken : t.payload image slot = .error fault) : FailsAt t image last slot fault
  | group {group : ℕ} {fault : Fault} (unreadable : t.control image group = .error fault) :
      FailsAt t image last ⟨group, last⟩ fault
  | endless {group : ℕ} (unsized : t.shape.size = 0) : FailsAt t image last ⟨group, last⟩ .endless

end GroupTable

/-! ## Calls -/

namespace GroupWalk

/-- The offset of the slot that was landed on last, or zero if there is none. -/
def lastOffset (walk : GroupWalk) : ℕ :=
  walk.position.elim 0 Slot.offset

variable {walk : GroupWalk} {container : Object}

/-- A walk that has come to rest gives the end, an element or a fault. -/
lemma land_cases (walk : GroupWalk) (offset : ℕ) {landing : Landing}
    (marks : ∀ slot, landing = .slot slot → walk.table.Marks image slot)
    (fails : ∀ group fault, landing = .unreadable group fault →
      walk.table.FailsAt image offset ⟨group, offset⟩ fault) :
    (∃ group, walk.land image offset landing = (.done, ⟨walk.table, .ended group⟩)) ∨
    (∃ slot element, walk.table.Marks image slot ∧ walk.table.payload image slot = .ok element ∧
      walk.land image offset landing = (.item element, ⟨walk.table, .standing slot⟩)) ∨
    ∃ slot fault, walk.table.FailsAt image offset slot fault ∧
      walk.land image offset landing = (.fault fault, ⟨walk.table, .broken slot⟩) := by
  cases landing with
  | sentinel group => exact .inl ⟨group, rfl⟩
  | unreadable group fault => exact .inr (.inr ⟨_, fault, fails group fault rfl, rfl⟩)
  | slot slot =>
      cases payload : walk.table.payload image slot with
      | ok element =>
          exact .inr (.inl ⟨slot, element, marks slot rfl, payload, visit_of_payload payload⟩)
      | error fault =>
          refine .inr (.inr ⟨slot, fault, .element (marks slot rfl) payload, ?_⟩)
          simp only [land, visit, payload, fail]

/-- **What a call can do.**  It gives the end because the walk is over, or because the end was met;
or it gives an element and stands on its slot; or it gives a fault. -/
lemma call_cases (walk : GroupWalk) (read : GroupTable.read image container = .ok walk.table) :
    (call image walk = (.done, walk) ∧
      ((∃ group, walk.stage = .ended group) ∨ ∃ slot, walk.stage = .broken slot)) ∨
    (∃ group, call image walk = (.done, ⟨walk.table, .ended group⟩)) ∨
    (∃ slot element, walk.table.Marks image slot ∧ walk.table.payload image slot = .ok element ∧
      call image walk = (.item element, ⟨walk.table, .standing slot⟩)) ∨
    ∃ slot fault, walk.table.FailsAt image walk.lastOffset slot fault ∧
      call image walk = (.fault fault, ⟨walk.table, .broken slot⟩) := by
  obtain ⟨t, stage⟩ := walk
  have searched (slot : Slot) (stage : Stage) :=
    land_cases ⟨t, stage⟩ slot.offset
      (fun next (h : (t.searchAfter image slot).value = _) => (GroupTable.marks_of_searchAfter h).1)
      fun group fault h => by
        rcases GroupTable.fault_of_searchAfter h with unreadable | ⟨rfl, readable, unlimited⟩
        · exact .group unreadable
        · exact .endless (GroupTable.size_eq_zero_of_endless read readable unlimited)
  cases stage with
  | ended group => exact .inl ⟨rfl, .inl ⟨group, rfl⟩⟩
  | broken slot => exact .inl ⟨rfl, .inr ⟨slot, rfl⟩⟩
  | standing slot => exact .inr (searched slot _)
  | fresh =>
      right
      cases hcontrol : t.control image 0 with
      | error fault =>
          exact .inr (.inr ⟨_, fault, .group hcontrol, call_fresh_of_unreadable hcontrol⟩)
      | ok control =>
          cases first : (t.marked control).getLsbD 0 with
          | true =>
              rw [call_fresh_of_marked hcontrol first]
              refine land_cases ⟨t, .fresh⟩ 0 (fun slot (h : Landing.slot ⟨0, 0⟩ = _) => ?_) nofun
              cases h
              exact ⟨control, hcontrol, first⟩
          | false =>
              rw [call_fresh_of_unmarked hcontrol first]
              exact searched ⟨0, 0⟩ _

/-! ## Runs -/

lemma table_call (read : GroupTable.read image container = .ok walk.table) :
    (call image walk).2.table = walk.table := by
  rcases call_cases walk read with
    ⟨hcall, -⟩ | ⟨_, hcall⟩ | ⟨_, _, -, -, hcall⟩ | ⟨_, _, -, hcall⟩ <;> rw [hcall]

lemma table_afterCalls (read : GroupTable.read image container = .ok walk.table) (n : ℕ) :
    (afterCalls (call image) walk n).table = walk.table := by
  induction n with
  | zero => rfl
  | succ n ih => rw [afterCalls_succ, table_call (ih.symm ▸ read), ih]

/-- A walk that was left at a fault has given one. -/
lemma exists_fault_of_broken (read : GroupTable.read image container = .ok walk.table)
    (sound : ∀ slot, walk.stage ≠ .broken slot) {n : ℕ} {slot : Slot}
    (h : (afterCalls (call image) walk n).stage = .broken slot) :
    ∃ k < n, ∃ fault, entryAt (call image) walk k = .fault fault := by
  induction n generalizing slot with
  | zero => exact absurd h (sound slot)
  | succ n ih =>
      have here := call_cases (afterCalls (call image) walk n)
        ((table_afterCalls read n).symm ▸ read)
      rw [afterCalls_succ] at h
      rcases here with ⟨hcall, -⟩ | ⟨_, hcall⟩ | ⟨_, _, -, -, hcall⟩ | ⟨_, fault, -, hcall⟩
      · rw [hcall] at h
        obtain ⟨k, hk, given⟩ := ih h
        exact ⟨k, Nat.lt_succ_of_lt hk, given⟩
      · simp [hcall] at h
      · simp [hcall] at h
      · exact ⟨n, Nat.lt_succ_self n, fault, congrArg Prod.fst hcall⟩

lemma ofTable_stage_ne_broken (t : GroupTable) (slot : Slot) :
    (ofTable t).stage ≠ .broken slot := by
  rw [ofTable]
  split <;> simp

end GroupWalk

/-- **Where a grouped walk stands.**  Before its first call it has no position.  After a call that
gave an element, the position is a slot, and the element is what is stored for that slot, followed
if it is indirect.  After a call that gave the end there is no position, unless a fault was given
before.  A call that gives a fault leaves a position, and that stays for ever: the slot whose
element could not be followed, or the group that could not be read with the offset of the slot that
was landed on last. -/
theorem groupWalk_position {image : Image} {container : Object} {walk : GroupWalk}
    (start : GroupWalk.start image container = .ok walk) :
    walk.position = none ∧
    (∀ n element, entryAt (GroupWalk.call image) walk n = .item element →
      ∃ slot, (afterCalls (GroupWalk.call image) walk (n + 1)).position = some slot ∧
        image.elementPayload
          ⟨walk.table.elements +
              (slot.group * walk.table.shape.slots + slot.offset) * walk.table.elementSize,
            walk.table.elementType⟩ = .ok element) ∧
    (∀ n, entryAt (GroupWalk.call image) walk n = .done →
      (∀ k < n, ∀ fault, entryAt (GroupWalk.call image) walk k ≠ .fault fault) →
      (afterCalls (GroupWalk.call image) walk (n + 1)).position = none) ∧
    ∀ n fault, entryAt (GroupWalk.call image) walk n = .fault fault →
      ∃ slot, walk.table.FailsAt image (afterCalls (GroupWalk.call image) walk n).lastOffset slot
          fault ∧
        ∀ m, n < m → (afterCalls (GroupWalk.call image) walk m).position = some slot := by
  obtain ⟨read, hwalk⟩ := GroupWalk.of_start start
  have sound : ∀ slot, walk.stage ≠ .broken slot := fun slot =>
    hwalk ▸ GroupWalk.ofTable_stage_ne_broken walk.table slot
  have table := GroupWalk.table_afterCalls read
  have cases (n : ℕ) := GroupWalk.call_cases (afterCalls (GroupWalk.call image) walk n)
    ((table n).symm ▸ read)
  refine ⟨?_, fun n element given => ?_, fun n given unbroken => ?_, fun n fault given => ?_⟩
  · rw [hwalk, GroupWalk.ofTable]
    split <;> rfl
  · rw [entryAt] at given
    rcases cases n with ⟨hcall, -⟩ | ⟨_, hcall⟩ | ⟨slot, _, -, payload, hcall⟩ | ⟨_, _, -, hcall⟩
    · simp [hcall] at given
    · simp [hcall] at given
    · rw [hcall] at given
      cases given
      rw [table n] at payload
      exact ⟨slot, by rw [afterCalls_succ, hcall]; rfl, payload⟩
    · simp [hcall] at given
  · rw [entryAt] at given
    rcases cases n with ⟨hcall, hstage⟩ | ⟨_, hcall⟩ | ⟨_, _, -, -, hcall⟩ | ⟨_, _, -, hcall⟩
    · rw [afterCalls_succ, hcall, GroupWalk.position]
      rcases hstage with ⟨group, hstage⟩ | ⟨slot, hstage⟩
      · rw [hstage]
      · obtain ⟨k, hk, fault, met⟩ := GroupWalk.exists_fault_of_broken read sound hstage
        exact absurd met (unbroken k hk fault)
    · rw [afterCalls_succ, hcall]
      rfl
    · simp [hcall] at given
    · simp [hcall] at given
  · rw [entryAt] at given
    rcases cases n with ⟨hcall, -⟩ | ⟨_, hcall⟩ | ⟨_, _, -, -, hcall⟩ | ⟨slot, _, fails, hcall⟩
    · simp [hcall] at given
    · simp [hcall] at given
    · simp [hcall] at given
    · rw [hcall] at given
      cases given
      rw [table n] at fails
      refine ⟨slot, fails, fun m hm => ?_⟩
      obtain ⟨k, rfl⟩ := Nat.exists_eq_add_of_lt hm
      rw [Nat.add_right_comm, afterCalls_add, afterCalls_succ, hcall, afterCalls_of_fixed rfl]
      rfl

/-- A table of which only the first group was captured, with an element in slot 4. -/
def cutOffTable : Image where
  order := .little
  memory :=
    { segments :=
        [⟨0x10, #[0, 1, 0, 0, 0, 0, 0, 0, 0, 4, 0, 0, 0, 0, 0, 0]⟩,
          ⟨0x100, #[0, 0, 0, 0, 7, 0, 0, 0, 0, 0, 0, 0, 0, 0, 0, 0]⟩]
      apart := by decide
      bounded := by decide }
  types := ⟨#[some (.plain "unsigned char" 1 .unsigned),
    some (.plain "unsigned char [16]" 16 (.array 0 16)),
    some (.plain "group15" 16 (.record [⟨"m", 0, 1, false⟩])),
    some (.plain "group15 *" 8 (.pointer 2)),
    some (.plain "int" 4 .signed),
    some (.plain "int *" 8 (.pointer 4)),
    some (.plain "arrays" 16 (.record [⟨"groups_", 0, 3, false⟩, ⟨"elements_", 8, 5, false⟩])),
    some (.plain "table" 16 (.record [⟨"arrays", 0, 6, false⟩])),
    some (.plain "set" 16 (.record [⟨"table_", 0, 7, false⟩]))]⟩

/-- The walk through it, before its first call. -/
def cutOffWalk : GroupWalk :=
  ⟨⟨⟨.regular, 15, 1, 16⟩, 0x100, 2, 0x400, 4, 4⟩, .fresh⟩

theorem cutOffWalk_position :
    GroupWalk.start cutOffTable ⟨0x10, 8⟩ = .ok cutOffWalk ∧ cutOffWalk.position = none ∧
      (∃ slot, (afterCalls (GroupWalk.call cutOffTable) cutOffWalk 1).position = some slot ∧
        cutOffTable.elementPayload ⟨0x400 + (slot.group * 15 + slot.offset) * 4, 4⟩ =
          .ok ⟨0x410, 4⟩) ∧
      ∃ slot, cutOffWalk.table.FailsAt cutOffTable 4 slot (.unmapped 0x110 1) ∧ ∀ m, 1 < m →
        (afterCalls (GroupWalk.call cutOffTable) cutOffWalk m).position = some slot := by
  have start : GroupWalk.start cutOffTable ⟨0x10, 8⟩ = .ok cutOffWalk := rfl
  have entries : entryAt (GroupWalk.call cutOffTable) cutOffWalk 0 = .item ⟨0x410, 4⟩ ∧
      entryAt (GroupWalk.call cutOffTable) cutOffWalk 1 = .fault (.unmapped 0x110 1) := by
    decide +kernel
  have offset : (afterCalls (GroupWalk.call cutOffTable) cutOffWalk 1).lastOffset = 4 := by
    decide +kernel
  obtain ⟨before, items, -, faults⟩ := groupWalk_position start
  obtain ⟨slot, fails, stays⟩ := faults 1 _ entries.2
  rw [offset] at fails
  exact ⟨start, before, items 0 _ entries.1, slot, fails, stays⟩

/-- The walk is over once the second group could not be read, and yet it has a position, in that
group. -/
theorem cutOffWalk_position_after_fault :
    GroupWalk.start cutOffTable ⟨0x10, 8⟩ = .ok cutOffWalk ∧
      entryAt (GroupWalk.call cutOffTable) cutOffWalk 1 = .fault (.unmapped 0x110 1) ∧
      (afterCalls (GroupWalk.call cutOffTable) cutOffWalk 2).position = some ⟨1, 4⟩ ∧
      entryAt (GroupWalk.call cutOffTable) cutOffWalk 2 = .done ∧
      (afterCalls (GroupWalk.call cutOffTable) cutOffWalk 3).position = some ⟨1, 4⟩ := by
  have start : GroupWalk.start cutOffTable ⟨0x10, 8⟩ = .ok cutOffWalk := rfl
  refine ⟨start, ?_⟩
  decide +kernel

end Postmortem
