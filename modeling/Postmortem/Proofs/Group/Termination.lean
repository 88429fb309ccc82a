import Postmortem.Proofs.Group.Standing
import Postmortem.Proofs.Group.Storage
import Postmortem.Proofs.TypeTable.Lookups

/-!
# A grouped walk ends on the layouts there are

Skipping groups that mark nothing has no bound of its own: the walk relies on a sentinel.  Without
one it still ends.  The control words of a group fill its sixteen bytes, so every group that is left
behind had sixteen mapped bytes of its own; and since the last address of all is never mapped, the
address of the next group does not leave the address space.

* `HoldsWord`, `DenseGroups` — a type of groups that consist of their control words.
* `mapped_of_control` — to read a group is to read all of its bytes.
* `groupAddress_lt`, `groups_le` — what follows for a group if all before it can be read.
* `Skips` — the groups that a search leaves behind, and says so.
* `Advanced` — a walk has as many slots behind it as it has given elements.
* `entryAt_ne_endless` — every call comes to its end.
* **`groupWalk_ends`** — all of it together.
-/

namespace Postmortem

/-! ## Control words -/

/-- The type holds an integer of `size` bytes at its start: plainly or as an atomic, itself or in
its member `n`. -/
inductive HoldsWord (types : TypeTable) (size : ℕ) : TypeId → Prop
  | direct {id : TypeId} (held : IntegerType types size id) : HoldsWord types size id
  | member {id inner word : TypeId} {info : TypeInfo} {fields : List Field}
      (payload : Payload types id inner) (found : types.get? inner = some info)
      (record : info.kind = .record fields) (n : types.member inner "n" = .ok ⟨0, word⟩)
      (held : IntegerType types size word) : HoldsWord types size id

/-- A type of groups of sixteen bytes, all of them control words. -/
structure DenseGroups (types : TypeTable) (type : TypeId) (layout : ControlLayout) where
  array : TypeId
  info : TypeInfo
  word : TypeId
  array_eq : types.member type "m" = .ok ⟨0, array⟩
  info_eq : types.get? array = some info
  kind_eq : info.kind = .array word layout.length
  stride_eq : types.byteSize word = .ok layout.wordSize
  holds : HoldsWord types layout.wordSize word
  size_eq : types.byteSize type = .ok 16

variable {image : Image}

/-- An integer that is held at the start of an object is read there. -/
lemma HoldsWord.readIntegral_eq {size : ℕ} {id : TypeId} (holds : HoldsWord image.types size id)
    (address : ℕ) : ∃ inner info, image.types.info inner = .ok info ∧ info.size = size ∧
      image.readIntegral ⟨address, id⟩ = image.readUnsigned ⟨address, inner⟩ := by
  cases holds with
  | direct held =>
      obtain ⟨inner, info, payload, found, scalar, sized⟩ :=
        Image.atomicPayload_of_integerType held
      refine ⟨inner, info, TypeTable.info_of_get? found, sized, ?_⟩
      rw [Image.readIntegral, payload, ok_bind, TypeTable.info_of_get? found, ok_bind]
      split
      · next fields record => exact absurd record (TypeInfo.kind_ne_record scalar fields)
      · rfl
  | @member inner word info fields payload found record n held =>
      obtain ⟨bare, bareInfo, payload', found', -, sized⟩ :=
        @Image.atomicPayload_of_integerType image size address word held
      refine ⟨bare, bareInfo, TypeTable.info_of_get? found', sized, ?_⟩
      have hn : image.field ⟨address, inner⟩ "n" = .ok ⟨address, word⟩ :=
        Image.field_eq_ok.mpr ⟨_, n, rfl⟩
      rw [Image.readIntegral, Image.atomicPayload_of_payload payload, ok_bind,
        TypeTable.info_of_get? found, ok_bind, record]
      show image.field ⟨address, inner⟩ "n" >>= _ = _
      rw [hn, ok_bind, payload', ok_bind]

lemma HoldsWord.mapped {size address : ℕ} {id : TypeId} {value : Word}
    (holds : HoldsWord image.types size id)
    (read : image.readIntegral ⟨address, id⟩ = .ok value) :
    Finset.Ico address (address + size) ⊆ addresses image.memory.segments := by
  obtain ⟨inner, info, found, rfl, same⟩ := holds.readIntegral_eq address
  obtain ⟨info', found', -, mapped⟩ := Image.mapped_of_readUnsigned (same.symm.trans read)
  obtain rfl : info' = info := Except.ok.inj (found'.symm.trans found)
  exact mapped

lemma HoldsWord.ne_endless {size address : ℕ} {id : TypeId}
    (holds : HoldsWord image.types size id) :
    image.readIntegral ⟨address, id⟩ ≠ .error .endless := by
  obtain ⟨_, _, -, -, same⟩ := holds.readIntegral_eq address
  rw [same]
  exact Image.readUnsigned_ne_endless

/-! ## Groups -/

lemma ControlLayout.length_mul_wordSize (layout : ControlLayout) :
    layout.length * layout.wordSize = 16 := by
  cases layout <;> rfl

lemma ControlLayout.wordSize_pos (layout : ControlLayout) : 0 < layout.wordSize := by
  cases layout <;> decide

namespace DenseGroups

variable {type : TypeId} {layout : ControlLayout} {address : ℕ}

lemma field_eq (d : DenseGroups image.types type layout) (address : ℕ) :
    image.field ⟨address, type⟩ "m" = .ok ⟨address, d.array⟩ :=
  Image.field_eq_ok.mpr ⟨_, d.array_eq, rfl⟩

lemma index_eq_ok (d : DenseGroups image.types type layout) {i : ℕ} {word : Object} :
    image.index ⟨address, d.array⟩ i = .ok word ↔
      i < layout.length ∧ ⟨address + layout.wordSize * i, d.word⟩ = word :=
  Image.index_eq_ok d.info_eq d.kind_eq d.stride_eq

lemma control_eq (d : DenseGroups image.types type layout) (address : ℕ) :
    GroupShape.control image ⟨address, type⟩ =
      (List.range layout.length).mapM
        fun i => image.index ⟨address, d.array⟩ i >>= image.readIntegral := by
  rw [GroupShape.control, d.field_eq, ok_bind, Image.arrayLength_of_array d.info_eq d.kind_eq,
    ok_bind]

/-- **To read a group is to read all of its bytes.** -/
lemma mapped_of_control (d : DenseGroups image.types type layout) {control : List Word}
    (read : GroupShape.control image ⟨address, type⟩ = .ok control) :
    Finset.Ico address (address + 16) ⊆ addresses image.memory.segments := by
  rw [d.control_eq] at read
  intro x hx
  obtain ⟨above, below⟩ := Finset.mem_Ico.mp hx
  have whole := layout.length_mul_wordSize
  have sized := layout.wordSize_pos
  -- the byte lies in the word with this index
  have inside : (x - address) / layout.wordSize < layout.length := by
    rw [Nat.div_lt_iff_lt_mul sized]
    omega
  obtain ⟨value, hvalue⟩ := exists_of_mapM_eq_ok read _ (List.mem_range.mpr inside)
  obtain ⟨word, hword, hread⟩ := bind_eq_ok.mp hvalue
  obtain ⟨-, rfl⟩ := d.index_eq_ok.mp hword
  have parts := Nat.div_add_mod (x - address) layout.wordSize
  have rest := Nat.mod_lt (x - address) sized
  exact d.holds.mapped hread (Finset.mem_Ico.mpr ⟨by omega, by omega⟩)

/-- **A control word has an address if those before it were read.** -/
lemma wordAddress_lt (d : DenseGroups image.types type layout) (base : address < addressSpace)
    {i : ℕ} {word : Object} (indexed : image.index ⟨address, d.array⟩ i = .ok word)
    (before : ∀ j < i, ∃ earlier value, image.index ⟨address, d.array⟩ j = .ok earlier ∧
      image.readIntegral earlier = .ok value) : word.address < addressSpace := by
  obtain ⟨-, rfl⟩ := d.index_eq_ok.mp indexed
  cases i with
  | zero => exact base
  | succ i =>
      obtain ⟨earlier, value, indexed, read⟩ := before i (Nat.lt_succ_self i)
      obtain ⟨-, rfl⟩ := d.index_eq_ok.mp indexed
      have sized := layout.wordSize_pos
      have last : address + layout.wordSize * i + (layout.wordSize - 1) ∈
          addresses image.memory.segments :=
        d.holds.mapped read (Finset.mem_Ico.mpr ⟨by omega, by omega⟩)
      have := Memory.succ_lt_addressSpace last
      show address + layout.wordSize * (i + 1) < addressSpace
      rw [Nat.mul_succ]
      omega

lemma control_ne_endless (d : DenseGroups image.types type layout) :
    GroupShape.control image ⟨address, type⟩ ≠ .error .endless := by
  rw [d.control_eq]
  intro failed
  obtain ⟨i, hi, failed⟩ := exists_of_mapM_eq_error failed
  rw [d.index_eq_ok.mpr ⟨List.mem_range.mp hi, rfl⟩] at failed
  exact d.holds.ne_endless failed

end DenseGroups

/-! ## Groups one after the other -/

namespace GroupTable

variable {t : GroupTable} {layout : ControlLayout} {group : ℕ} {container : Object}

lemma groups_lt_of_read (read : GroupTable.read image container = .ok t) :
    t.groups < addressSpace := by
  simp only [GroupTable.read, bind_eq_ok] at read
  obtain ⟨_, -, _, -, _, -, _, -, _, -, _, -, _, hgroups, _, -, _, -, _, -, read⟩ := read
  cases read
  exact Image.lt_addressSpace_of_readAddress hgroups

lemma size_of_read (dense : DenseGroups image.types t.groupType layout)
    (read : GroupTable.read image container = .ok t) : t.shape.size = 16 := by
  obtain ⟨shape, -⟩ := of_read read
  simp only [GroupShape.read, bind_eq_ok] at shape
  obtain ⟨_, -, _, -, _, -, size, hsize, shape⟩ := shape
  obtain rfl : 16 = size := Except.ok.inj (dense.size_eq.symm.trans hsize)
  rw [← Except.ok.inj shape]

variable (dense : DenseGroups image.types t.groupType layout) (sized : t.shape.size = 16)
  (readable : ∀ g < group, t.Readable image g)
include dense sized readable

/-- Groups that can be read, one after the other, lie on mapped bytes. -/
lemma mapped_of_readable :
    Finset.Ico t.groups (t.groups + 16 * group) ⊆ addresses image.memory.segments := by
  intro x hx
  obtain ⟨above, below⟩ := Finset.mem_Ico.mp hx
  have parts := Nat.div_add_mod (x - t.groups) 16
  have rest := Nat.mod_lt (x - t.groups) (show 0 < 16 by decide)
  obtain ⟨control, hcontrol⟩ := readable ((x - t.groups) / 16) (by omega)
  refine dense.mapped_of_control hcontrol (Finset.mem_Ico.mpr ?_)
  rw [groupAddress, sized]
  omega

/-- **The groups that can be read are no more than fit in the memory.** -/
lemma groups_le : group ≤ image.memory.length / 16 := by
  rw [Nat.le_div_iff_mul_le (by decide), Nat.mul_comm]
  exact Memory.le_length_of_mapped (mapped_of_readable dense sized readable)

/-- **The group behind them still has an address.** -/
lemma groupAddress_lt (base : t.groups < addressSpace) : t.groupAddress group < addressSpace := by
  rw [groupAddress, sized]
  cases group with
  | zero => simpa using base
  | succ group =>
      have last : t.groups + 16 * group + 15 ∈ addresses image.memory.segments :=
        mapped_of_readable dense sized readable (Finset.mem_Ico.mpr (by omega))
      have := Memory.succ_lt_addressSpace last
      omega

end GroupTable

/-! ## Searches -/

/-- The search came to rest in this group. -/
def Landing.In (group : ℕ) : Landing → Prop
  | .slot place => place.group = group
  | .sentinel g | .unreadable g _ => g = group

namespace GroupTable

variable {t : GroupTable} {group count : ℕ}

/-- A search leaves these groups behind, all of which can be read, and logs each that it goes on to.
It rests in the group it has come to. -/
structure Skips (t : GroupTable) (image : Image) (group count : ℕ) (search : Logged Landing) :
    Prop where
  events_eq : search.events = (List.range' (group + 1) count).map .groupSkipped
  readable : ∀ g, group ≤ g → g < group + count → t.Readable image g
  rests : search.value.In (group + count)

lemma Skips.here {landing : Landing} (rests : landing.In group) :
    t.Skips image group 0 (pure landing) where
  events_eq := rfl
  readable g _ _ := by omega
  rests := rests

lemma Skips.later {search : Logged Landing} (here : t.Readable image group)
    (rest : t.Skips image (group + 1) count search) :
    t.Skips image group (count + 1) (do Logged.record (.groupSkipped (group + 1)); search) where
  events_eq := by
    rw [Logged.events_bind, rest.events_eq, List.range'_succ]
    rfl
  readable g hle hlt := by
    rcases Nat.eq_or_lt_of_le hle with rfl | later
    · exact here
    · exact rest.readable g later (by omega)
  rests := by
    rw [Logged.value_bind, Nat.add_comm count, ← Nat.add_assoc]
    exact rest.rests

/-- In one group a search rests there. -/
lemma in_of_landing? {control : List Word} {mask : Mask} {landing : Landing}
    (h : t.landing? group control mask = some landing) : landing.In group := by
  rw [landing?_eq, Option.map_eq_some_iff] at h
  obtain ⟨i, -, rfl⟩ := h
  rw [GroupTable.landing]
  split <;> rfl

lemma exists_skips_searchFrom (t : GroupTable) (image : Image) (group : ℕ) :
    ∃ count, t.Skips image group count (t.searchFrom image group) := by
  fun_induction searchFrom t image group with
  | case1 group fault hcontrol => exact ⟨0, .here rfl⟩
  | case2 group control hcontrol landing hlanding => exact ⟨0, .here (in_of_landing? hlanding)⟩
  | case3 group control hcontrol hnone hlimit ih =>
      obtain ⟨count, rest⟩ := ih
      exact ⟨count + 1, .later ⟨control, hcontrol⟩ rest⟩
  | case4 group control hcontrol hnone hlimit => exact ⟨0, .here rfl⟩

lemma exists_skips_searchAfter (t : GroupTable) (image : Image) (slot : Slot) :
    ∃ count, t.Skips image slot.group count (t.searchAfter image slot) := by
  rw [searchAfter]
  split
  next fault hcontrol => exact ⟨0, .here rfl⟩
  next control hcontrol =>
    split
    next landing hlanding => exact ⟨0, .here (in_of_landing? hlanding)⟩
    next hnone =>
      obtain ⟨count, rest⟩ := exists_skips_searchFrom t image (slot.group + 1)
      exact ⟨count + 1, .later ⟨control, hcontrol⟩ rest⟩

end GroupTable

/-! ## Calls -/

namespace GroupWalk

variable {t : GroupTable} {walk : GroupWalk} {n : ℕ}

/-- A walk has as many slots behind it as it has given elements, in groups that can be read. -/
def Advanced (t : GroupTable) (image : Image) (n : ℕ) : Stage → Prop
  | .fresh => n = 0
  | .standing slot => n ≤ 15 * slot.group + slot.offset + 1 ∧ slot.offset < 15 ∧
      ∀ g ≤ slot.group, t.Readable image g
  | .ended group => ∀ g < group, t.Readable image g
  | .broken slot => ∀ g < slot.group, t.Readable image g

lemma Advanced.readable (advanced : Advanced t image n walk.stage) :
    ∀ g < walk.group, t.Readable image g := by
  obtain ⟨table, stage⟩ := walk
  cases stage with
  | fresh => exact nofun
  | standing slot => exact fun g hg => advanced.2.2 g (Nat.le_of_lt hg)
  | ended group => exact advanced
  | broken slot => exact advanced

/-- What a call logs is that it goes from group to group, and the groups it leaves behind can be
read, with all before them. -/
def Passes (t : GroupTable) (image : Image) (events : List Event) : Prop :=
  ∃ group count, events = (List.range' (group + 1) count).map .groupSkipped ∧
    ∀ g < group + count, t.Readable image g

lemma passes_nil (t : GroupTable) (image : Image) : Passes t image [] :=
  ⟨0, 0, rfl, nofun⟩

/-- A walk that comes to rest on a slot stands on it; or it is over, or broke, in the group it has
come to. -/
lemma stage_land_cases (walk : GroupWalk) (image : Image) (offset : ℕ) {landing : Landing}
    {group : ℕ} (rests : landing.In group) :
    (∃ slot, landing = .slot slot ∧ slot.group = group ∧
      (walk.land image offset landing).2.stage = .standing slot) ∨
    (walk.land image offset landing).2.stage = .ended group ∨
    ∃ slot, slot.group = group ∧ (walk.land image offset landing).2.stage = .broken slot := by
  cases landing with
  | sentinel g => exact .inr (.inl (congrArg Stage.ended rests))
  | unreadable g fault => exact .inr (.inr ⟨⟨g, offset⟩, rests, rfl⟩)
  | slot slot =>
      rw [land, visit]
      split
      · exact .inl ⟨slot, rfl, rests, rfl⟩
      · exact .inr (.inr ⟨slot, rests, rfl⟩)

/-- A call that stands on a slot advances, and passes what its search leaves behind. -/
lemma advanced_standing {slot : Slot} (advanced : Advanced t image n (.standing slot)) :
    Advanced t image (n + 1) (call image ⟨t, .standing slot⟩).2.stage ∧
      Passes t image ((⟨t, .standing slot⟩ : GroupWalk).next image).events := by
  obtain ⟨given, inside, passed⟩ := advanced
  obtain ⟨count, skips⟩ := GroupTable.exists_skips_searchAfter t image slot
  have readable : ∀ g < slot.group + count, t.Readable image g := by
    intro g hg
    rcases Nat.lt_or_ge g slot.group with before | later
    · exact passed g (Nat.le_of_lt before)
    · exact skips.readable g later hg
  refine ⟨?_, slot.group, count, ?_, readable⟩
  · rw [call_standing]
    rcases stage_land_cases ⟨t, .standing slot⟩ image slot.offset skips.rests
      with ⟨next, landing, reached, standing⟩ | ended | ⟨next, reached, broken⟩
    · obtain ⟨marks, later⟩ := GroupTable.marks_of_searchAfter landing
      have within := marks.offset_lt
      rw [standing]
      refine ⟨?_, within, fun g hg => ?_⟩
      · rcases later with later | ⟨same, later⟩ <;> omega
      · rcases Nat.eq_or_lt_of_le hg with rfl | before
        · obtain ⟨control, hcontrol, -⟩ := marks
          exact ⟨control, hcontrol⟩
        · exact readable g (reached ▸ before)
    · rw [ended]
      exact readable
    · rw [broken]
      exact fun g hg => readable g (reached ▸ hg)
  · rw [next, Logged.events_bind, skips.events_eq, Logged.events_pure, List.append_nil]

/-- **A call advances, and passes only groups that can be read.** -/
lemma advanced_call (walk : GroupWalk) (advanced : Advanced walk.table image n walk.stage) :
    Advanced walk.table image (n + 1) (call image walk).2.stage ∧
      Passes walk.table image (walk.next image).events := by
  obtain ⟨t, stage⟩ := walk
  cases stage with
  | ended group => exact ⟨advanced, passes_nil t image⟩
  | broken slot => exact ⟨advanced, passes_nil t image⟩
  | standing slot => exact advanced_standing advanced
  | fresh =>
      obtain rfl : n = 0 := advanced
      have nothing : Advanced t image 1 (.broken ⟨0, 0⟩) :=
        fun g hg => absurd hg (Nat.not_lt_zero g)
      cases hcontrol : t.control image 0 with
      | error fault =>
          rw [call, next_fresh_of_unreadable hcontrol]
          exact ⟨nothing, passes_nil t image⟩
      | ok control =>
          have first : Advanced t image 1 (.standing ⟨0, 0⟩) := by
            refine ⟨Nat.le_refl _, by decide, fun g hg => ?_⟩
            obtain rfl : g = 0 := Nat.le_zero.mp hg
            exact ⟨control, hcontrol⟩
          cases marked : (t.marked control).getLsbD 0 with
          | true =>
              rw [call, next_fresh_of_marked hcontrol marked, Logged.value_pure, visit]
              refine ⟨?_, passes_nil t image⟩
              split
              · exact first
              · exact nothing
          | false =>
              rw [call, next_fresh_of_unmarked hcontrol marked]
              obtain ⟨given, inside, passed⟩ := first
              exact advanced_standing ⟨Nat.zero_le _, inside, passed⟩

/-! ## Runs -/

/-- A group that the walk asks for at some time: the first one, one that it goes on to, or one that
it has come to. -/
def Visits (image : Image) (walk : GroupWalk) (group : ℕ) : Prop :=
  group = 0 ∨ ∃ n,
    Event.groupSkipped group ∈ ((afterCalls (call image) walk n).next image).events ∨
    (afterCalls (call image) walk n).group = group

variable {container : Object}

lemma advanced_ofTable (t : GroupTable) (image : Image) :
    Advanced t image 0 (ofTable t).stage := by
  rw [ofTable]
  split
  · exact fun g hg => absurd hg (Nat.not_lt_zero g)
  · rfl

lemma advanced_afterCalls (start : GroupWalk.start image container = .ok walk) (n : ℕ) :
    Advanced walk.table image n (afterCalls (call image) walk n).stage := by
  obtain ⟨read, hwalk⟩ := of_start start
  induction n with
  | zero => exact hwalk ▸ advanced_ofTable walk.table image
  | succ n ih =>
      have table := table_afterCalls read n
      rw [afterCalls_succ, ← table]
      exact (advanced_call _ (table.symm ▸ ih)).1

lemma passes_next (start : GroupWalk.start image container = .ok walk) (n : ℕ) :
    Passes walk.table image ((afterCalls (call image) walk n).next image).events := by
  have table := table_afterCalls (of_start start).1 n
  have advanced := advanced_afterCalls start n
  rw [← table] at advanced ⊢
  exact (advanced_call _ advanced).2

/-- All groups before one that is visited can be read. -/
lemma Visits.readable {group : ℕ} (start : GroupWalk.start image container = .ok walk)
    (visits : walk.Visits image group) : ∀ g < group, walk.table.Readable image g := by
  rcases visits with rfl | ⟨n, logged | rfl⟩
  · exact nofun
  · obtain ⟨first, count, events_eq, readable⟩ := passes_next start n
    rw [events_eq, List.mem_map] at logged
    obtain ⟨_, range, same⟩ := logged
    obtain rfl := Event.groupSkipped.inj same
    rw [List.mem_range'_1] at range
    exact fun g hg => readable g (by omega)
  · exact (advanced_afterCalls start n).readable

/-- An element that comes after `n` others lies behind as many slots, in groups that can be read. -/
lemma lt_of_item (start : GroupWalk.start image container = .ok walk) {element : Object}
    (given : entryAt (call image) walk n = .item element) :
    ∃ group, n < 15 * (group + 1) ∧ ∀ g < group + 1, walk.table.Readable image g := by
  have read := (of_start start).1
  have advanced := advanced_afterCalls start (n + 1)
  rw [afterCalls_succ] at advanced
  rw [entryAt] at given
  rcases call_cases (afterCalls (call image) walk n) ((table_afterCalls read n).symm ▸ read) with
    ⟨hcall, -⟩ | ⟨_, hcall⟩ | ⟨slot, _, -, -, hcall⟩ | ⟨_, _, -, hcall⟩
  · simp [hcall] at given
  · simp [hcall] at given
  · rw [hcall] at advanced
    obtain ⟨ahead, inside, readable⟩ := advanced
    exact ⟨slot.group, by omega, fun g hg => readable g (Nat.le_of_lt_succ hg)⟩
  · simp [hcall] at given

/-- A walk that has given a fault or the end stays as it is. -/
lemma call_of_no_item (walk : GroupWalk) (noItem : ∀ element, (call image walk).1 ≠ .item element) :
    call image (call image walk).2 = (.done, (call image walk).2) := by
  rcases exists_landsOn walk image with finished | ⟨landing, ⟨offset, lands⟩, -⟩
  · have hcall : call image walk = (.done, walk) := finished
    rw [hcall, hcall]
  · have hcall : call image walk = walk.land image offset landing := lands
    rw [hcall] at noItem ⊢
    cases landing with
    | sentinel group => rfl
    | unreadable group fault => rfl
    | slot slot =>
        rw [land, visit] at noItem ⊢
        split
        · next element payload => simp [payload] at noItem
        · rfl

/-- A call ends unless a lookup in the type of the elements does not. -/
lemma entryAt_ne_endless {layout : ControlLayout}
    (start : GroupWalk.start image container = .ok walk)
    (dense : DenseGroups image.types walk.table.groupType layout)
    (acyclic : image.types.IsIndirect walk.table.elementType →
      TypeTable.AcyclicBelow image.types.HasBase walk.table.elementType) (n : ℕ) :
    entryAt (call image) walk n ≠ .fault .endless := by
  have read := (of_start start).1
  have table := table_afterCalls read n
  intro given
  rw [entryAt] at given
  rcases call_cases (afterCalls (call image) walk n) (table.symm ▸ read) with
    ⟨hcall, -⟩ | ⟨_, hcall⟩ | ⟨_, _, -, -, hcall⟩ | ⟨slot, _, fails, hcall⟩
  · simp [hcall] at given
  · simp [hcall] at given
  · simp [hcall] at given
  · rw [hcall] at given
    cases given
    rw [table] at fails
    cases fails with
    | element marks broken =>
        obtain ⟨indirect, endless⟩ := Image.member_of_elementPayload broken
        exact TypeTable.member_ne_endless (acyclic indirect) endless
    | group unreadable => exact absurd unreadable dense.control_ne_endless
    | endless unsized => simp [GroupTable.size_of_read dense read] at unsized

end GroupWalk

/-- **A grouped walk ends on the layouts there are**, with a sentinel or without.  Groups are
sixteen bytes, all of them control words, and no type that the lookup of an indirect element goes
into is its own base.  Whatever the memory holds, the address of a group that is visited does not
leave the address space, and neither does that of a control word if those before it were read; every
call comes to its end, after going on no further than as many groups as fit in the mapped bytes; and
the walk gives at most fifteen elements for each of those before it gives a fault or the end. -/
theorem groupWalk_ends {image : Image} {container : Object} {walk : GroupWalk}
    (start : GroupWalk.start image container = .ok walk) {layout : ControlLayout}
    (dense : DenseGroups image.types walk.table.groupType layout)
    (acyclic : image.types.IsIndirect walk.table.elementType →
      TypeTable.AcyclicBelow image.types.HasBase walk.table.elementType) :
    (∀ group, walk.Visits image group →
      walk.table.groupAddress group < addressSpace ∧
      ∀ array, image.field ⟨walk.table.groupAddress group, walk.table.groupType⟩ "m" = .ok array →
        array.address < addressSpace ∧
        ∀ i word, image.index array i = .ok word →
          (∀ j < i, ∃ before value, image.index array j = .ok before ∧
            image.readIntegral before = .ok value) →
          word.address < addressSpace) ∧
    (∀ n, entryAt (GroupWalk.call image) walk n ≠ .fault .endless ∧
      ∃ group count, ((afterCalls (GroupWalk.call image) walk n).next image).events =
          (List.range' (group + 1) count).map .groupSkipped ∧
        group + count ≤ image.memory.length / 16) ∧
    EndsWithin (GroupWalk.call image) walk (15 * (image.memory.length / 16)) := by
  have read := (GroupWalk.of_start start).1
  have sized := GroupTable.size_of_read dense read
  have reached := GroupWalk.entryAt_ne_endless start dense acyclic
  refine ⟨fun group visits => ?_, fun n => ⟨reached n, ?_⟩, ?_⟩
  · have addressed := GroupTable.groupAddress_lt dense sized (visits.readable start)
      (GroupTable.groups_lt_of_read read)
    refine ⟨addressed, fun array harray => ?_⟩
    obtain rfl := Except.ok.inj ((dense.field_eq _).symm.trans harray)
    refine ⟨addressed, fun i word hword before => ?_⟩
    exact dense.wordAddress_lt addressed hword before
  · obtain ⟨group, count, events_eq, readable⟩ := GroupWalk.passes_next start n
    exact ⟨group, count, events_eq, GroupTable.groups_le dense sized readable⟩
  · refine .of_bounded GroupWalk.call_of_no_item reached fun n element given => ?_
    obtain ⟨group, within, readable⟩ := GroupWalk.lt_of_item start given
    have fits := GroupTable.groups_le dense sized readable
    omega

/-- The cut-off table with elements of eight bytes, whose type says that they are indirect and has
these fields. -/
def indirectTable (fields : List Field) : Image where
  order := .little
  memory :=
    { segments :=
        [⟨0x10, #[0, 1, 0, 0, 0, 0, 0, 0, 0, 4, 0, 0, 0, 0, 0, 0]⟩,
          ⟨0x100, #[0, 0, 0, 0, 7, 0, 0, 0, 0, 0, 0, 0, 0, 0, 0, 0]⟩,
          ⟨0x420, #[0, 5, 0, 0, 0, 0, 0, 0]⟩]
      apart := by decide
      bounded := by decide }
  types := ⟨#[some (.plain "unsigned char" 1 .unsigned),
    some (.plain "unsigned char [16]" 16 (.array 0 16)),
    some (.plain "group15" 16 (.record [⟨"m", 0, 1, false⟩])),
    some (.plain "group15 *" 8 (.pointer 2)),
    some (.plain "boost::unordered::detail::foa::element_type<int, void *>" 8 (.record fields)),
    some (.plain "element_type *" 8 (.pointer 4)),
    some (.plain "arrays" 16 (.record [⟨"groups_", 0, 3, false⟩, ⟨"elements_", 8, 5, false⟩])),
    some (.plain "table" 16 (.record [⟨"arrays", 0, 6, false⟩])),
    some (.plain "set" 16 (.record [⟨"table_", 0, 7, false⟩])),
    some (.plain "int *" 8 (.pointer 10)),
    some (.plain "int" 4 .signed)]⟩

/-- The walk through it, before its first call. -/
def indirectWalk : GroupWalk :=
  ⟨⟨⟨.regular, 15, 1, 16⟩, 0x100, 2, 0x400, 4, 8⟩, .fresh⟩

/-- Its groups consist of sixteen control bytes. -/
lemma exists_denseGroups (fields : List Field) :
    Nonempty (DenseGroups (indirectTable fields).types 2 .regular) :=
  ⟨{ array := 1, info := .plain "unsigned char [16]" 16 (.array 0 16), word := 0, array_eq := rfl,
     info_eq := rfl, kind_eq := rfl, stride_eq := rfl,
     holds := .direct (.plain rfl rfl rfl (by decide)), size_eq := rfl }⟩

theorem indirectWalk_ends :
    let image := indirectTable [⟨"p", 0, 9, false⟩]
    GroupWalk.start image ⟨0x10, 8⟩ = .ok indirectWalk ∧ indirectWalk.Visits image 1 ∧
      indirectWalk.table.groupAddress 1 < addressSpace ∧
      entryAt (GroupWalk.call image) indirectWalk 0 = .item ⟨0x500, 10⟩ ∧
      (∃ group count, ((afterCalls (GroupWalk.call image) indirectWalk 1).next image).events =
          (List.range' (group + 1) count).map .groupSkipped ∧ group + count ≤ 2) ∧
      EndsWithin (GroupWalk.call image) indirectWalk 30 := by
  intro image
  have start : GroupWalk.start image ⟨0x10, 8⟩ = .ok indirectWalk := rfl
  have visits : indirectWalk.Visits image 1 := .inr ⟨1, .inl (by decide +kernel)⟩
  have acyclic : image.types.AcyclicBases :=
    @TypeTable.acyclicBases_of_lt _ (fun _ => 0) (by decide)
  obtain ⟨dense⟩ := exists_denseGroups [⟨"p", 0, 9, false⟩]
  obtain ⟨addressed, calls, ends⟩ := groupWalk_ends start dense fun _ => acyclic.acyclicBelow _
  have capacity : image.memory.length / 16 = 2 := by decide +kernel
  rw [capacity] at calls ends
  exact ⟨start, visits, (addressed 1 visits).1, by decide +kernel, (calls 1).2, ends⟩

/-- The type of the elements is its own base and has no member `p`: the first call never ends. -/
theorem indirectWalk_does_not_answer :
    let image := indirectTable
      [⟨"boost::unordered::detail::foa::element_type<int, void *>", 0, 4, true⟩]
    GroupWalk.start image ⟨0x10, 8⟩ = .ok indirectWalk ∧
      Nonempty (DenseGroups image.types indirectWalk.table.groupType .regular) ∧
      (∀ depth, image.types.findMember "p" depth indirectWalk.table.elementType =
        .error .endless) ∧
      entryAt (GroupWalk.call image) indirectWalk 0 = .fault .endless ∧
      ∀ bound, ¬ EndsWithin (GroupWalk.call image) indirectWalk bound := by
  intro image
  have unanswered : entryAt (GroupWalk.call image) indirectWalk 0 = .fault .endless := by
    decide +kernel
  have endless : image.types.member 4 "p" = .error .endless := by decide +kernel
  exact ⟨rfl, exists_denseGroups _, TypeTable.member_eq_endless_iff.mp endless, unanswered,
    fun bound ends => ends.entryAt_ne_endless 0 unanswered⟩

end Postmortem
