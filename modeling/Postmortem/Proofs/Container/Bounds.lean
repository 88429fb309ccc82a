import Mathlib.Data.Finset.Card
import Mathlib.Data.Finset.Prod
import Mathlib.Order.Interval.Finset.Nat
import Postmortem.Proofs.Bucket.BrokenChains
import Postmortem.Proofs.Container.Pairs
import Postmortem.Proofs.Group.Termination

/-!
# A traversal that ends gives no more elements than its bound says

Whether a traversal ends cannot be seen from any number of its elements, but how long it can be if it
does end can be seen from the image.  Calls are determined by the state they are made in.  So in a
run that goes well up to some call and then does not, no state is like an earlier one: from there it
would have gone on as before.  What is left is to count the states.

* `not_alike_of_stops`, **`le_card_of_stops`** — the argument, for any traversal.
* `Whole` — an entry that is an element with both halves, which is what going well means here.
* **`BucketWalk.length_le`** — a state between two nodes is the number of buckets opened and a link
  that can be read.
* **`GroupWalk.length_le`** — every slot lies in a group that can be read, and all of those have
  different addresses.  The exception are groups without size.  They are all the same group, and what
  tells the states apart is the offset in it, or else the address of an indirect element.
* **`lt_bound_of_item`** — what follows for the children of a container.
-/

namespace Postmortem

/-! ## Runs that come to an end -/

section Runs

variable {σ α γ : Type} {next : σ → Entry α × σ} {s : σ} {Good : σ → Prop} {Alike : σ → σ → Prop}
  {count : ℕ}
  (keeps : ∀ t u, Alike t u → Good t → Good u ∧ Alike (next t).2 (next u).2)
  (good : ∀ i < count, Good (afterCalls next s i)) (stops : ¬ Good (afterCalls next s count))
include keeps good stops

/-- **In a run that stops going well no state is like an earlier one.** -/
lemma not_alike_of_stops {i j : ℕ} (before : i < j) (within : j ≤ count) :
    ¬ Alike (afterCalls next s i) (afterCalls next s j) := by
  intro alike
  obtain ⟨rest, rfl⟩ := Nat.exists_eq_add_of_le within
  have later : ∀ m ≤ rest, Alike (afterCalls next s (i + m)) (afterCalls next s (j + m)) := by
    intro m hm
    induction m with
    | zero => exact alike
    | succ m ih =>
        rw [← Nat.add_assoc, ← Nat.add_assoc, afterCalls_succ, afterCalls_succ]
        exact (keeps _ _ (ih (by omega)) (good (i + m) (by omega))).2
  exact stops (keeps _ _ (later rest (Nat.le_refl _)) (good (i + rest) (by omega))).1

/-- **Such a run is no longer than there are states**, counted by something that tells them apart. -/
lemma le_card_of_stops {states : Finset γ} (code : σ → γ) {n : ℕ} (within : n ≤ count)
    (inside : ∀ i < n, code (afterCalls next s (i + 1)) ∈ states)
    (tells : ∀ i < n, ∀ j < n,
      code (afterCalls next s (i + 1)) = code (afterCalls next s (j + 1)) →
      Alike (afterCalls next s (i + 1)) (afterCalls next s (j + 1))) : n ≤ states.card := by
  have differ {i j : ℕ} (hij : i < j) (hj : j < n)
      (same : code (afterCalls next s (i + 1)) = code (afterCalls next s (j + 1))) : False :=
    not_alike_of_stops keeps good stops (Nat.succ_lt_succ hij) (by omega)
      (tells i (by omega) j hj same)
  have injective : Set.InjOn (fun i => code (afterCalls next s (i + 1))) (Finset.range n) := by
    intro i hi j hj same
    rw [Finset.mem_coe, Finset.mem_range] at hi hj
    rcases Nat.lt_trichotomy i j with lt | eq | gt
    · exact (differ lt hj same).elim
    · exact eq
    · exact (differ gt hi same.symm).elim
  have bounded := Finset.card_le_card_of_injOn _
    (fun i hi => inside i (Finset.mem_range.mp hi)) injective
  rwa [Finset.card_range] at bounded

end Runs

variable {image : Image} {kind : Kind} {count : ℕ}

namespace Children

/-- An element that has both halves. -/
def Whole (image : Image) (kind : Kind) (entry : Entry Object) : Prop :=
  ∃ element, entry = .item element ∧ ∀ fault, ¬ NoPair image element kind fault

/-- Whether an element has both halves is a question to its type. -/
lemma NoPair.of_type {element other : Object} {fault : Fault} (same : other.type = element.type)
    (lacks : NoPair image element kind fault) : NoPair image other kind fault := by
  have failed {name : String} (h : image.field element name = .error fault) :
      image.field other name = .error fault := by
    rcases bind_eq_error.mp h with h | ⟨place, -, h⟩
    · exact bind_eq_error.mpr (.inl (same ▸ h))
    · contradiction
  cases lacks with
  | first key => exact .first (failed key)
  | second key value =>
      obtain ⟨place, hplace, -⟩ := Image.field_eq_ok.mp key
      exact .second (Image.field_eq_ok.mpr ⟨place, same ▸ hplace, rfl⟩) (failed value)

end Children

open Children

/-! ## Buckets -/

lemma TypeTable.lt_size_of_info {types : TypeTable} {id : TypeId} {info : TypeInfo}
    (h : types.info id = .ok info) : id < types.size := by
  rw [TypeTable.info] at h
  split at h
  · next found => exact lt_size_of_get? found
  · contradiction

namespace BucketWalk

/-- **What a round can do.**  It ends the walk; or it gives the value of a node and goes on to
another link; or it opens a bucket. -/
lemma round_cases (w : BucketWalk) (image : Image) :
    (∃ entry, (∀ element, entry ≠ .item element) ∧ w.round image = w.finish entry) ∨
    (∃ link element next, w.stage = .following link ∧
      w.round image = .settled (.item element) { w with stage := .following next }) ∨
    ∃ link, w.opened < w.table.count ∧
      w.round image = .onward { w with opened := w.opened + 1, stage := .following link } := by
  rw [round]
  cases pending : w.pendingNode image with
  | error fault => exact .inl ⟨.fault fault, by simp, rfl⟩
  | ok found =>
      cases found with
      | none =>
          dsimp only
          rw [openBucket]
          split
          · next inside =>
            cases image.field (w.table.bucket w.opened) "next" with
            | error fault => exact .inl ⟨.fault fault, by simp, rfl⟩
            | ok link => exact .inr (.inr ⟨link, inside, rfl⟩)
          · exact .inl ⟨.done, by simp, rfl⟩
      | some node =>
          dsimp only
          rw [visit]
          cases image.field node "next" with
          | error fault => exact .inl ⟨.fault fault, by simp, rfl⟩
          | ok next =>
              dsimp only
              cases nodeValue image node with
              | error fault => exact .inl ⟨.fault fault, by simp, rfl⟩
              | ok element =>
                  cases stage : w.stage with
                  | following link => exact .inr (.inl ⟨link, element, next, rfl, rfl⟩)
                  | between | ended =>
                      rw [pendingNode, stage] at pending
                      cases pending

/-- The walk goes through this table, and follows a link only once it has opened a bucket. -/
structure InTable (table : BucketTable) (w : BucketWalk) : Prop where
  table_eq : w.table = table
  opened_le : w.opened ≤ table.count
  opened_pos : ∀ link, w.stage = .following link → 0 < w.opened

variable {table : BucketTable} {w : BucketWalk}

lemma inTable_of_settled (inTable : w.InTable table) {entry : Entry Object} {after : BucketWalk}
    (step : w.round image = .settled entry after) :
    after.InTable table ∧
      ∀ element, entry = .item element → ∃ link, after.stage = .following link := by
  rcases round_cases w image with ⟨entry', noItem, hround⟩ | ⟨link, element, next, stage, hround⟩ |
    ⟨link, -, hround⟩
  · obtain ⟨rfl, rfl⟩ := Round.settled.inj (step.symm.trans hround)
    exact ⟨⟨inTable.table_eq, inTable.opened_le, nofun⟩,
      fun element given => absurd given (noItem element)⟩
  · obtain ⟨rfl, rfl⟩ := Round.settled.inj (step.symm.trans hround)
    exact ⟨⟨inTable.table_eq, inTable.opened_le, fun _ _ => inTable.opened_pos link stage⟩,
      fun _ _ => ⟨next, rfl⟩⟩
  · cases step.symm.trans hround

lemma inTable_of_onward (inTable : w.InTable table) {after : BucketWalk}
    (step : w.round image = .onward after) : after.InTable table := by
  rcases round_cases w image with ⟨_, -, hround⟩ | ⟨_, _, _, -, hround⟩ | ⟨link, inside, hround⟩
  · cases step.symm.trans hround
  · cases step.symm.trans hround
  · obtain rfl := Round.onward.inj (step.symm.trans hround)
    obtain ⟨same, -, -⟩ := inTable
    exact ⟨same, same ▸ inside, fun _ _ => Nat.succ_pos _⟩

lemma inTable_advance (inTable : w.InTable table) :
    (w.advance image).2.InTable table ∧ ∀ element, (w.advance image).1 = .item element →
      ∃ link, (w.advance image).2.stage = .following link := by
  fun_induction advance w image with
  | case1 w entry after step => exact inTable_of_settled inTable step
  | case2 w after step ih => exact ih (inTable_of_onward inTable step)

/-- **A call stays in the table**, and goes on from a link after it has given an element. -/
lemma inTable_next (inTable : w.InTable table) :
    (w.next image).2.InTable table ∧ ∀ element, (w.next image).1 = .item element →
      ∃ link, (w.next image).2.stage = .following link := by
  rw [next]
  split
  · exact ⟨inTable, nofun⟩
  · exact inTable_advance inTable
  · exact inTable_advance inTable

lemma inTable_afterCalls (table : BucketTable) (image : Image) (n : ℕ) :
    (afterCalls (·.next image) (ofTable table) n).InTable table := by
  induction n with
  | zero => exact ⟨rfl, Nat.zero_le _, nofun⟩
  | succ n ih =>
      rw [afterCalls_succ]
      exact (inTable_next ih).1

/-- The states of a walk between two of its nodes. -/
def betweenNodes (table : BucketTable) (image : Image) : Finset BucketWalk :=
  (Finset.Icc 1 table.count ×ˢ Finset.range image.memory.limit ×ˢ
    Finset.range image.types.size).image fun p => ⟨table, p.1, .following ⟨p.2.1, p.2.2⟩⟩

lemma card_betweenNodes_le (table : BucketTable) (image : Image) :
    (betweenNodes table image).card ≤
      table.count * (image.memory.limit * image.types.size) := by
  refine Finset.card_image_le.trans (Nat.le_of_eq ?_)
  rw [Finset.card_product, Finset.card_product, Nat.card_Icc, Finset.card_range, Finset.card_range,
    Nat.add_sub_cancel]

/-- A walk that follows a link and gives an element has a link that can be read. -/
lemma mem_betweenNodes (inTable : w.InTable table) {link : Object}
    (stage : w.stage = .following link) {element : Object}
    (given : (w.next image).1 = .item element) : w ∈ betweenNodes table image := by
  obtain ⟨_, opened, _⟩ := w
  obtain ⟨rfl, le, pos⟩ := inTable
  obtain rfl := stage
  cases read : image.readAddress link with
  | error fault =>
      rw [next_of_unreadable read] at given
      contradiction
  | ok address =>
      obtain ⟨word, hword, -⟩ := Image.exists_word_of_readAddress read
      obtain ⟨info, hinfo, -⟩ := bind_eq_ok.mp read
      refine Finset.mem_image.mpr ⟨⟨opened, link.address, link.type⟩, ?_, rfl⟩
      rw [Finset.mem_product, Finset.mem_product, Finset.mem_Icc, Finset.mem_range,
        Finset.mem_range]
      exact ⟨⟨pos link rfl, le⟩, Image.address_lt_limit_of_readUnsigned hword,
        TypeTable.lt_size_of_info hinfo⟩

/-- **A bucket walk that ends has a bound**, in buckets, addresses and types. -/
lemma length_le (whole : ∀ i < count, Whole image kind (entryAt (·.next image) (ofTable table) i))
    (stops : ¬ Whole image kind (entryAt (·.next image) (ofTable table) count)) :
    count ≤ table.count * (image.memory.limit * image.types.size + 1) := by
  cases count with
  | zero => exact Nat.zero_le _
  | succ n =>
      -- after each element but the last there is a link that can be read
      have stage (i : ℕ) (hi : i < n + 1) :
          ∃ link, (afterCalls (·.next image) (ofTable table) (i + 1)).stage = .following link := by
        obtain ⟨element, given, -⟩ := whole i hi
        rw [afterCalls_succ]
        exact (inTable_next (inTable_afterCalls table image i)).2 element given
      have inside : ∀ i < n, afterCalls (·.next image) (ofTable table) (i + 1) ∈
          betweenNodes table image := by
        intro i hi
        obtain ⟨link, hlink⟩ := stage i (by omega)
        obtain ⟨element, given, -⟩ := whole (i + 1) (by omega)
        exact mem_betweenNodes (inTable_afterCalls table image (i + 1)) hlink given
      have bounded : n ≤ (betweenNodes table image).card :=
        @le_card_of_stops _ _ _ (·.next image) (ofTable table)
          (fun w => Whole image kind (w.next image).1) Eq (n + 1)
          (fun t u same good => same ▸ ⟨good, rfl⟩) whole stops _ id n (Nat.le_succ n) inside
          fun i _ j _ same => same
      have opened : 1 ≤ table.count := by
        obtain ⟨link, hlink⟩ := stage 0 (Nat.succ_pos n)
        have ⟨_, le, pos⟩ := inTable_afterCalls table image 1
        exact (pos link hlink).trans_le le
      have := bounded.trans (card_betweenNodes_le table image)
      rw [Nat.mul_succ]
      omega

end BucketWalk

/-! ## Groups -/

namespace GroupTable

variable {t : GroupTable}

lemma slots_pos_of_read {container : Object} (read : GroupTable.read image container = .ok t) :
    0 < t.shape.slots := by
  obtain ⟨shape, -⟩ := of_read read
  simp only [GroupShape.read, bind_eq_ok] at shape
  obtain ⟨_, -, slots, hslots, _, -, _, -, shape⟩ := shape
  rw [← Except.ok.inj shape]
  exact (GroupShape.slots_of_slotsOf hslots).1

/-- **What an indirect element can tell of its slot.**  That it could be followed depends on its type
only, unless elements have a size; and then it lies below the last mapped byte. -/
lemma payload_cases {slot : Slot} {element : Object} (followed : t.payload image slot = .ok element) :
    (∀ other, ∃ element', t.payload image other = .ok element' ∧ element'.type = element.type) ∨
      0 < t.elementSize ∧ (t.element slot).address < image.memory.limit := by
  obtain ⟨name, hname, h⟩ := bind_eq_ok.mp followed
  split at h
  · obtain ⟨p, held, h⟩ := bind_eq_ok.mp h
    obtain ⟨info, -, h⟩ := bind_eq_ok.mp h
    rcases Nat.eq_zero_or_pos t.elementSize with unsized | sized
    · refine .inl fun other => ⟨element, ?_, rfl⟩
      have same : t.element other = t.element slot := by
        rw [GroupTable.element, GroupTable.element, unsized, Nat.mul_zero, Nat.mul_zero]
      rw [payload, same]
      exact followed
    · split at h
      · obtain ⟨address, read, -⟩ := bind_eq_ok.mp h
        obtain ⟨word, hword, -⟩ := Image.exists_word_of_readAddress read
        have below := Image.address_lt_limit_of_readUnsigned hword
        exact .inr ⟨sized, (Image.address_le_of_field held).trans_lt below⟩
      · contradiction
  · next direct =>
    obtain rfl := Except.ok.inj h
    refine .inl fun other => ⟨t.element other, ?_, rfl⟩
    have named : image.typeName (t.element other) = .ok name := hname
    rw [payload, Image.elementPayload, named, ok_bind, if_neg direct]
    rfl

/-- Which offset of a group a search rests on does not depend on the number of the group. -/
lemma landing?_of_slot {g : ℕ} {control : List Word} {mask : Mask} {next : Slot}
    (h : t.landing? g control mask = some (.slot next)) (g' : ℕ) :
    t.landing? g' control mask = some (.slot ⟨g', next.offset⟩) := by
  rw [landing?_eq, Option.map_eq_some_iff] at h
  obtain ⟨i, hi, landed⟩ := h
  obtain ⟨rfl, hends⟩ := slot_of_landing landed
  rw [landing?_eq, hi, Option.map_some, landing, hends]
  rfl

lemma landing?_of_none {g : ℕ} {control : List Word} {mask : Mask}
    (h : t.landing? g control mask = none) (g' : ℕ) : t.landing? g' control mask = none := by
  rw [landing?_eq, Option.map_eq_none_iff] at h ⊢
  exact h

section Unsized

variable (unsized : ¬ 0 < t.shape.size) {g : ℕ} {next : Slot}
include unsized

lemma searchFrom_of_unsized (found : (t.searchFrom image g).value = .slot next) (g' : ℕ) :
    (t.searchFrom image g').value = .slot ⟨g', next.offset⟩ := by
  cases hcontrol : t.control image g with
  | error fault =>
      rw [searchFrom_of_unreadable hcontrol] at found
      cases found
  | ok control =>
      have hcontrol' : t.control image g' = .ok control :=
        (control_of_not_sized unsized g').trans hcontrol
      cases landed : t.landing? g control (t.marked control) with
      | some landing =>
          rw [searchFrom_of_landing hcontrol landed] at found
          obtain rfl : landing = .slot next := found
          rw [searchFrom_of_landing hcontrol' (landing?_of_slot landed g')]
          rfl
      | none =>
          rw [value_searchFrom_of_unmarked hcontrol landed,
            if_neg fun sized => unsized sized.1] at found
          cases found

/-- **In groups without size a search goes the same way from every group.** -/
lemma searchAfter_of_unsized {offset : ℕ}
    (found : (t.searchAfter image ⟨g, offset⟩).value = .slot next) (g' : ℕ) :
    ∃ next', next'.offset = next.offset ∧
      (t.searchAfter image ⟨g', offset⟩).value = .slot next' := by
  rw [searchAfter] at found ⊢
  rw [control_of_not_sized unsized g']
  cases hcontrol : t.control image g with
  | error fault =>
      rw [hcontrol] at found
      cases found
  | ok control =>
      rw [hcontrol] at found
      dsimp only at found ⊢
      cases landed : t.landing? g control ((t.marked control).after offset) with
      | some landing =>
          rw [landed] at found
          obtain rfl : landing = .slot next := found
          rw [landing?_of_slot landed g']
          exact ⟨⟨g', next.offset⟩, rfl, rfl⟩
      | none =>
          rw [landed] at found
          rw [landing?_of_none landed g']
          exact ⟨⟨g' + 1, next.offset⟩, rfl, searchFrom_of_unsized unsized found (g' + 1)⟩

end Unsized

end GroupTable

namespace GroupWalk

variable {walk : GroupWalk} {container : Object}

/-- A walk that gave an element stands on its slot. -/
lemma standing_of_item (start : GroupWalk.start image container = .ok walk) {n : ℕ}
    {element : Object} (given : entryAt (call image) walk n = .item element) :
    ∃ slot, afterCalls (call image) walk (n + 1) = ⟨walk.table, .standing slot⟩ ∧
      walk.table.payload image slot = .ok element := by
  have read := (of_start start).1
  have table := table_afterCalls read n
  rw [afterCalls_succ]
  rw [entryAt] at given
  rcases call_cases (afterCalls (call image) walk n) (table.symm ▸ read) with
    ⟨hcall, -⟩ | ⟨_, hcall⟩ | ⟨slot, element', -, payload, hcall⟩ | ⟨_, _, -, hcall⟩
  · simp [hcall] at given
  · simp [hcall] at given
  · rw [hcall] at given ⊢
    rw [table] at payload ⊢
    obtain rfl := Entry.item.inj given
    exact ⟨slot, rfl, payload⟩
  · simp [hcall] at given

/-- Two walks stand on slots of one table that are at the same place in their groups. -/
def Alike (t : GroupTable) (w w' : GroupWalk) : Prop :=
  ∃ g g' offset, w = ⟨t, .standing ⟨g, offset⟩⟩ ∧ w' = ⟨t, .standing ⟨g', offset⟩⟩

/-- **In groups without size alike walks stay alike**, if elements can be followed everywhere or
nowhere. -/
lemma alike_call {t : GroupTable} (unsized : ¬ 0 < t.shape.size) {type : TypeId}
    (uniform : ∀ slot, ∃ element, t.payload image slot = .ok element ∧ element.type = type)
    {w w' : GroupWalk} (alike : Alike t w w') (whole : Whole image kind (call image w).1) :
    Whole image kind (call image w').1 ∧ Alike t (call image w).2 (call image w').2 := by
  obtain ⟨g, g', offset, rfl, rfl⟩ := alike
  obtain ⟨element, given, complete⟩ := whole
  have answer (g : ℕ) {next : Slot}
      (found : (t.searchAfter image ⟨g, offset⟩).value = .slot next) :
      ∃ value, value.type = type ∧ call image ⟨t, .standing ⟨g, offset⟩⟩ =
        (.item value, ⟨t, .standing next⟩) := by
    obtain ⟨value, payload, typed⟩ := uniform next
    refine ⟨value, typed, ?_⟩
    rw [call_standing, found]
    exact visit_of_payload payload
  cases landed : (t.searchAfter image ⟨g, offset⟩).value with
  | sentinel group =>
      rw [call_standing, landed] at given
      cases given
  | unreadable group fault =>
      rw [call_standing, landed] at given
      cases given
  | slot next =>
      obtain ⟨next', same, landed'⟩ := GroupTable.searchAfter_of_unsized unsized landed g'
      obtain ⟨value, typed, hcall⟩ := answer g landed
      obtain ⟨value', typed', hcall'⟩ := answer g' landed'
      rw [hcall] at given
      obtain rfl := Entry.item.inj given
      rw [hcall, hcall']
      refine ⟨⟨value', rfl, fun fault lacks => complete fault ?_⟩, next.group, next'.group,
        next.offset, rfl, ?_⟩
      · exact lacks.of_type (typed.trans typed'.symm)
      · rw [← same]

/-- A run through groups without size, in which elements can be followed everywhere or nowhere, does
not come back to an offset. -/
lemma length_le_of_uniform (start : GroupWalk.start image container = .ok walk)
    (unsized : ¬ 0 < walk.table.shape.size) {type : TypeId}
    (uniform : ∀ slot, ∃ element, walk.table.payload image slot = .ok element ∧
      element.type = type)
    (whole : ∀ i < count, Whole image kind (entryAt (call image) walk i))
    (stops : ¬ Whole image kind (entryAt (call image) walk count)) : count ≤ 15 := by
  have standing (i : ℕ) (hi : i < count) : ∃ slot : Slot, slot.offset < 15 ∧
      afterCalls (call image) walk (i + 1) = ⟨walk.table, .standing slot⟩ := by
    obtain ⟨element, given, -⟩ := whole i hi
    obtain ⟨slot, stands, -⟩ := standing_of_item start given
    have advanced := advanced_afterCalls start (i + 1)
    rw [stands] at advanced
    exact ⟨slot, advanced.2.1, stands⟩
  have bounded : count ≤ (Finset.range 15).card := by
    refine @le_card_of_stops _ _ _ (call image) walk
      (fun w => Whole image kind (call image w).1) (Alike walk.table) count
      (fun t u alike good => alike_call unsized uniform alike good) whole stops _ lastOffset count
      (Nat.le_refl count) (fun i hi => ?_) fun i hi j hj same => ?_
    · obtain ⟨slot, inside, stands⟩ := standing i hi
      rw [stands]
      exact Finset.mem_range.mpr inside
    · obtain ⟨slot, -, stands⟩ := standing i hi
      obtain ⟨slot', -, stands'⟩ := standing j hj
      rw [stands, stands'] at same ⊢
      obtain ⟨g, offset⟩ := slot
      obtain ⟨g', offset'⟩ := slot'
      obtain rfl : offset = offset' := same
      exact ⟨g, g', offset, rfl, rfl⟩
  rwa [Finset.card_range] at bounded

/-- **A grouped walk that ends has a bound**, in addresses. -/
lemma length_le (start : GroupWalk.start image container = .ok walk)
    (whole : ∀ i < count, Whole image kind (entryAt (call image) walk i))
    (stops : ¬ Whole image kind (entryAt (call image) walk count)) :
    count ≤ defaultSlots * image.memory.limit := by
  show count ≤ 15 * image.memory.limit
  cases count with
  | zero => exact Nat.zero_le _
  | succ n =>
      obtain ⟨read, -⟩ := of_start start
      obtain ⟨element, given, -⟩ := whole n (Nat.lt_succ_self n)
      obtain ⟨slot, stands, followed⟩ := standing_of_item start given
      have advanced := advanced_afterCalls start (n + 1)
      rw [stands] at advanced
      obtain ⟨ahead, inside, readable⟩ := advanced
      obtain ⟨control, hcontrol⟩ := readable slot.group (Nat.le_refl _)
      have below : walk.table.groups + slot.group * walk.table.shape.size < image.memory.limit :=
        address_lt_limit_of_control hcontrol (GroupTable.control_ne_nil read hcontrol)
      by_cases sized : 0 < walk.table.shape.size
      · have group_le := Nat.le_mul_of_pos_right slot.group sized
        omega
      · rcases GroupTable.payload_cases followed with uniform | ⟨elementSized, element_lt⟩
        · have := length_le_of_uniform start sized uniform whole stops
          omega
        · have group_le := Nat.le_mul_of_pos_right slot.group (GroupTable.slots_pos_of_read read)
          have index_le := Nat.le_mul_of_pos_right (walk.table.elementIndex slot) elementSized
          simp only [GroupTable.element, GroupTable.elementIndex] at element_lt index_le
          omega

end GroupWalk

/-! ## Elements and children -/

namespace Elements

lemma entryAt_buckets (image : Image) (w : BucketWalk) (n : ℕ) :
    entryAt (call image) (.buckets w) n = entryAt (·.next image) w n :=
  entryAt_embed (fun _ => rfl) w n

lemma entryAt_groups (image : Image) (w : GroupWalk) (n : ℕ) :
    entryAt (call image) (.groups w) n = entryAt (GroupWalk.call image) w n :=
  entryAt_embed (fun _ => rfl) w n

/-- **A traversal that ends gives no more elements than its bound says.** -/
lemma length_le_bound {container : Container} {elements : Elements}
    (started : container.elements image = .ok elements)
    (whole : ∀ i < count, Whole image kind (entryAt (call image) elements i))
    (stops : ¬ Whole image kind (entryAt (call image) elements count)) :
    count ≤ elements.bound image := by
  rcases Container.elements_cases started with ⟨-, walk, start, rfl⟩ | ⟨-, walk, start, rfl⟩
  · obtain ⟨table, -, start⟩ := bind_eq_ok.mp start
    obtain rfl := Except.ok.inj start
    simp only [entryAt_buckets] at whole stops
    exact BucketWalk.length_le whole stops
  · simp only [entryAt_groups] at whole stops
    exact GroupWalk.length_le start whole stops

end Elements

namespace Children

/-- Elements make pairs as long as they are given and have both halves. -/
lemma Pairing.whole {ordinal : ℕ} {elements : Elements} {pairs : List (ChildValue × ChildValue)}
    {ending : Ending} (pairing : Pairing image kind ordinal elements pairs ending) :
    (∀ i < pairs.length, Whole image kind (entryAt (Elements.call image) elements i)) ∧
      (ending ≠ .more → ¬ Whole image kind
        (entryAt (Elements.call image) elements pairs.length)) := by
  induction pairing with
  | more => exact ⟨nofun, fun known => absurd rfl known⟩
  | done ended =>
      refine ⟨nofun, fun _ ⟨element, given, _⟩ => ?_⟩
      cases ended.symm.trans given
  | fault failed =>
      refine ⟨nofun, fun _ ⟨element, given, _⟩ => ?_⟩
      cases failed.symm.trans given
  | noPair given lacks =>
      refine ⟨nofun, fun _ ⟨element, given', complete⟩ => ?_⟩
      obtain rfl := Entry.item.inj (given'.symm.trans given)
      exact complete _ lacks
  | @pair ordinal _ element _ _ _ given made _ ih =>
      obtain ⟨whole, stops⟩ := ih
      refine ⟨fun i hi => ?_, stops⟩
      cases i with
      | zero =>
          refine ⟨element, given, fun fault lacks => ?_⟩
          cases made.halves_eq.symm.trans (@NoPair.halves_eq _ _ ordinal _ _ lacks)
      | succ i => exact whole i (Nat.lt_of_succ_lt_succ hi)

/-- **A sequence of children that ends has no more pairs than its bound says**, with a limit and
without. -/
lemma lt_bound_of_item {container : Container} {limit : Option ℕ} {children : Children}
    (begun : container.children image limit = .ok children)
    (finite : ∃ n, entryAt (call image) children n = .done) {k : ℕ} {child : Child}
    (given : entryAt (call image) children (2 * k) = .item child) : k < children.bound image := by
  obtain ⟨elements, started, begun⟩ := bind_eq_ok.mp begun
  obtain rfl := Except.ok.inj begun
  cases limit with
  | some limit =>
      have within : (asking elements container.classification.kind (some limit) 0).WithinLimit
          limit := ⟨rfl, Nat.zero_le _⟩
      have : 2 * k < 2 * limit := lt_allowance_of_item within given
      show k < limit
      omega
  | none =>
      obtain ⟨n, ended⟩ := finite
      obtain ⟨pairs, ending, pairing, reached⟩ :=
        exists_pairing image container.classification.kind 0 elements (n + 1)
      have answers := answers_of_pairing pairing
      have known : ending ≠ .more := by
        intro more
        have inside : n < (ofPairs pairs).length := by
          rw [length_ofPairs]
          have := reached more
          omega
        obtain ⟨child, given⟩ := answers.item_of_lt inside
        cases ended.symm.trans given
      have before := (answers.item_iff known).mp ⟨child, given⟩
      obtain ⟨whole, stops⟩ := pairing.whole
      have bounded := Elements.length_le_bound started whole (stops known)
      rw [length_ofPairs] at before
      show k < elements.bound image
      omega

end Children

end Postmortem
