import Postmortem.Proofs.Image.Mapped
import Postmortem.Proofs.TypeTable.Flattening

/-!
# Lookups that come to an end

A lookup goes into the bases of a record, and into theirs, until it finds something or has seen them
all.  Nothing else can keep it from its end than a type that is its own base.  `findMember` is told
how deep to go; what it says when that is not deep enough is said only of lookups that no depth is
enough for.

* `findMember_of_le` — a search that comes to its end finds the same if it may go deeper.
* `SettlesAt` — a search needs exactly so many levels of bases; `exists_base_of_settlesAt`, it
  follows one base to where one level less is needed.
* **`member_eq_endless_iff`** — a lookup gives up exactly if a search of any depth does.
* **`member_ne_endless`** — it does not if no type below is its own base.
-/

namespace Postmortem

/-! ## Searches through a list -/

section Steps

variable {α β : Type} {f g : α → Reading (Option β)} {xs : List α}

/-- Steps that come to an end may be put in the place of others. -/
lemma findSomeM?_eq_of_settled (same : ∀ x ∈ xs, f x ≠ .error .endless → g x = f x)
    (settled : xs.findSomeM? f ≠ .error .endless) : xs.findSomeM? g = xs.findSomeM? f := by
  induction xs with
  | nil => rfl
  | cons x xs ih =>
      rw [List.forall_mem_cons] at same
      rw [List.findSomeM?] at settled ⊢
      rw [List.findSomeM?]
      have first : f x ≠ .error .endless := fun endless => settled (by rw [endless]; rfl)
      rw [same.1 first]
      cases found : f x with
      | error fault => rfl
      | ok result =>
          rw [found] at settled
          cases result with
          | some b => rfl
          | none => exact ih same.2 settled

/-- If a search ends only with other steps, then so does one of its steps. -/
lemma exists_of_findSomeM?_settled (same : ∀ x ∈ xs, f x ≠ .error .endless → g x = f x)
    (endless : xs.findSomeM? f = .error .endless) (settled : xs.findSomeM? g ≠ .error .endless) :
    ∃ x ∈ xs, f x = .error .endless ∧ g x ≠ .error .endless := by
  induction xs with
  | nil => contradiction
  | cons x xs ih =>
      rw [List.forall_mem_cons] at same
      rw [List.findSomeM?] at endless settled
      by_cases first : f x = .error .endless
      · exact ⟨x, List.mem_cons_self, first, fun endless => settled (by rw [endless]; rfl)⟩
      · rw [same.1 first] at settled
        cases found : f x with
        | error fault =>
            rw [found] at endless settled
            exact absurd endless settled
        | ok result =>
            rw [found] at endless settled
            cases result with
            | some b => contradiction
            | none =>
                obtain ⟨y, mem, here⟩ := ih same.2 endless settled
                exact ⟨y, List.mem_cons_of_mem _ mem, here⟩

end Steps

namespace TypeTable

variable {types : TypeTable} {name : String} {depth : ℕ} {id : TypeId}

/-! ## Searches of different depth -/

lemma findMember_succ_of_record {info : TypeInfo} {fields : List Field}
    (found : types.get? id = some info) (record : info.kind = .record fields)
    (unnamed : fields.find? (fun f => !f.isBase && f.name == name) = none) :
    types.findMember name (depth + 1) id =
      (fields.filter fun f => f.isBase).findSomeM? fun base =>
        (types.findMember name depth base.type).map fun place => place.map (·.within base) := by
  rw [findMember, info_of_get? found, ok_bind]
  simp only [record, unnamed, bind_return_eq_map]

/-- A search goes into bases, or comes to its end where it is. -/
lemma findMember_succ_cases (types : TypeTable) (name : String) (id : TypeId) :
    (∃ result, result ≠ .error .endless ∧ ∀ depth, types.findMember name (depth + 1) id = result) ∨
    ∃ bases : List Field, (∀ base ∈ bases, types.HasBase id base.type) ∧ ∀ depth,
      types.findMember name (depth + 1) id = bases.findSomeM? fun base =>
        (types.findMember name depth base.type).map fun place => place.map (·.within base) := by
  cases found : types.get? id with
  | none =>
      refine .inl ⟨.error (.unknownType id), by simp, fun depth => ?_⟩
      rw [findMember, info, found]
      rfl
  | some info =>
      cases kind : info.kind with
      | record fields =>
          cases named : fields.find? fun f => !f.isBase && f.name == name with
          | some f =>
              refine .inl ⟨.ok (some f.place), by simp, fun depth => ?_⟩
              rw [findMember, info_of_get? found, ok_bind]
              simp only [kind, named]
              rfl
          | none =>
              refine .inr ⟨_, fun base hbase => ?_,
                fun depth => findMember_succ_of_record found kind named⟩
              obtain ⟨mem, isBase⟩ := List.mem_filter.mp hbase
              exact ⟨info, fields, base, found, kind, mem, isBase, rfl⟩
      | _ =>
          refine .inl ⟨.ok none, by simp, fun depth => ?_⟩
          rw [findMember, info_of_get? found, ok_bind]
          simp only [kind]
          rfl

/-- **A search that comes to its end finds the same if it may go deeper.** -/
lemma findMember_succ (settled : types.findMember name depth id ≠ .error .endless) :
    types.findMember name (depth + 1) id = types.findMember name depth id := by
  induction depth generalizing id with
  | zero => exact absurd rfl settled
  | succ depth ih =>
      rcases types.findMember_succ_cases name id with ⟨result, -, same⟩ | ⟨bases, -, through⟩
      · rw [same, same]
      · rw [through] at settled ⊢
        rw [through]
        refine findSomeM?_eq_of_settled (fun base _ ended => ?_) settled
        rw [ih fun endless => ended (map_eq_error.mpr endless)]

lemma findMember_of_le {depth' : ℕ} (le : depth ≤ depth')
    (settled : types.findMember name depth id ≠ .error .endless) :
    types.findMember name depth' id = types.findMember name depth id := by
  induction le with
  | refl => rfl
  | step _ ih => rw [findMember_succ (ih ▸ settled), ih]

/-! ## How deep a search goes -/

/-- A search needs exactly so many levels below the first. -/
def SettlesAt (types : TypeTable) (name : String) (depth : ℕ) (id : TypeId) : Prop :=
  types.findMember name depth id = .error .endless ∧
    types.findMember name (depth + 1) id ≠ .error .endless

lemma SettlesAt.unique {depth' : ℕ} (settles : types.SettlesAt name depth id)
    (settles' : types.SettlesAt name depth' id) : depth = depth' := by
  have le {d d' : ℕ} (here : types.SettlesAt name d id) (there : types.SettlesAt name d' id) :
      d' ≤ d := by
    by_contra deeper
    refine here.2 ?_
    rw [← findMember_of_le (Nat.lt_of_not_le deeper) here.2]
    exact there.1
  exact Nat.le_antisymm (le settles' settles) (le settles settles')

/-- A search that comes to its end needs some number of levels. -/
lemma exists_settlesAt (settled : types.findMember name depth id ≠ .error .endless) :
    ∃ depth' < depth, types.SettlesAt name depth' id := by
  induction depth with
  | zero => exact absurd rfl settled
  | succ depth ih =>
      by_cases endless : types.findMember name depth id = .error .endless
      · exact ⟨depth, Nat.lt_succ_self _, endless, settled⟩
      · obtain ⟨depth', lt, settles⟩ := ih endless
        exact ⟨depth', Nat.lt_succ_of_lt lt, settles⟩

/-- **A search that needs levels follows a base that needs one less.** -/
lemma exists_base_of_settlesAt (settles : types.SettlesAt name (depth + 1) id) :
    ∃ base, types.HasBase id base ∧ types.SettlesAt name depth base := by
  obtain ⟨endless, settled⟩ := settles
  rcases types.findMember_succ_cases name id with ⟨result, ended, same⟩ | ⟨bases, lead, through⟩
  · exact absurd ((same depth).symm.trans endless) ended
  · rw [through] at endless settled
    obtain ⟨base, mem, here, there⟩ : ∃ base ∈ bases, _ :=
      exists_of_findSomeM?_settled (fun base _ ended => by
        rw [findMember_succ fun endless => ended (map_eq_error.mpr endless)]) endless settled
    exact ⟨base.type, lead base mem, map_eq_error.mp here,
      fun endless => there (map_eq_error.mpr endless)⟩

/-- A search that needs levels goes on to one that needs fewer. -/
def SearchedAfter (types : TypeTable) (name : String) (id next : TypeId) : Prop :=
  ∃ depth, types.SettlesAt name (depth + 1) id ∧ types.SettlesAt name depth next

/-- No search goes on to itself, since fewer levels are needed at every step. -/
lemma not_transGen_searchedAfter (id : TypeId) :
    ¬ Relation.TransGen (types.SearchedAfter name) id id := by
  have falls {id next : TypeId} (path : Relation.TransGen (types.SearchedAfter name) id next) :
      ∃ depth depth', depth' < depth ∧ types.SettlesAt name depth id ∧
        types.SettlesAt name depth' next := by
    induction path with
    | single step =>
        obtain ⟨depth, here, there⟩ := step
        exact ⟨depth + 1, depth, Nat.lt_succ_self _, here, there⟩
    | tail _ step ih =>
        obtain ⟨depth, depth', lt, here, between⟩ := ih
        obtain ⟨lower, between', there⟩ := step
        obtain rfl := between.unique between'
        exact ⟨depth, lower, Nat.lt_of_succ_lt lt, here, there⟩
  intro cycle
  obtain ⟨depth, depth', lt, here, there⟩ := falls cycle
  exact Nat.ne_of_gt lt (here.unique there)

/-- **A search needs no more levels than there are types.**  The types that it goes through are
different, since they need different numbers of levels. -/
lemma SettlesAt.le_size (settles : types.SettlesAt name depth id) : depth ≤ types.size := by
  suffices depth ≤ (types.reached (types.SearchedAfter name) id).card from
    this.trans (card_reached_le _ _ _)
  induction depth generalizing id with
  | zero => exact Nat.zero_le _
  | succ depth ih =>
      obtain ⟨base, lead, there⟩ := exists_base_of_settlesAt settles
      have step : types.SearchedAfter name id base := ⟨depth, settles, there⟩
      have fewer := card_reached_lt (not_transGen_searchedAfter id) lead.lt_size step
      have := ih there
      omega

lemma member_eq_endless_iff_findMember : types.member id name = .error .endless ↔
    types.findMember name (types.size + 1) id = .error .endless := by
  rw [member]
  cases found : types.findMember name (types.size + 1) id with
  | error fault => simp [bind, Except.bind]
  | ok place =>
      refine iff_of_false (fun failed => ?_) (by simp)
      cases place with
      | some place => contradiction
      | none =>
          rw [ok_bind, bind_eq_error] at failed
          rcases failed with unnamed | ⟨type, -, failed⟩
          · rcases bind_eq_error.mp unnamed with missing | ⟨info, -, failed⟩
            · exact Image.info_ne_endless missing
            · contradiction
          · simp at failed

/-- **A lookup gives up exactly if no depth is enough for it.** -/
theorem member_eq_endless_iff : types.member id name = .error .endless ↔
    ∀ depth, types.findMember name depth id = .error .endless := by
  rw [member_eq_endless_iff_findMember]
  refine ⟨fun endless depth => ?_, fun endless => endless _⟩
  by_contra settled
  obtain ⟨needed, -, settles⟩ := exists_settlesAt settled
  refine settles.2 ?_
  rw [← findMember_of_le (Nat.succ_le_succ settles.le_size) settles.2]
  exact endless

/-! ## Types without cycles -/

lemma findMember_ne_endless (acyclic : AcyclicBelow types.HasBase id)
    (deep : (types.reached types.HasBase id).card < depth) :
    types.findMember name depth id ≠ .error .endless := by
  induction depth generalizing id with
  | zero => exact absurd deep (Nat.not_lt_zero _)
  | succ depth ih =>
      rcases types.findMember_succ_cases name id with ⟨result, ended, same⟩ | ⟨bases, lead, through⟩
      · rwa [same]
      · rw [through]
        intro endless
        obtain ⟨base, mem, failed⟩ := exists_of_findSomeM?_eq_error endless
        have step := lead base mem
        have fewer := acyclic.card_reached_lt step.lt_size step
        exact ih (acyclic.of_step step) (by omega) (map_eq_error.mp failed)

/-- **A lookup comes to its end if no type that it can go into is its own base.** -/
lemma member_ne_endless (acyclic : AcyclicBelow types.HasBase id) :
    types.member id name ≠ .error .endless :=
  mt member_eq_endless_iff_findMember.mp
    (findMember_ne_endless acyclic (Nat.lt_succ_of_le (card_reached_le _ _ _)))

end TypeTable

end Postmortem
