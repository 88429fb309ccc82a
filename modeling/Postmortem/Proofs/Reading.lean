import Mathlib.Data.Nat.Notation
import Mathlib.Tactic.Lemma
import Postmortem.TypeTable.Query

/-!
# Readings step by step

A reading is a chain of steps, each of which may fail.  A few facts take it apart: a chain has a
result exactly if its first step has one that the rest turns into it (`bind_eq_ok`), and fails
exactly if one of its steps does (`bind_eq_error`); a list of steps has a result if each step has
one (`mapM_range_eq_ok`), and only then (`exists_of_mapM_eq_ok`, `exists_of_mapM_eq_error`).

Two readings can be compared by their results alone (`Alike`), without what prevented one; what is
put together from steps that are alike is alike.
-/

namespace Postmortem

variable {α β : Type}

lemma bind_eq_ok {x : Reading α} {f : α → Reading β} {b : β} :
    x >>= f = .ok b ↔ ∃ a, x = .ok a ∧ f a = .ok b := by
  cases x with
  | error fault => simp [bind, Except.bind]
  | ok a => simp [bind, Except.bind]

lemma bind_eq_error {x : Reading α} {f : α → Reading β} {fault : Fault} :
    x >>= f = .error fault ↔ x = .error fault ∨ ∃ a, x = .ok a ∧ f a = .error fault := by
  cases x with
  | error fault => simp [bind, Except.bind]
  | ok a => simp [bind, Except.bind]

@[simp] lemma ok_bind (a : α) (f : α → Reading β) : (.ok a >>= f : Reading β) = f a := rfl

@[simp] lemma throw_eq_error (fault : Fault) : (throw fault : Reading α) = .error fault := rfl

lemma mapM_eq_ok {f : α → Reading β} {g : α → β} {xs : List α} (h : ∀ x ∈ xs, f x = .ok (g x)) :
    xs.mapM f = .ok (xs.map g) := by
  induction xs with
  | nil => rfl
  | cons x xs ih =>
      rw [List.forall_mem_cons] at h
      rw [List.mapM_cons, h.1, ih h.2]
      rfl

lemma exists_of_mapM_eq_ok {f : α → Reading β} {xs : List α} {ys : List β}
    (h : xs.mapM f = .ok ys) : ∀ x ∈ xs, ∃ y, f x = .ok y := by
  induction xs generalizing ys with
  | nil => simp
  | cons x xs ih =>
      rw [List.mapM_cons] at h
      obtain ⟨y, first, h⟩ := bind_eq_ok.mp h
      obtain ⟨rest, later, -⟩ := bind_eq_ok.mp h
      exact List.forall_mem_cons.mpr ⟨⟨y, first⟩, ih later⟩

lemma exists_of_mapM_eq_error {f : α → Reading β} {xs : List α} {fault : Fault}
    (h : xs.mapM f = .error fault) : ∃ x ∈ xs, f x = .error fault := by
  induction xs with
  | nil => exact absurd h nofun
  | cons x xs ih =>
      rw [List.mapM_cons] at h
      rcases bind_eq_error.mp h with first | ⟨y, -, h⟩
      · exact ⟨x, List.mem_cons_self, first⟩
      · rcases bind_eq_error.mp h with later | ⟨rest, -, h⟩
        · obtain ⟨x', hx', failed⟩ := ih later
          exact ⟨x', List.mem_cons_of_mem _ hx', failed⟩
        · exact absurd h nofun

/-- A search through a list fails where one of its steps does. -/
lemma exists_of_findSomeM?_eq_error {f : α → Reading (Option β)} {xs : List α} {fault : Fault}
    (h : xs.findSomeM? f = .error fault) : ∃ x ∈ xs, f x = .error fault := by
  induction xs with
  | nil => exact absurd h nofun
  | cons x xs ih =>
      rw [List.findSomeM?] at h
      rcases bind_eq_error.mp h with first | ⟨found, -, h⟩
      · exact ⟨x, List.mem_cons_self, first⟩
      · cases found with
        | some b => exact absurd h nofun
        | none =>
            obtain ⟨x', hx', failed⟩ := ih h
            exact ⟨x', List.mem_cons_of_mem _ hx', failed⟩

lemma exists_mapM_eq_ok {f : α → Reading β} {xs : List α} :
    (∃ ys, xs.mapM f = .ok ys) ↔ ∀ x ∈ xs, ∃ y, f x = .ok y := by
  refine ⟨fun ⟨ys, h⟩ => exists_of_mapM_eq_ok h, fun results => ?_⟩
  cases h : xs.mapM f with
  | ok ys => exact ⟨ys, rfl⟩
  | error fault =>
      obtain ⟨x, hx, failed⟩ := exists_of_mapM_eq_error h
      obtain ⟨y, result⟩ := results x hx
      rw [failed] at result
      contradiction

lemma mapM_congr {f g : α → Reading β} {xs : List α} (h : ∀ x ∈ xs, f x = g x) :
    xs.mapM f = xs.mapM g := by
  induction xs with
  | nil => rfl
  | cons x xs ih =>
      rw [List.forall_mem_cons] at h
      rw [List.mapM_cons, List.mapM_cons, h.1, ih h.2]

lemma bind_return_eq_map (x : Reading α) (f : α → β) : (do return f (← x)) = x.map f := by
  cases x <;> rfl

lemma map_eq_ok {f : α → β} {x : Reading α} {b : β} :
    x.map f = .ok b ↔ ∃ a, x = .ok a ∧ f a = b := by
  cases x with
  | error fault => simp [Except.map]
  | ok a => simp [Except.map]

lemma exists_map_eq_ok {f : α → β} {x : Reading α} :
    (∃ b, x.map f = .ok b) ↔ ∃ a, x = .ok a := by
  simp only [map_eq_ok]
  exact ⟨fun ⟨_, a, result, _⟩ => ⟨a, result⟩, fun ⟨a, result⟩ => ⟨f a, a, result, rfl⟩⟩

lemma map_eq_error {f : α → β} {x : Reading α} {fault : Fault} :
    x.map f = .error fault ↔ x = .error fault := by
  cases x with
  | error fault => simp [Except.map]
  | ok a => simp [Except.map]

/-! ## Readings with the same result -/

/-- Two readings both have the same result, or both fail, whatever prevented each. -/
def Alike (x y : Reading α) : Prop :=
  x.toOption = y.toOption

namespace Alike

lemma iff_forall {x y : Reading α} : Alike x y ↔ ∀ a, x = .ok a ↔ y = .ok a := by
  have toOption_eq_some (z : Reading α) (a : α) : z.toOption = some a ↔ z = .ok a := by
    cases z <;> simp [Except.toOption]
  rw [Alike, Option.ext_iff]
  simp only [toOption_eq_some]

lemma bind {x y : Reading α} {f g : α → Reading β} (h : Alike x y)
    (hf : ∀ a, Alike (f a) (g a)) : Alike (x >>= f) (y >>= g) := by
  refine iff_forall.mpr fun b => ?_
  simp only [bind_eq_ok, iff_forall.mp h, iff_forall.mp (hf _)]

lemma map {x y : Reading α} (f : α → β) (h : Alike x y) : Alike (x.map f) (y.map f) := by
  refine iff_forall.mpr fun b => ?_
  simp only [map_eq_ok, iff_forall.mp h]

lemma mapM {f g : α → Reading β} {xs : List α} (h : ∀ x ∈ xs, Alike (f x) (g x)) :
    Alike (xs.mapM f) (xs.mapM g) := by
  induction xs with
  | nil => rfl
  | cons x xs ih =>
      rw [List.forall_mem_cons] at h
      rw [List.mapM_cons, List.mapM_cons]
      exact .bind h.1 fun _ => .bind (ih h.2) fun _ => rfl

end Alike

/-- Steps numbered in order give the list of their results. -/
lemma mapM_range_eq_ok {f : ℕ → Reading β} {ys : List β}
    (h : ∀ i, ∀ hi : i < ys.length, f i = .ok ys[i]) :
    (List.range ys.length).mapM f = .ok ys := by
  cases hys : ys with
  | nil => rfl
  | cons y rest =>
      rw [← hys]
      have at_index {i : ℕ} (hi : i < ys.length) : ys[i]?.getD y = ys[i] := by
        rw [List.getElem?_eq_getElem hi, Option.getD_some]
      have hmap : (List.range ys.length).map (fun i => ys[i]?.getD y) = ys := by
        refine List.ext_getElem (by simp) fun i _ hi => ?_
        rw [List.getElem_map, List.getElem_range, at_index hi]
      have hsteps : (List.range ys.length).mapM f =
          .ok ((List.range ys.length).map fun i => ys[i]?.getD y) := by
        refine mapM_eq_ok fun i hi => ?_
        rw [h i (List.mem_range.mp hi), at_index (List.mem_range.mp hi)]
      rwa [hmap] at hsteps

end Postmortem
