import Mathlib.Data.List.Nodup
import StageTree.Group.Join

/-! What a group makes of the reports of its branches: their order, and the error that follows. -/

namespace StageTree

/-- Members sorted by a number are in its order. -/
theorem pairwise_mergeSort_key {α : Type} (key : α → Nat) (l : List α) :
    (l.mergeSort fun a b => decide (key a ≤ key b)).Pairwise fun a b => key a ≤ key b := by
  have h := @List.pairwise_mergeSort _ (fun a b : α => decide (key a ≤ key b))
    (fun a b c hab hbc => by simp only [decide_eq_true_eq] at *; omega)
    (fun a b => by simp only [Bool.or_eq_true, decide_eq_true_eq]; omega) l
  exact h.imp fun h => of_decide_eq_true h

/-- Whether an error is a failure, and not one that only observed a cancellation. -/
def RunError.isFailure (e : RunError) : Bool := !e.isCancellation

namespace Join

variable {α : Type}

/-- A group is cancelled by a failure, if it fails fast and is not cancelled yet. -/
theorem cancels_iff {failFast : Bool} {scope : Option String} {r : Report α} :
    cancels failFast scope r = true ↔
      failFast = true ∧ scope = none ∧ r.error.any RunError.isFailure = true := by
  have e : (RunError.isFailure : RunError → Bool) = fun e => !e.isCancellation := rfl
  rw [e]
  cases scope <;> simp [cancels]

/-- The reports in order are the one list that holds the same reports in the order of their numbers. -/
theorem ordered_eq {j : Join α} {reports : List (Report α)} (hp : j.reports.Perm reports)
    (hs : reports.Pairwise fun a b => a.index < b.index) : j.ordered = reports := by
  have hsorted : j.ordered.Pairwise fun a b => a.index ≤ b.index :=
    pairwise_mergeSort_key Report.index j.reports
  have hperm : j.ordered.Perm reports := (List.mergeSort_perm _ _).trans hp
  have hinj : ∀ a ∈ reports, ∀ b ∈ reports, a.index = b.index → a = b := by
    have hnodup : (reports.map Report.index).Nodup :=
      List.pairwise_map.2 (hs.imp fun h => Nat.ne_of_lt h)
    exact fun a ha b hb e => List.inj_on_of_nodup_map hnodup ha hb e
  have hreports : reports.Pairwise fun a b => a.index ≤ b.index := hs.imp fun h => Nat.le_of_lt h
  refine hperm.eq_of_pairwise ?_ hsorted hreports
  intro a b ha hb hab hba
  exact hinj a (hperm.mem_iff.1 ha) b hb (Nat.le_antisymm hab hba)

theorem foldl_firstError_from (first : Option RunError) (errors : List (Option RunError)) :
    errors.foldl firstError first = ((first.toList ++ errors.filterMap id).find? RunError.isFailure).or
      (first.toList ++ errors.filterMap id).head? := by
  induction errors generalizing first with
  | nil =>
    cases first with
    | none => rfl
    | some f => cases h : f.isFailure <;> simp [h]
  | cons error errors ih =>
    rw [List.foldl_cons, ih]
    cases first with
    | none => cases error <;> simp [firstError]
    | some f =>
      cases error with
      | none => simp [firstError]
      | some e =>
        cases hf : f.isCancellation <;> cases he : e.isCancellation <;>
          simp [firstError, RunError.isFailure, hf, he]

/-- The error of a group is its first failure, or, if there is none, its first error. -/
theorem foldl_firstError (errors : List (Option RunError)) :
    errors.foldl firstError none =
      ((errors.filterMap id).find? RunError.isFailure).or (errors.filterMap id).head? := by
  simpa using foldl_firstError_from none errors

/-- If a task of a group failed, the error of the group is that of the failure which was joined first. -/
theorem foldl_firstError_of_find? {reports : List (Report α)} {r : Report α}
    (h : reports.find? (·.error.any RunError.isFailure) = some r) :
    (reports.map Report.error).foldl firstError none = r.error := by
  have hfail := List.find?_some h
  obtain ⟨e, he, _⟩ := (Option.any_eq_true _ _).1 hfail
  have hfind : ((reports.map Report.error).filterMap id).find? RunError.isFailure = some e := by
    rw [List.find?_filterMap, List.find?_map]
    have hcomp : (fun a => Option.any RunError.isFailure (id a)) ∘ Report.error =
        fun r : Report α => r.error.any RunError.isFailure := rfl
    rw [hcomp, h, Option.map_some, Option.bind_some, he]
    rfl
  rw [foldl_firstError, hfind, he, Option.some_or]

/-- A group has no error exactly when none of its tasks has one. -/
theorem foldl_firstError_eq_none {errors : List (Option RunError)} :
    errors.foldl firstError none = none ↔ ∀ error ∈ errors, error = none := by
  rw [foldl_firstError, Option.or_eq_none_iff, List.head?_eq_none_iff, List.find?_eq_none,
    List.filterMap_eq_nil_iff]
  refine ⟨fun h => h.2, fun h => ⟨fun e he => ?_, h⟩⟩
  obtain ⟨error, hm, e'⟩ := List.mem_filterMap.1 he
  rw [h error hm] at e'
  cases e'

/-- The error of a group in which a task failed is a failure. -/
theorem isFailure_of_foldl_firstError {errors : List (Option RunError)} {e error : RunError}
    (h : errors.foldl firstError none = some e) (hm : some error ∈ errors) (hf : error.isFailure = true) :
    e.isFailure = true := by
  rw [foldl_firstError] at h
  cases hfind : (errors.filterMap id).find? RunError.isFailure with
  | none =>
    have := List.find?_eq_none.1 hfind error (List.mem_filterMap.2 ⟨_, hm, rfl⟩)
    exact absurd hf this
  | some e' =>
    rw [hfind, Option.some_or] at h
    exact Option.some.inj h ▸ List.find?_some hfind

/-- The error of a group is one of the errors of its tasks. -/
theorem mem_of_foldl_firstError {errors : List (Option RunError)} {e : RunError}
    (h : errors.foldl firstError none = some e) : some e ∈ errors := by
  rw [foldl_firstError] at h
  have hm : e ∈ errors.filterMap id := by
    cases hfind : (errors.filterMap id).find? RunError.isFailure with
    | none =>
      rw [hfind, Option.none_or] at h
      exact List.mem_of_mem_head? h
    | some e' =>
      rw [hfind, Option.some_or] at h
      exact Option.some.inj h ▸ List.mem_of_find?_eq_some hfind
  obtain ⟨e', he', rfl⟩ := List.mem_filterMap.1 hm
  exact he'

end Join

end StageTree
