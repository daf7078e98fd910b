import StageTree.Proofs.Activity.Coherent
import StageTree.Proofs.Group.Join
import StageTree.Proofs.Results.Insert

/-! What a stage that has ended yields: the entries that it adds to the results around it. The results
of its group are the entries of its branches, those that were cancelled apart, in the order of their
declaration, and no insert that builds them overwrites an entry. -/

namespace StageTree

/-- The value of a stage of a name: the map of its group, if it entered one, its outputs, if there are
any, or both, the outputs under its own name after the branches. -/
def StageValue.ofParts (name : String) :
    Option (List (String × StageValue)) → Option (List String) → Option StageValue
  | none, none => none
  | none, some lines => some (.outputs lines)
  | some es, none => some (.nested es)
  | some es, some lines => some (.nested (es ++ [(name, .outputs lines)]))

namespace Activity

variable {U : Type} {a : Activity U}

def value? (a : Activity U) : Option StageValue :=
  Results.contribution a.stage.name (a.fan.map Fan.results) a.lines

/-- The entries that a stage adds to the results around it: one, or none. -/
def entries (a : Activity U) : List (String × StageValue) := a.value?.toList.map fun v => (a.stage.name, v)

/-- The entries of the branches of a group that were not cancelled. -/
def kept (bs : List (Activity U)) : List (String × StageValue) :=
  (bs.filter fun b => !b.isCancelled).flatMap entries

theorem mergeInto_entries {r : Results} (h : a.stage.name ∉ r.names) :
    (a.mergeInto r).entries = r.entries ++ a.entries := by
  rw [mergeInto, Results.mergeStage, entries, value?]
  cases Results.contribution a.stage.name (a.fan.map Fan.results) a.lines with
  | none => simp
  | some v => exact Results.insert_of_notMem h

theorem mergeInto_empty_entries (a : Activity U) : (a.mergeInto .empty).entries = a.entries := by
  rw [mergeInto_entries (by simp [Results.names, Results.empty])]
  simp [Results.empty]

theorem entries_names_sublist (as : List (Activity U)) :
    ((as.flatMap entries).map Prod.fst).Sublist (as.map (·.stage.name)) := by
  induction as with
  | nil => exact List.Sublist.refl _
  | cons a as ih =>
    rw [List.flatMap_cons, List.map_append, List.map_cons]
    refine List.Sublist.trans (List.Sublist.append ?_ ih) (List.Sublist.refl ([a.stage.name] ++ _))
    rw [entries]
    cases a.value? <;> simp

theorem kept_names_sublist (bs : List (Activity U)) :
    ((kept bs).map Prod.fst).Sublist (bs.map (·.stage.name)) :=
  (entries_names_sublist _).trans (List.filter_sublist.map _)

/-- The reports of a group that has joined all its branches, in their order. -/
theorem ordered_eq {f : Fan} {bs : List (Activity U)} (h : f.Faithful bs)
    (hl : f.join.reports.length = bs.length) :
    f.join.ordered = bs.zipIdx.map fun b => b.1.report b.2 b.1.error? := by
  have hindex : (bs.zipIdx.map fun b => b.1.report b.2 b.1.error?).map Report.index =
      List.range bs.length := by
    rw [List.map_map, List.range_eq_range', ← List.zipIdx_map_snd]
    rfl
  refine Join.ordered_eq ?_ ?_
  · refine (List.perm_ext_iff_of_nodup (List.Nodup.of_map _ h.distinct)
      (List.Nodup.of_map Report.index (hindex ▸ List.nodup_range))).2 fun r => ?_
    constructor
    · intro hr
      obtain ⟨b, hb, _, e⟩ := h.report r hr
      exact List.mem_map.2 ⟨(b, r.index), List.mem_zipIdx_iff_getElem?.2 hb, e.symm⟩
    · intro hr
      obtain ⟨⟨b, i⟩, hb, rfl⟩ := List.mem_map.1 hr
      exact (h.mem_of_length hl (List.mem_zipIdx_iff_getElem?.1 hb)).2
  · exact List.pairwise_map.1 (hindex ▸ List.pairwise_lt_range)

/-- The numbers of the reports do not matter for what they contribute. -/
theorem values_zipIdx (bs : List (Activity U)) (i : Nat) :
    ((((bs.zipIdx i).map fun b => b.1.report b.2 b.1.error?).filter
      fun r => !r.error.any RunError.isCancellation).filterMap Report.value) =
      (bs.filter fun b => !b.isCancelled).map fun b => b.mergeInto .empty := by
  induction bs generalizing i with
  | nil => rfl
  | cons b bs ih =>
    rw [List.zipIdx_cons, List.map_cons, List.filter_cons, List.filter_cons]
    by_cases hc : b.isCancelled
    · have hc' : b.error?.any RunError.isCancellation = true := hc
      simp only [report, hc, hc', Bool.not_true, Bool.false_eq_true, if_false]
      exact ih (i + 1)
    · have hc' : b.error?.any RunError.isCancellation = false := by simpa [isCancelled] using hc
      simp only [report, hc, hc', Bool.not_false, if_true, List.filterMap_cons, List.map_cons]
      exact congrArg _ (ih (i + 1))

theorem contributions_eq {f : Fan} {bs : List (Activity U)} (h : f.Faithful bs)
    (hl : f.join.reports.length = bs.length) :
    f.contributions = (bs.filter fun b => !b.isCancelled).map fun b => b.mergeInto .empty := by
  rw [Fan.contributions, ordered_eq h hl, values_zipIdx]

/-- The entries that a group which has joined all its branches stores one after the other. -/
theorem contributions_entries {f : Fan} {bs : List (Activity U)} (h : f.Faithful bs)
    (hl : f.join.reports.length = bs.length) : f.contributions.flatMap Results.entries = kept bs := by
  rw [contributions_eq h hl, List.flatMap_map, kept]
  exact List.flatMap_congr fun b _ => b.mergeInto_empty_entries

theorem kept_fresh {bs : List (Activity U)} (hn : (bs.map (·.stage.name)).Nodup) :
    Results.empty.Fresh (kept bs) :=
  Results.fresh_of_nodup (hn.sublist (kept_names_sublist bs))

theorem results_entries {f : Fan} {bs : List (Activity U)} (h : f.Faithful bs)
    (hl : f.join.reports.length = bs.length) (hn : (bs.map (·.stage.name)).Nodup) :
    f.results.entries = kept bs := by
  rw [Fan.results, Results.mergeBranches_eq, contributions_entries h hl]
  exact Results.entries_insertAll (hn.sublist (kept_names_sublist bs))

/-- That no insert overwrites an entry when a stage that has ended is merged into results: none of those
that store the entries of its branches, nor the one of its own outputs beside them, nor that of its
value. -/
structure MergesFresh (a : Activity U) (r : Results) : Prop where
  branches : ∀ f, a.fan = some f → Results.empty.Fresh (f.contributions.flatMap Results.entries)
  own : ∀ f lines, a.fan = some f → a.lines = some lines → a.stage.name ∉ f.results.names
  value : a.stage.name ∉ r.names

namespace Coherent

theorem results_entries (h : a.Coherent) {f : Fan} (hf : a.fan = some f) (hp : a.phase ≠ .fanned) :
    f.results.entries = kept a.branches :=
  Activity.results_entries (h.faithful f hf) (h.length_eq hf hp) h.names

/-- A stage whose unit returned outputs has no branch of its own name. -/
theorem name_notMem (h : a.Coherent) {f : Fan} (hf : a.fan = some f) {lines : List String}
    (hl : a.lines = some lines) : a.stage.name ∉ a.branches.map (·.stage.name) := by
  have hs : a.stage.hasSteps = true := by
    have hfits := h.fits
    rw [Activity.lines] at hl
    split at hl
    · rename_i e
      rw [e, hl] at hfits
      cases hfits with
      | returned hs => exact hs
    · cases hl
  intro hm
  obtain ⟨b, hb, e⟩ := List.mem_map.1 hm
  refine h.proper.own hs b.stage ?_ e
  rw [h.stages hf]
  exact List.mem_map_of_mem hb

theorem mergesFresh (h : a.Coherent) (hp : a.phase ≠ .fanned) {r : Results} (hn : a.stage.name ∉ r.names) :
    a.MergesFresh r where
  branches f hf := by
    rw [contributions_entries (h.faithful f hf) (h.length_eq hf hp)]
    exact kept_fresh h.names
  own f lines hf hl hm := by
    rw [Results.names, h.results_entries hf hp] at hm
    exact h.name_notMem hf hl ((kept_names_sublist _).subset hm)
  value := hn

/-- The value of a stage past its group: the entries of its branches, and its outputs after them. -/
theorem value?_eq (h : a.Coherent) (hp : a.phase ≠ .fanned) :
    a.value? = StageValue.ofParts a.stage.name (a.fan.map fun _ => kept a.branches) a.lines := by
  rw [value?]
  cases hf : a.fan with
  | none => cases a.lines <;> rfl
  | some f =>
    have hr := h.results_entries hf hp
    cases hl : a.lines with
    | none => simp [Results.contribution, StageValue.ofParts, hr]
    | some lines =>
      have hn : a.stage.name ∉ f.results.names := fun hm => by
        rw [Results.names, hr] at hm
        exact h.name_notMem hf hl ((kept_names_sublist _).subset hm)
      simp [Results.contribution, StageValue.ofParts, Results.insert_of_notMem hn, hr]

end Coherent

end Activity

end StageTree
