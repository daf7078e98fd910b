import Mathlib.Data.List.Nodup
import StageTree.Results

/-! Results that grow by inserts under new names: such an insert overwrites nothing, and entries with
distinct names that are stored one after the other stand in the results in this order. -/

namespace StageTree.Results

theorem insertEntry_of_notMem {name : String} {v : StageValue} {es : List (String × StageValue)}
    (h : name ∉ es.map Prod.fst) : insertEntry name v es = es ++ [(name, v)] := by
  induction es with
  | nil => rfl
  | cons e es ih =>
    obtain ⟨k, w⟩ := e
    rw [List.map_cons, List.mem_cons, not_or] at h
    rw [insertEntry, if_neg (Ne.symm h.1), ih h.2, List.cons_append]

theorem insert_of_notMem {r : Results} {name : String} {v : StageValue} (h : name ∉ r.names) :
    (r.insert name v).entries = r.entries ++ [(name, v)] :=
  insertEntry_of_notMem h

/-- Entries that are stored one after the other, each under a name that is new when it is stored. -/
def Fresh (r : Results) (es : List (String × StageValue)) : Prop :=
  ∀ before e after, es = before ++ e :: after → e.1 ∉ (r.insertAll before).names

theorem insertAll_append (r : Results) (es es' : List (String × StageValue)) :
    r.insertAll (es ++ es') = (r.insertAll es).insertAll es' :=
  List.foldl_append

theorem entries_insertAll {r : Results} {es : List (String × StageValue)}
    (h : ((r.entries ++ es).map Prod.fst).Nodup) : (r.insertAll es).entries = r.entries ++ es := by
  induction es generalizing r with
  | nil => simp [insertAll]
  | cons e es ih =>
    have hn : e.1 ∉ r.names := by
      rw [List.map_append, List.nodup_append] at h
      exact fun hm => h.2.2 _ hm e.1 (by simp) rfl
    have he : (r.insert e.1 e.2).entries = r.entries ++ [e] := insert_of_notMem hn
    have h' : (((r.insert e.1 e.2).entries ++ es).map Prod.fst).Nodup := by simpa [he] using h
    simpa [insertAll, he] using ih h'

/-- Nothing is overwritten by entries whose names are distinct, and distinct from those there. -/
theorem fresh_of_nodup {r : Results} {es : List (String × StageValue)}
    (h : ((r.entries ++ es).map Prod.fst).Nodup) : r.Fresh es := by
  rintro before e after rfl
  have hsub : ((r.entries ++ before).map Prod.fst).Nodup := by
    refine h.sublist ?_
    simp only [List.map_append]
    exact (List.Sublist.refl _).append (List.sublist_append_left _ _)
  rw [names, entries_insertAll hsub]
  intro hm
  rw [← List.append_assoc, List.map_append, List.nodup_append] at h
  exact h.2.2 _ hm e.1 (by simp) rfl

/-- Merging branches is storing all their entries. -/
theorem mergeBranches_eq (bs : List Results) :
    mergeBranches bs = empty.insertAll (bs.flatMap Results.entries) := by
  have h (r : Results) :
      bs.foldl (fun r b => r.insertAll b.entries) r = r.insertAll (bs.flatMap Results.entries) := by
    induction bs generalizing r with
    | nil => rfl
    | cons b bs ih => rw [List.foldl_cons, ih, List.flatMap_cons, insertAll_append]
  exact h empty

theorem get?_eq_some {r : Results} (h : r.names.Nodup) {name : String} {v : StageValue}
    (hm : (name, v) ∈ r.entries) : r.get? name = some v := by
  obtain ⟨es⟩ := r
  rw [get?]
  rw [names] at h
  simp only at h hm ⊢
  induction es with
  | nil => simp at hm
  | cons e es ih =>
    obtain ⟨k, w⟩ := e
    rw [List.map_cons, List.nodup_cons] at h
    rw [List.lookup_cons]
    rcases List.mem_cons.1 hm with e | hm
    · obtain ⟨rfl, rfl⟩ := Prod.mk.inj e
      simp
    · have hne : name ≠ k := fun e => h.1 (e ▸ List.mem_map.2 ⟨_, hm, rfl⟩)
      rw [beq_eq_false_iff_ne.2 hne]
      exact ih h.2 hm

theorem getPath?_cons {r : Results} (name : String) {path : List String} (h : path ≠ []) :
    r.getPath? (name :: path) = ((r.get? name).bind StageValue.nested?).bind fun r => r.getPath? path := by
  obtain ⟨c, path, rfl⟩ := List.exists_cons_of_ne_nil h
  rw [getPath?]
  simp

end StageTree.Results
