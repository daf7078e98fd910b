import Mathlib.Data.List.Perm.Basic
import Mathlib.Data.List.Perm.Subperm
import StageTree.Bindings
import StageTree.Proofs.Moves

/-! Maps from names to texts and the lists they are made of. A list with distinct names keeps all its bindings,
and the order of a list says nothing then. In any list a name is bound to the text that is given for it last. -/

namespace StageTree

theorem lookup_cons_eq {κ β : Type} [DecidableEq κ] (k : κ) (b : κ × β) (l : List (κ × β)) :
    (b :: l).lookup k = if k = b.1 then some b.2 else l.lookup k := by
  rw [List.lookup_cons]
  by_cases h : k = b.1
  · simp [h]
  · simp [h, beq_eq_false_iff_ne.2 h]

namespace Bindings

variable {l : List (String × String)} {k v : String} {m : Bindings}

theorem put_perm (h : k ∉ l.map Prod.fst) : (put k v l).Perm ((k, v) :: l) := by
  induction l with
  | nil => exact .refl _
  | cons b l ih =>
    obtain ⟨k', v'⟩ := b
    rw [List.map_cons, List.mem_cons, not_or] at h
    unfold put
    split
    · exact .refl _
    · rw [if_neg h.1]
      exact ((ih h.2).cons (k', v')).trans (.swap (k, v) (k', v') l)

theorem entries_insertAll_perm (h : ((l ++ m.entries).map Prod.fst).Nodup) :
    (m.insertAll l).entries.Perm (l ++ m.entries) := by
  induction l generalizing m with
  | nil => exact .refl _
  | cons b l ih =>
    have hput : (m.insert b.1 b.2).entries.Perm (b :: m.entries) := by
      apply put_perm
      rw [List.cons_append, List.map_cons, List.nodup_cons, List.map_append, List.mem_append, not_or] at h
      exact h.1.2
    have hnext : (l ++ (m.insert b.1 b.2).entries).Perm (b :: (l ++ m.entries)) :=
      (hput.append_left l).trans List.perm_middle
    have hnodup : ((l ++ (m.insert b.1 b.2).entries).map Prod.fst).Nodup := (hnext.map Prod.fst).nodup_iff.2 h
    exact (ih hnodup).trans hnext

theorem entries_ofList_perm (h : (l.map Prod.fst).Nodup) : (ofList l).entries.Perm l := by
  have hperm := entries_insertAll_perm (m := empty) (by rwa [show l ++ empty.entries = l from List.append_nil l])
  rwa [show l ++ empty.entries = l from List.append_nil l] at hperm

theorem nodup_names (m : Bindings) : (m.entries.map Prod.fst).Nodup := by
  have hne {a b : String × String} (h : a.1 < b.1) : a.1 ≠ b.1 := by
    intro e
    rw [e] at h
    exact String.lt_irrefl _ h
  rw [List.Nodup, List.pairwise_map]
  exact m.sorted.imp hne

/-- There is one order in which names can stand, so a map is known by its bindings. -/
theorem eq_of_perm {m' : Bindings} (h : m.entries.Perm m'.entries) : m = m' := by
  have he : m.entries = m'.entries := h.eq_of_pairwise
    (fun a b _ _ hab hba => absurd (String.lt_trans hab hba) (String.lt_irrefl _)) m.sorted m'.sorted
  obtain ⟨entries, _⟩ := m
  obtain ⟨entries', _⟩ := m'
  cases he
  rfl

/-- A map is made of its bindings in any order. -/
theorem ofList_of_perm (h : l.Perm m.entries) : ofList l = m := by
  have hnodup : (l.map Prod.fst).Nodup := (h.map Prod.fst).nodup_iff.2 m.nodup_names
  exact eq_of_perm ((entries_ofList_perm hnodup).trans h)

/-! ### What a name is bound to -/

theorem lookup_put (k v : String) (l : List (String × String)) (name : String) :
    (put k v l).lookup name = if name = k then some v else l.lookup name := by
  induction l with
  | nil => exact lookup_cons_eq name (k, v) []
  | cons b l ih =>
    obtain ⟨k', v'⟩ := b
    rw [put]
    split
    · exact lookup_cons_eq name (k, v) _
    · split
      · rename_i h
        subst h
        by_cases h : name = k <;> simp [lookup_cons_eq, h]
      · rename_i hne
        rw [lookup_cons_eq, lookup_cons_eq, ih]
        by_cases h : name = k
        · simp [h, hne]
        · simp [h]

theorem get?_insert (m : Bindings) (k v name : String) :
    (m.insert k v).get? name = if name = k then some v else m.get? name :=
  lookup_put k v m.entries name

theorem ofList_concat (l : List (String × String)) (b : String × String) :
    ofList (l ++ [b]) = (ofList l).insert b.1 b.2 := by
  rw [ofList, insertAll, List.foldl_append]
  rfl

/-- A name is bound to the last text that is given for it. -/
theorem get?_ofList_eq_some : (ofList l).get? k = some v ↔
    ∃ before after, l = before ++ (k, v) :: after ∧ k ∉ after.map Prod.fst := by
  induction l using List.reverseRecOn with
  | nil => simp [ofList, insertAll, empty, get?]
  | append_singleton l b ih =>
    obtain ⟨k', v'⟩ := b
    rw [ofList_concat, get?_insert]
    by_cases hk : k = k'
    · subst hk
      rw [if_pos rfl, Option.some.injEq]
      constructor
      · rintro rfl
        exact ⟨l, [], rfl, List.not_mem_nil⟩
      · rintro ⟨before, after, e, hfresh⟩
        rcases eq_concat_cases e with ⟨_, e, _⟩ | ⟨rest, rfl, _⟩
        · exact (Prod.mk.inj e).2.symm
        · simp at hfresh
    · rw [if_neg hk, ih]
      constructor
      · rintro ⟨before, after, rfl, hfresh⟩
        exact ⟨before, after ++ [(k', v')], by simp, by simp [hk, hfresh]⟩
      · rintro ⟨before, after, e, hfresh⟩
        rcases eq_concat_cases e with ⟨_, e, _⟩ | ⟨rest, rfl, rfl⟩
        · exact absurd (Prod.mk.inj e).1 hk
        · exact ⟨before, rest, rfl, fun hm => hfresh (by simp [hm])⟩

theorem isSome_get?_ofList : ((ofList l).get? k).isSome = true ↔ k ∈ l.map Prod.fst := by
  induction l using List.reverseRecOn with
  | nil => simp [ofList, insertAll, empty, get?]
  | append_singleton l b ih =>
    rw [ofList_concat, get?_insert, List.map_append, List.mem_append, ← ih]
    by_cases hk : k = b.1 <;> simp [hk]

/-- A map says of a name what its binding says. -/
theorem get?_eq_some_iff : m.get? k = some v ↔ (k, v) ∈ m.entries := by
  rw [get?, List.lookup_eq_some_iff]
  constructor
  · rintro ⟨before, after, e, _⟩
    rw [e]
    exact List.mem_append_right _ List.mem_cons_self
  · intro h
    obtain ⟨before, after, e⟩ := List.append_of_mem h
    refine ⟨before, after, e, fun b hb => ?_⟩
    have hnodup := m.nodup_names
    rw [e, List.map_append, List.map_cons, List.nodup_append] at hnodup
    have hne : b.1 ≠ k := hnodup.2.2 b.1 (List.mem_map_of_mem hb) k List.mem_cons_self
    simpa using hne.symm

theorem mem_names_iff : k ∈ m.entries.map Prod.fst ↔ (m.get? k).isSome = true := by
  rw [Option.isSome_iff_exists]
  simp only [get?_eq_some_iff, List.mem_map, Prod.exists, exists_and_right, exists_eq_right]

/-- The names that are bound are those of the list. -/
theorem mem_names_ofList : k ∈ (ofList l).entries.map Prod.fst ↔ k ∈ l.map Prod.fst := by
  rw [mem_names_iff, isSome_get?_ofList]

/-- A list with a name that comes twice loses a binding. -/
theorem length_entries_ofList : (ofList l).entries.length = l.length ↔ (l.map Prod.fst).Nodup := by
  refine ⟨fun h => ?_, fun h => (entries_ofList_perm h).length_eq⟩
  have hsub : (ofList l).entries.map Prod.fst ⊆ l.map Prod.fst := fun _ hk => mem_names_ofList.1 hk
  have hperm := ((ofList l).nodup_names.subperm hsub).perm_of_length_le (by simp [h])
  exact hperm.nodup_iff.1 (ofList l).nodup_names

end Bindings

end StageTree
