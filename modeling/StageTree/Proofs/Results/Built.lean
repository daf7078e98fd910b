import Mathlib.Data.List.Induction
import Mathlib.Data.List.Nodup
import Mathlib.Tactic.SplitIfs
import StageTree.Proofs.Bindings
import StageTree.Proofs.Results.Insert

/-! Results as they can be built: from nothing, by storing values one after the other and by merging what stages and
branches produced. Whatever was stored in them, names are distinct and stand in the order in which they were first
stored, each with the value stored last, at every level; and they are found by their names and paths. -/

namespace StageTree.Results

mutual

/-- Results that are built, with the entries that were stored in them, in the order of time. -/
inductive Built : List (String × StageValue) → Results → Prop
  | empty : Built [] .empty
  | insert {history : List (String × StageValue)} {r : Results} (h : Built history r) (name : String) {v : StageValue}
      (hv : Made v) : Built (history ++ [(name, v)]) (r.insert name v)
  | mergeStage {history : List (String × StageValue)} {r : Results} (h : Built history r) (stage : String)
      (group : Option Results) (lines : Option (List String)) (hg : ∀ g ∈ group, Made (.nested g.entries)) :
      Built (history ++ ((contribution stage group lines).map (stage, ·)).toList) (r.mergeStage stage group lines)
  | mergeBranches (bs : List Results) (hb : ∀ b ∈ bs, Made (.nested b.entries)) :
      Built (bs.flatMap Results.entries) (mergeBranches bs)

/-- Values whose results are built. -/
inductive Made : StageValue → Prop
  | outputs (lines : List String) : Made (.outputs lines)
  | nested {history : List (String × StageValue)} {r : Results} (h : Built history r) : Made (.nested r.entries)

end

/-- What results owe to the entries that were stored in them: names are distinct and in the order in which they were
stored first, and each has the value that was stored last. -/
structure Keeps (r : Results) (history : List (String × StageValue)) : Prop where
  nodup : r.names.Nodup
  order : r.names = (history.map Prod.fst).eraseDups
  last : ∀ name, r.get? name = history.reverse.lookup name

/-- The results that lie in others at the end of a path. -/
inductive Level : Results → List String → Results → Prop
  | root (r : Results) : Level r [] r
  | nested {r s : Results} {name : String} {path : List String} {es : List (String × StageValue)}
      (hmem : (name, .nested es) ∈ r.entries) (h : Level ⟨es⟩ path s) : Level r (name :: path) s

/-- What is found in results are the values stored there, by their names and by their paths. -/
structure Finds (r : Results) : Prop where
  get : ∀ name v, r.get? name = some v ↔ (name, v) ∈ r.entries
  path : ∀ path name v, r.getPath? (path ++ [name]) = some v ↔ ∃ s, r.Level path s ∧ (name, v) ∈ s.entries
  root : r.getPath? [] = none

variable {r s : Results} {history es : List (String × StageValue)} {name : String} {v : StageValue}

/-! ### What an insert does -/

theorem names_insert_of_mem (v : StageValue) (h : name ∈ r.names) : (r.insert name v).names = r.names := by
  obtain ⟨es⟩ := r
  simp only [insert, names] at h ⊢
  induction es with
  | nil => cases h
  | cons e es ih =>
    obtain ⟨k, w⟩ := e
    rw [insertEntry]
    split_ifs with hk
    · rfl
    · rw [List.map_cons, List.map_cons, ih ((List.mem_cons.1 h).resolve_left (Ne.symm hk))]

theorem names_insert_of_notMem (v : StageValue) (h : name ∉ r.names) :
    (r.insert name v).names = r.names ++ [name] := by
  rw [names, insert_of_notMem h, List.map_append]
  rfl

theorem get?_insert (r : Results) (name k : String) (v : StageValue) :
    (r.insert name v).get? k = if k = name then some v else r.get? k := by
  obtain ⟨es⟩ := r
  simp only [insert, get?]
  induction es with
  | nil => exact lookup_cons_eq k (name, v) []
  | cons e es ih =>
    obtain ⟨k', w⟩ := e
    rw [insertEntry]
    by_cases hk : k' = name
    · subst hk
      by_cases hkk : k = k' <;> simp [lookup_cons_eq, hkk]
    · by_cases hkk : k = k' <;> simp [lookup_cons_eq, hk, hkk, ih]

theorem mem_insert {e : String × StageValue} (h : e ∈ (r.insert name v).entries) : e = (name, v) ∨ e ∈ r.entries := by
  obtain ⟨es⟩ := r
  simp only [insert] at h ⊢
  induction es with
  | nil => simpa [insertEntry] using h
  | cons e' es ih =>
    obtain ⟨k, w⟩ := e'
    rw [insertEntry] at h
    split_ifs at h with hk
    · subst hk
      rcases List.mem_cons.1 h with h | h
      · exact .inl h
      · exact .inr (List.mem_cons_of_mem _ h)
    · rcases List.mem_cons.1 h with rfl | h
      · exact .inr List.mem_cons_self
      · exact (ih h).imp_right (List.mem_cons_of_mem _)

/-- An insert among entries that lack the name goes among those after them. -/
theorem insertEntry_append (h : name ∉ es.map Prod.fst) (es' : List (String × StageValue)) :
    insertEntry name v (es ++ es') = es ++ insertEntry name v es' := by
  induction es with
  | nil => rfl
  | cons e es ih =>
    obtain ⟨k, w⟩ := e
    rw [List.map_cons, List.mem_cons, not_or] at h
    rw [List.cons_append, insertEntry, if_neg (Ne.symm h.1), ih h.2, List.cons_append]

/-! ### What is kept -/

theorem Keeps.insert (h : r.Keeps history) (name : String) (v : StageValue) :
    (r.insert name v).Keeps (history ++ [(name, v)]) where
  nodup := by
    by_cases hmem : name ∈ r.names
    · rw [names_insert_of_mem v hmem]
      exact h.nodup
    · rw [names_insert_of_notMem v hmem]
      exact List.concat_eq_append ▸ h.nodup.concat hmem
  order := by
    have hiff : name ∈ r.names ↔ name ∈ history.map Prod.fst := by rw [h.order, List.mem_eraseDups]
    rw [List.map_append, List.eraseDups_append, ← h.order]
    by_cases hmem : name ∈ r.names
    · simp [names_insert_of_mem v hmem, List.removeAll, hiff.1 hmem]
    · simp [names_insert_of_notMem v hmem, List.removeAll, mt hiff.2 hmem, List.eraseDups_cons]
  last k := by
    rw [get?_insert, List.reverse_append, List.reverse_singleton, List.singleton_append, lookup_cons_eq, h.last]

theorem keeps_insertAll (history : List (String × StageValue)) : (empty.insertAll history).Keeps history := by
  induction history using List.reverseRecOn with
  | nil => exact ⟨List.nodup_nil, rfl, fun _ => rfl⟩
  | append_singleton history e ih =>
    rw [insertAll_append]
    exact ih.insert e.1 e.2

theorem mem_insertAll {e : String × StageValue} (h : e ∈ (empty.insertAll history).entries) : e ∈ history := by
  induction history using List.reverseRecOn with
  | nil => exact h
  | append_singleton history e' ih =>
    rw [insertAll_append] at h
    rcases mem_insert h with h | h
    · exact List.mem_append_right _ (List.mem_singleton.2 h)
    · exact List.mem_append_left _ (ih h)

/-! ### What is built -/

theorem made_nested_iff : Made (.nested es) ↔ ∃ history, Built history ⟨es⟩ := by
  constructor
  · intro h
    cases h with
    | nested h => exact ⟨_, h⟩
  · rintro ⟨history, h⟩
    exact .nested h

theorem made_contribution {stage : String} {group : Option Results} {lines : Option (List String)}
    (hg : ∀ g ∈ group, Made (.nested g.entries)) (h : contribution stage group lines = some v) : Made v := by
  match group, lines, h with
  | some g, none, rfl => exact hg g rfl
  | none, some lines, rfl => exact .outputs lines
  | some g, some lines, rfl =>
    obtain ⟨history, hbuilt⟩ := made_nested_iff.1 (hg g rfl)
    exact .nested (hbuilt.insert stage (.outputs lines))

/-- Results that are built are those of their history. -/
theorem Built.eq_insertAll {history : List (String × StageValue)} {r : Results} :
    Built history r → r = Results.empty.insertAll history
  | .empty => rfl
  | .insert h name _ => by
    rw [insertAll_append, ← h.eq_insertAll]
    rfl
  | .mergeStage h stage group lines _ => by
    rw [insertAll_append, ← h.eq_insertAll, Results.mergeStage]
    cases contribution stage group lines <;> rfl
  | .mergeBranches bs _ => mergeBranches_eq bs

theorem Built.keeps (h : Built history r) : r.Keeps history := h.eq_insertAll ▸ keeps_insertAll history

theorem Built.mem_history (h : Built history r) {e : String × StageValue} (he : e ∈ r.entries) : e ∈ history :=
  mem_insertAll (h.eq_insertAll ▸ he)

mutual

/-- Whatever was stored is made of built results. -/
theorem Built.made {history : List (String × StageValue)} {r : Results} :
    Built history r → ∀ e ∈ history, Made e.2
  | .empty, _, he => absurd he List.not_mem_nil
  | .insert h name hv, e, he => by
    rcases List.mem_append.1 he with he | he
    · exact h.made e he
    · rw [List.mem_singleton.1 he]
      exact hv
  | .mergeStage h stage group lines hg, e, he => by
    rcases List.mem_append.1 he with he | he
    · exact h.made e he
    · obtain ⟨v, hv, rfl⟩ := Option.map_eq_some_iff.1 (Option.mem_toList.1 he)
      exact made_contribution hg hv
  | .mergeBranches bs hb, e, he => by
    obtain ⟨b, hmem, he⟩ := List.mem_flatMap.1 he
    exact (hb b hmem).made_entry rfl e he

theorem Made.made_entry {v : StageValue} : Made v → ∀ {es}, v = .nested es → ∀ e ∈ es, Made e.2
  | .outputs _, _, heq, _, _ => by cases heq
  | .nested h, _, heq, e, he => by
    cases heq
    exact h.made e (h.mem_history he)

end

/-- The results at every level are built. -/
theorem Built.level {path : List String} (h : Built history r) (hlevel : r.Level path s) :
    ∃ history, Built history s := by
  induction hlevel generalizing history with
  | root => exact ⟨history, h⟩
  | nested hmem _ ih =>
    obtain ⟨history', h'⟩ := made_nested_iff.1 (h.made _ (h.mem_history hmem))
    exact ih h'

/-! ### What is found -/

theorem get?_eq_some_iff (h : r.names.Nodup) : r.get? name = some v ↔ (name, v) ∈ r.entries := by
  refine ⟨fun hget => ?_, get?_eq_some h⟩
  obtain ⟨before, after, hentries, -⟩ := List.lookup_eq_some_iff.1 hget
  rw [hentries]
  exact List.mem_append_right _ List.mem_cons_self

theorem level_cons_iff {path : List String} :
    r.Level (name :: path) s ↔ ∃ es, (name, .nested es) ∈ r.entries ∧ Level ⟨es⟩ path s := by
  constructor
  · intro h
    cases h with
    | nested hmem h => exact ⟨_, hmem, h⟩
  · rintro ⟨es, hmem, h⟩
    exact .nested hmem h

theorem level_nil_iff : r.Level [] s ↔ s = r := by
  constructor
  · intro h
    cases h
    rfl
  · rintro rfl
    exact .root s

theorem bind_nested?_eq_some_iff {o : Option StageValue} :
    o.bind StageValue.nested? = some r ↔ o = some (.nested r.entries) := by
  obtain ⟨es⟩ := r
  rcases o with _ | lines | es'
  · simp
  · simp [StageValue.nested?]
  · simp [StageValue.nested?]

theorem Built.getPath?_eq_some_iff (h : Built history r) (path : List String) :
    r.getPath? (path ++ [name]) = some v ↔ ∃ s, r.Level path s ∧ (name, v) ∈ s.entries := by
  induction path generalizing r history with
  | nil => simp [level_nil_iff, getPath?, get?_eq_some_iff h.keeps.nodup]
  | cons k path ih =>
    rw [List.cons_append, getPath?_cons k (by simp)]
    constructor
    · intro hpath
      obtain ⟨g, hg, hpath⟩ := Option.bind_eq_some_iff.1 hpath
      have hentry : (k, .nested g.entries) ∈ r.entries :=
        (get?_eq_some_iff h.keeps.nodup).1 (bind_nested?_eq_some_iff.1 hg)
      obtain ⟨history', hbuilt⟩ := h.level (.nested hentry (.root g))
      obtain ⟨s, hlevel, hmem⟩ := (ih hbuilt).1 hpath
      exact ⟨s, .nested hentry hlevel, hmem⟩
    · rintro ⟨s, hlevel, hmem⟩
      obtain ⟨es, hentry, hlevel⟩ := level_cons_iff.1 hlevel
      obtain ⟨history', hbuilt⟩ := h.level (.nested hentry (.root ⟨es⟩))
      exact Option.bind_eq_some_iff.2 ⟨⟨es⟩, bind_nested?_eq_some_iff.2 (get?_eq_some h.keeps.nodup hentry),
        (ih hbuilt).2 ⟨s, hlevel, hmem⟩⟩

theorem Built.finds (h : Built history r) : r.Finds where
  get _ _ := get?_eq_some_iff h.keeps.nodup
  path path _ _ := h.getPath?_eq_some_iff path
  root := rfl

/-! ### What is merged -/

/-- Entries under other names stand after those that are there, as they would stand by themselves. -/
theorem insertAll_entries_of_disjoint (h : List.Disjoint r.names (es.map Prod.fst)) :
    (r.insertAll es).entries = r.entries ++ (empty.insertAll es).entries := by
  induction es using List.reverseRecOn with
  | nil => exact (List.append_nil _).symm
  | append_singleton es e ih =>
    rw [List.map_append, List.disjoint_append_right] at h
    have hnew : e.1 ∉ r.entries.map Prod.fst := fun hmem => h.2 hmem (by simp)
    rw [insertAll_append, insertAll_append]
    show insertEntry e.1 e.2 (r.insertAll es).entries = r.entries ++ insertEntry e.1 e.2 (empty.insertAll es).entries
    rw [ih h.1, insertEntry_append hnew]

/-- Merging the branches of two lists is merging those of the first, and then storing the entries of the others. -/
theorem mergeBranches_append (bs cs : List Results) :
    mergeBranches (bs ++ cs) = (mergeBranches bs).insertAll (cs.flatMap Results.entries) := by
  rw [mergeBranches_eq, mergeBranches_eq, List.flatMap_append, insertAll_append]

theorem names_mergeBranches_subset (bs : List Results) : (mergeBranches bs).names ⊆ bs.flatMap names := by
  intro name hname
  obtain ⟨e, he, rfl⟩ := List.mem_map.1 hname
  rw [mergeBranches_eq] at he
  obtain ⟨b, hb, he⟩ := List.mem_flatMap.1 (mem_insertAll he)
  exact List.mem_flatMap.2 ⟨b, hb, List.mem_map_of_mem he⟩

/-- What two lists of branches with other names give stands one after the other. -/
theorem entries_mergeBranches_append {bs cs : List Results}
    (h : ∀ b ∈ bs, ∀ c ∈ cs, List.Disjoint b.names c.names) :
    (mergeBranches (bs ++ cs)).entries = (mergeBranches bs).entries ++ (mergeBranches cs).entries := by
  rw [mergeBranches_append, mergeBranches_eq cs]
  refine insertAll_entries_of_disjoint fun name hname hname' => ?_
  obtain ⟨b, hb, hb'⟩ := List.mem_flatMap.1 (names_mergeBranches_subset bs hname)
  obtain ⟨e, he, rfl⟩ := List.mem_map.1 hname'
  obtain ⟨c, hc, hc'⟩ := List.mem_flatMap.1 he
  exact h b hb c hc hb' (List.mem_map_of_mem hc')

/-- What branches with different names give stands one after the other. -/
theorem entries_mergeBranches {bs : List Results} (hb : ∀ b ∈ bs, Made (.nested b.entries))
    (h : bs.Pairwise fun b c => List.Disjoint b.names c.names) :
    (mergeBranches bs).entries = bs.flatMap Results.entries := by
  rw [mergeBranches_eq]
  refine entries_insertAll ?_
  rw [empty, List.nil_append, List.map_flatMap]
  refine List.nodup_flatMap.2 ⟨fun b hmem => ?_, h⟩
  obtain ⟨history, hbuilt⟩ := made_nested_iff.1 (hb b hmem)
  exact hbuilt.keeps.nodup

end StageTree.Results
