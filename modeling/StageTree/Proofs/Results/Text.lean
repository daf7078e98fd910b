import StageTree.Proofs.Json.Printed
import StageTree.Proofs.Json.Shuffled
import StageTree.Proofs.Results.Built

/-! What the text of results tells. A reader that keeps the order of fields gets back from it all entries at every
level, so that different results have different texts; and held as a JSON value it is the value that results are turned
into directly, no field being lost in either. -/

namespace StageTree

/-! ### Lists of texts -/

namespace Json

theorem textualItems_strings : ∀ ss : List String, TextualItems (ss.map Json.string)
  | [] => .nil
  | s :: ss => .cons (.string s) (textualItems_strings ss)

theorem sortedItems_strings : ∀ ss : List String, sortedItems (ss.map Json.string) = ss.map Json.string
  | [] => rfl
  | s :: ss => congrArg (Json.string s :: ·) (sortedItems_strings ss)

def toStrings? : List Json → Option (List String)
  | [] => some []
  | .string s :: js => (toStrings? js).map (s :: ·)
  | _ :: _ => none

theorem toStrings?_strings : ∀ ss : List String, toStrings? (ss.map Json.string) = some ss
  | [] => rfl
  | s :: ss => by rw [List.map_cons, toStrings?, toStrings?_strings ss]; rfl

end Json

/-! ### Forms -/

namespace StageValue

mutual

/-- The value that is written so, the entries of objects in their order. -/
def ofForm? : Json → Option StageValue
  | .array items => (Json.toStrings? items).map .outputs
  | .object fields => (entriesOfForm? fields).map .nested
  | _ => none

def entriesOfForm? : List (String × Json) → Option (List (String × StageValue))
  | [] => some []
  | (name, j) :: fs => (ofForm? j).bind fun v => (entriesOfForm? fs).map ((name, v) :: ·)

end

mutual

theorem ofForm?_form : ∀ v : StageValue, ofForm? v.form = some v
  | .outputs lines => by rw [form, Json.strings, ofForm?, Json.toStrings?_strings]; rfl
  | .nested entries => by rw [form, ofForm?, entriesOfForm?_entriesForm entries]; rfl

theorem entriesOfForm?_entriesForm : ∀ es, entriesOfForm? (entriesForm es) = some es
  | [] => rfl
  | (name, v) :: es => by rw [entriesForm, entriesOfForm?, ofForm?_form v, entriesOfForm?_entriesForm es]; rfl

end

mutual

theorem textual_form : ∀ v : StageValue, v.form.Textual
  | .outputs lines => .array (Json.textualItems_strings lines)
  | .nested entries => .object (textual_entriesForm entries)

theorem textual_entriesForm : ∀ es, Json.TextualFields (entriesForm es)
  | [] => .nil
  | (_, v) :: es => .cons (textual_form v) (textual_entriesForm es)

end

mutual

theorem sorted_form : ∀ v : StageValue, v.form.sorted = v.toJson
  | .outputs lines => congrArg Json.array (Json.sortedItems_strings lines)
  | .nested entries => by rw [form, Json.sorted, sortedFields_entriesForm entries]; rfl

theorem sortedFields_entriesForm : ∀ es, Json.sortedFields (entriesForm es) = entriesToJson es
  | [] => rfl
  | (name, v) :: es => by
    rw [entriesForm, Json.sortedFields, sorted_form v, sortedFields_entriesForm es, entriesToJson]

end

theorem names_entriesToJson : ∀ es, (entriesToJson es).map Prod.fst = es.map Prod.fst
  | [] => rfl
  | (name, v) :: es => by rw [entriesToJson, List.map_cons, List.map_cons, names_entriesToJson es]

end StageValue

namespace Results

open StageValue (entriesForm entriesToJson)

def ofForm? : Json → Option Results
  | .object fields => (StageValue.entriesOfForm? fields).map Results.mk
  | _ => none

variable {history : List (String × StageValue)} {r : Results}

theorem ofForm?_form (r : Results) : ofForm? r.form = some r := by
  rw [form, ofForm?, StageValue.entriesOfForm?_entriesForm]
  rfl

theorem readWithin?_text (r : Results) {depth : Nat} (h : r.form.depth ≤ depth) :
    Json.readWithin? depth r.text.toList = some r.form :=
  (Json.Textual.object (StageValue.textual_entriesForm r.entries)).readWithin?_compact h

/-- Different results have different texts. -/
theorem text_injective : Function.Injective text := by
  intro r r' h
  have hread := readWithin?_text r (Nat.le_max_left r.form.depth r'.form.depth)
  rw [h, readWithin?_text r' (Nat.le_max_right _ _)] at hread
  have hform : ofForm? r.form = ofForm? r'.form := by rw [Option.some.inj hread]
  rw [ofForm?_form, ofForm?_form] at hform
  exact Option.some.inj hform

theorem sorted_form (r : Results) : r.form.sorted = r.toJson := by
  rw [form, Json.sorted, StageValue.sortedFields_entriesForm]
  rfl

mutual

/-- No entry of built results is lost when they are held as JSON. -/
theorem Made.shuffled : ∀ v : StageValue, Made v → Json.Shuffled v.form v.toJson
  | .outputs lines, _ => .same _
  | .nested es, h => by
    obtain ⟨history, hbuilt⟩ := made_nested_iff.1 h
    have hfields := shuffled_entries es fun e he => hbuilt.made e (hbuilt.mem_history he)
    have hnodup : ((entriesToJson es).map Prod.fst).Nodup := by
      rw [StageValue.names_entriesToJson]
      exact hbuilt.keeps.nodup
    exact hfields.object_of_perm (Json.collect_perm hnodup).symm

theorem shuffled_entries : ∀ es : List (String × StageValue), (∀ e ∈ es, Made e.2) →
    Json.ShuffledFields (entriesForm es) (entriesToJson es)
  | [], _ => .nil
  | (_, v) :: es, h => by
    rw [List.forall_mem_cons] at h
    exact .cons (Made.shuffled v h.1) (shuffled_entries es h.2)

end

/-- What the text of results tells.
`read`: a reader that goes deep enough reads their form from it.
`recovered`: the form tells all entries, in their order at every level.
`distinct`: no other results have this text.
`held`: held as JSON, the form is what the results are turned into.
`whole`: no field of the form is lost in it. -/
structure Told (r : Results) : Prop where
  read : ∀ depth, r.form.depth ≤ depth → Json.readWithin? depth r.text.toList = some r.form
  recovered : ofForm? r.form = some r
  distinct : ∀ r' : Results, r'.text = r.text → r' = r
  held : r.form.sorted = r.toJson
  whole : Json.Shuffled r.form r.toJson

theorem Built.told (h : Built history r) : r.Told where
  read _ hdepth := readWithin?_text r hdepth
  recovered := ofForm?_form r
  distinct _ htext := text_injective htext
  held := sorted_form r
  whole := Made.shuffled _ (.nested h)

/-- Results that are built by inserts and merges. At every level they keep what was stored and find it by name and
path; branches that are merged follow each other; and the text tells everything. -/
theorem built_keeps_and_tells (h : Built history r) :
    r.Keeps history ∧ r.Finds ∧
      (∀ path s, r.Level path s →
        (∃ history', Built history' s) ∧ ∀ history', Built history' s → s.Keeps history' ∧ s.Finds) ∧
      (∀ bs cs, mergeBranches (bs ++ cs) = (mergeBranches bs).insertAll (cs.flatMap Results.entries)) ∧
      (∀ bs cs, (∀ b ∈ bs, ∀ c ∈ cs, List.Disjoint b.names c.names) →
        (mergeBranches (bs ++ cs)).entries = (mergeBranches bs).entries ++ (mergeBranches cs).entries) ∧
      (∀ bs, (∀ b ∈ bs, ∃ history', Built history' b) → bs.Pairwise (fun b c => List.Disjoint b.names c.names) →
        (mergeBranches bs).entries = bs.flatMap Results.entries) ∧
      r.Told := by
  refine ⟨h.keeps, h.finds, ?_, mergeBranches_append, fun _ _ => entries_mergeBranches_append, ?_, h.told⟩
  · intro path s hlevel
    exact ⟨h.level hlevel, fun _ h' => ⟨h'.keeps, h'.finds⟩⟩
  · intro bs hb hdisjoint
    exact entries_mergeBranches (fun b hmem => made_nested_iff.2 (hb b hmem)) hdisjoint

def silent : Results := empty.insert "x" (.outputs [])

def hollow : Results := empty.insert "y" (.nested empty.entries)

/-- Two branches, steps after them, and a value that is replaced. -/
def fan : Results :=
  ((empty.insert "b" (.outputs ["1"])).mergeStage "fan" (some (mergeBranches [silent, hollow]))
    (some ["after"])).insert "b" (.outputs ["2"])

theorem built_keeps_and_tells_fan :
    (∃ history, history.map Prod.fst = ["b", "fan", "b"] ∧ Built history fan ∧ fan.Keeps history) ∧ fan.Told ∧
      fan.names = ["b", "fan"] ∧
      fan.text = "\x7b\"b\":[\"2\"],\"fan\":\x7b\"x\":[],\"y\":\x7b\x7d,\"fan\":[\"after\"]\x7d\x7d" := by
  have hbranches : ∀ b ∈ [silent, hollow], Made (.nested b.entries) := by
    rw [List.forall_mem_cons, List.forall_mem_singleton]
    exact ⟨.nested (.insert .empty "x" (.outputs [])), .nested (.insert .empty "y" (.nested .empty))⟩
  have hgroup : Made (.nested (mergeBranches [silent, hollow]).entries) := .nested (.mergeBranches _ hbranches)
  have hbuilt := Built.insert (.mergeStage (.insert .empty "b" (.outputs ["1"])) "fan"
    (some (mergeBranches [silent, hollow])) (some ["after"]) (by rintro g ⟨⟩; exact hgroup)) "b" (.outputs ["2"])
  obtain ⟨hkeeps, -, -, -, -, -, htold⟩ := built_keeps_and_tells hbuilt
  exact ⟨⟨_, rfl, hbuilt, hkeeps⟩, htold, by decide +kernel, by decide +kernel⟩

end Results

end StageTree
