import StageTree.Proofs.Json.Shuffled

/-! What readers make of JSON values, in whatever order the fields of objects stand. A record with distinct
names is read field by field: from each one its value, and from one that is missing its default. -/

namespace StageTree.Json

variable {α β : Type} {read : Json → Except Misfit α} {j k : Json} {fs gs hs : List (String × Json)} {name : String}

/-- A reader gives a value for a JSON value, in whatever order the fields in it stand. -/
def Gives (read : Json → Except Misfit α) (j : Json) (a : α) : Prop := ∀ k, Shuffled j k → read k = .ok a

/-- Readers of a JSON form lose nothing: from the form of a value they give that value back, in whatever order
the fields in it stand; so no two values have one form. -/
structure Lossless (form : α → Json) (read : Json → Except Misfit α) : Prop where
  gives : ∀ a, Gives read (form a) a
  injective : ∀ a b j, Shuffled (form a) j → Shuffled (form b) j → a = b

theorem Lossless.of_gives {form : α → Json} (h : ∀ a, Gives read (form a) a) : Lossless form read where
  gives := h
  injective a b j ha hb := Except.ok.inj ((h a j ha).symm.trans (h b j hb))

/-! ### Plain values -/

theorem gives_text (s : String) : Gives toText (.string s) s := by
  intro k hk
  rw [shuffled_string hk]
  rfl

theorem gives_bool (b : Bool) : Gives toBool (.bool b) b := by
  intro k hk
  rw [shuffled_bool hk]
  rfl

theorem gives_nat (n : Nat) : Gives toNat (.nat n) n := by
  intro k hk
  rw [nat] at hk
  rw [shuffled_number hk]
  rfl

theorem Gives.map {a : α} (h : Gives read j a) (f : α → β) : Gives (fun j => (read j).map f) j (f a) := by
  intro k hk
  simp only [h k hk]
  rfl

theorem gives_list {f : β → Json} {read : Json → Except Misfit β} {bs : List β}
    (h : ∀ b ∈ bs, Gives read (f b) b) : Gives (toList read) (.array (bs.map f)) bs := by
  intro k hk
  obtain ⟨ks, rfl, hitems⟩ := shuffled_array hk
  clear hk
  rw [toList]
  induction bs generalizing ks with
  | nil =>
    cases hitems
    rfl
  | cons b bs ih =>
    cases hitems with
    | cons head tail =>
      have hhead := h b List.mem_cons_self _ head
      have htail := ih (fun b hb => h b (List.mem_cons_of_mem _ hb)) _ tail
      rw [List.mapM_cons, hhead, htail]
      rfl

/-- A value that is not null is read as one that is there. -/
theorem Gives.option {a : α} (h : Gives read j a) (hj : j ≠ .null) : Gives (toOption read) j (some a) := by
  intro k hk
  rw [toOption.eq_def]
  split
  · exact absurd (eq_null_of_shuffled hk) hj
  · rw [h k hk]
    rfl

theorem gives_variant {variant : String → Option α} {a : α} (origin : Origin) (h : variant name = some a) :
    Gives (toVariant variant origin) (.string name) a := by
  intro k hk
  rw [shuffled_string hk, toVariant, h]
  rfl

/-! ### Fields -/

namespace Record

theorem occurrences_eq_nil {i : Nat} (h : name ∉ hs.map Prod.fst) : occurrences name i hs = [] := by
  induction hs generalizing i with
  | nil => rfl
  | cons f hs ih =>
    obtain ⟨x, j⟩ := f
    rw [List.map_cons, List.mem_cons, not_or] at h
    rw [occurrences, if_neg (Ne.symm h.1), ih h.2]

/-- Of distinct names each occurs once, with a value that a shuffle has not changed otherwise. -/
theorem occurrences_eq_singleton {i : Nat} (hnodup : (gs.map Prod.fst).Nodup) (hmem : (name, j) ∈ gs)
    (h : ShuffledFields gs hs) : ∃ n k, occurrences name i hs = [(n, k)] ∧ Shuffled j k := by
  induction gs generalizing hs i with
  | nil => cases hmem
  | cons g gs ih =>
    cases h with
    | @cons x j' k _ hs head tail =>
      obtain ⟨hx, hnodup⟩ := List.nodup_cons.1 hnodup
      rcases List.mem_cons.1 hmem with e | hmem
      · obtain ⟨rfl, rfl⟩ := Prod.mk.inj e
        rw [← tail.names] at hx
        exact ⟨i, k, by rw [occurrences, if_pos rfl, occurrences_eq_nil hx], head⟩
      · have hne : x ≠ name := fun e => hx (List.mem_map.2 ⟨_, hmem, e.symm⟩)
        obtain ⟨n, k', hk', hs'⟩ := ih hnodup hmem tail
        exact ⟨n, k', by rw [occurrences, if_neg hne, hk'], hs'⟩

/-- A reader of fields gives a value for named fields, in whatever order they stand. -/
def Gives (r : Record α) (fs : List (String × Json)) (a : α) : Prop :=
  ∀ gs hs i, fs.Perm gs → ShuffledFields gs hs → r.read (.named hs) i = .ok a

theorem Gives.map {r : Record α} {a : α} (h : Gives r fs a) (f : α → β) : Gives (f <$> r) fs (f a) := by
  intro gs hs i hperm hshuffled
  have hread : (f <$> r).read (.named hs) i = (r.read (.named hs) i).map f := rfl
  rw [hread, h gs hs i hperm hshuffled]
  rfl

theorem read_seq {r : Record (α → β)} {s : Record α} {f : α → β} {a : α} {fields : Fields} {i : Nat}
    (hf : r.read fields i = .ok f) (ha : s.read fields (i + r.width) = .ok a) :
    (r <*> s).read fields i = .ok (f a) := by
  simp only [Seq.seq, hf, ha]

theorem Gives.seq {r : Record (α → β)} {s : Record α} {f : α → β} {a : α} (hr : Gives r fs f) (hs : Gives s fs a) :
    Gives (r <*> s) fs (f a) := by
  intro gs hs' i hperm hshuffled
  exact read_seq (hr gs hs' i hperm hshuffled) (hs gs hs' (i + r.width) hperm hshuffled)

/-- A field that is there. -/
theorem gives_field {absent : Option α} {a : α} (hnodup : (fs.map Prod.fst).Nodup) (hmem : (name, j) ∈ fs)
    (h : Json.Gives read j a) : Gives (field name absent read) fs a := by
  intro gs hs i hperm hshuffled
  obtain ⟨n, k, hk, hshuffledk⟩ := occurrences_eq_singleton (i := 0)
    ((hperm.map Prod.fst).nodup_iff.1 hnodup) (hperm.mem_iff.1 hmem) hshuffled
  rw [field]
  simp only [hk, h k hshuffledk]

/-- A field that is missing. -/
theorem gives_absent (a : α) (h : name ∉ fs.map Prod.fst) : Gives (field name (some a) read) fs a := by
  intro gs hs i hperm hshuffled
  have hnames : name ∉ hs.map Prod.fst := by
    rwa [hshuffled.names, ← (hperm.map Prod.fst).mem_iff]
  rw [field]
  simp only [occurrences_eq_nil hnames]

theorem Gives.ofJson {r : Record α} {a : α} (h : Gives r fs a) (origin : Origin) :
    Json.Gives (r.ofJson origin) (.object fs) a := by
  intro k hk
  obtain ⟨gs, hs, rfl, hperm, hshuffled⟩ := shuffled_object hk
  rw [Record.ofJson, h gs hs 0 hperm hshuffled]
  rfl

end Record

/-! ### Variants with content -/

theorem gives_tagged (name : String) {tag : String} {variant : String → Option (Json → Except Misfit α)} {a : α}
    (hnodup : (fs.map Prod.fst).Nodup) (htag : (tag, .string name) ∈ fs) (hexcess : (Json.object fs).hasExcess = false)
    (hvariant : variant name = some read) (h : Gives read (.object (fs.filter (·.1 != tag))) a) :
    Gives (toTagged tag variant) (.object fs) a := by
  intro k hk
  have hclean : k.hasExcess = false := by rw [hk.hasExcess_eq, hexcess]
  obtain ⟨gs, hs, rfl, hperm, hshuffled⟩ := shuffled_object hk
  obtain ⟨n, k, hoccurs, hstring⟩ := Record.occurrences_eq_singleton (i := 0)
    ((hperm.map Prod.fst).nodup_iff.1 hnodup) (hperm.mem_iff.1 htag) hshuffled
  obtain rfl := shuffled_string hstring
  have hrest : Shuffled (.object (fs.filter (·.1 != tag))) (.object (hs.filter (·.1 != tag))) :=
    .object (hperm.filter _) (hshuffled.filter (· != tag))
  rw [toTagged, hclean]
  simp only [Bool.false_eq_true, if_false, hoccurs]
  have hname : toText (.string name) = .ok name := rfl
  rw [hname]
  simp only [bind, Except.bind, hvariant]
  exact h _ hrest

end StageTree.Json
