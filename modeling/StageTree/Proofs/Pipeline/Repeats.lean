import Mathlib.Data.List.Nodup
import StageTree.Pipeline.Validation

/-! Names that come a second time. Both searches for them, among the keys of a step and among the names of
stages, go through a list with the names before in hand and stop at the first one that is there. -/

namespace StageTree

/-- The first name of a list that comes a second time. -/
def Repeated (names : List String) (name : String) : Prop :=
  ∃ before after, names = before ++ name :: after ∧ before.Nodup ∧ name ∈ before

/-- The first name that some name before it equals, `seen` being those before the list. -/
def firstRepeat? (seen : List String) : List String → Option String
  | [] => none
  | n :: names => if seen.contains n then some n else firstRepeat? (n :: seen) names

theorem Step.repeatedFrom_eq (seen : List String) (params : List Param) :
    repeatedFrom seen params = firstRepeat? seen (params.map Param.key) := by
  induction params generalizing seen with
  | nil => rfl
  | cons p params ih => rw [repeatedFrom, ih, List.map_cons, firstRepeat?]

theorem Stage.repeatedNameFrom_eq (seen : List String) (stages : List Stage) :
    repeatedNameFrom seen stages = firstRepeat? seen (stages.map name) := by
  induction stages generalizing seen with
  | nil => rfl
  | cons s stages ih => rw [repeatedNameFrom, ih, List.map_cons, firstRepeat?]

/-- No name is found exactly when the names are distinct, and distinct from those before. -/
theorem firstRepeat?_eq_none {seen names : List String} :
    firstRepeat? seen names = none ↔ names.Nodup ∧ ∀ n ∈ names, n ∉ seen := by
  induction names generalizing seen with
  | nil => simp [firstRepeat?]
  | cons n names ih =>
    by_cases hn : n ∈ seen
    · simp [firstRepeat?, hn]
    · simp only [firstRepeat?, List.contains_iff_mem, hn, if_false, ih, List.nodup_cons, List.mem_cons,
        not_or, forall_eq_or_imp, not_false_iff, true_and]
      constructor
      · rintro ⟨hnodup, hall⟩
        exact ⟨⟨fun hm => (hall n hm).1 rfl, hnodup⟩, fun m hm => (hall m hm).2⟩
      · rintro ⟨⟨hfresh, hnodup⟩, hall⟩
        exact ⟨hnodup, fun m hm => ⟨fun e => hfresh (e ▸ hm), hall m hm⟩⟩

/-- What is found has before it, in the list or before it, a name like it, and nothing before it has. -/
theorem firstRepeat?_eq_some {seen names : List String} {name : String} :
    firstRepeat? seen names = some name ↔ ∃ before after, names = before ++ name :: after ∧
      firstRepeat? seen before = none ∧ (name ∈ before ∨ name ∈ seen) := by
  induction names generalizing seen with
  | nil => simp [firstRepeat?]
  | cons n names ih =>
    by_cases hn : n ∈ seen
    · rw [firstRepeat?, if_pos (by simpa using hn), Option.some.injEq]
      constructor
      · rintro rfl
        exact ⟨[], names, rfl, rfl, .inr hn⟩
      · rintro ⟨before, after, e, hbefore, _⟩
        cases before with
        | nil => exact (List.cons.inj e).1
        | cons m before =>
          obtain rfl := (List.cons.inj e).1
          exact absurd hn ((firstRepeat?_eq_none.1 hbefore).2 n List.mem_cons_self)
    · rw [firstRepeat?, if_neg (by simpa using hn), ih]
      constructor
      · rintro ⟨before, after, rfl, hbefore, hname⟩
        refine ⟨n :: before, after, rfl, ?_, ?_⟩
        · rwa [firstRepeat?, if_neg (by simpa using hn)]
        · rwa [List.mem_cons, or_comm (a := name = n), or_assoc, ← List.mem_cons]
      · rintro ⟨before, after, e, hbefore, hname⟩
        cases before with
        | nil =>
          obtain rfl := (List.cons.inj e).1
          exact absurd (hname.resolve_left List.not_mem_nil) hn
        | cons m before =>
          obtain ⟨rfl, rfl⟩ := List.cons.inj e
          rw [firstRepeat?, if_neg (by simpa using hn)] at hbefore
          refine ⟨before, after, rfl, hbefore, ?_⟩
          rwa [List.mem_cons, or_comm (a := name = n), or_assoc, ← List.mem_cons] at hname

theorem firstRepeat?_nil_eq_some {names : List String} {name : String} :
    firstRepeat? [] names = some name ↔ Repeated names name := by
  simp [firstRepeat?_eq_some, firstRepeat?_eq_none, Repeated]

/-! ### Distinct names -/

/-- Of members with distinct keys the one found under a key is the only one that has it. -/
theorem find?_key_eq_some {α κ : Type} [BEq κ] [LawfulBEq κ] {key : α → κ} {l : List α} (h : (l.map key).Nodup)
    {k : κ} {a : α} : l.find? (key · == k) = some a ↔ a ∈ l ∧ key a = k := by
  constructor
  · intro hf
    exact ⟨List.mem_of_find?_eq_some hf, by simpa using List.find?_some hf⟩
  · rintro ⟨hm, rfl⟩
    obtain ⟨b, hb⟩ : ∃ b, l.find? (key · == key a) = some b := by
      rw [← Option.isSome_iff_exists, List.find?_isSome]
      exact ⟨a, hm, by simp⟩
    have hba : key b = key a := by simpa using List.find?_some hb
    rw [hb, List.inj_on_of_nodup_map h (List.mem_of_find?_eq_some hb) hm hba]

end StageTree
