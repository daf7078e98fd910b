import Mathlib.Data.List.Perm.Basic
import StageTree.Json.Record

/-! The order of fields says nothing. Two values are the same but for it if their arrays hold such values place
by place, and their objects such values under the same names. -/

namespace StageTree.Json

mutual

/-- The same value, the fields of its objects standing in any order. -/
inductive Shuffled : Json → Json → Prop
  | same (j : Json) : Shuffled j j
  | array {js ks : List Json} (h : ShuffledItems js ks) : Shuffled (.array js) (.array ks)
  | object {fs gs hs : List (String × Json)} (hperm : fs.Perm gs) (h : ShuffledFields gs hs) :
      Shuffled (.object fs) (.object hs)

inductive ShuffledItems : List Json → List Json → Prop
  | nil : ShuffledItems [] []
  | cons {j k : Json} {js ks : List Json} (head : Shuffled j k) (tail : ShuffledItems js ks) :
      ShuffledItems (j :: js) (k :: ks)

/-- The same names one by one, each with the same value but for the order of fields in it. -/
inductive ShuffledFields : List (String × Json) → List (String × Json) → Prop
  | nil : ShuffledFields [] []
  | cons {name : String} {j k : Json} {fs gs : List (String × Json)} (head : Shuffled j k)
      (tail : ShuffledFields fs gs) : ShuffledFields ((name, j) :: fs) ((name, k) :: gs)

end

variable {j k : Json} {js ks : List Json} {fs gs hs : List (String × Json)}

theorem ShuffledItems.refl : ∀ js : List Json, ShuffledItems js js
  | [] => .nil
  | j :: js => .cons (.same j) (refl js)

theorem ShuffledFields.refl : ∀ fs : List (String × Json), ShuffledFields fs fs
  | [] => .nil
  | (_, j) :: fs => .cons (.same j) (refl fs)

/-! ### What a shuffled value is -/

theorem shuffled_string {s : String} (h : Shuffled (.string s) k) : k = .string s := by
  cases h
  rfl

theorem shuffled_bool {b : Bool} (h : Shuffled (.bool b) k) : k = .bool b := by
  cases h
  rfl

theorem shuffled_number {n : Number} (h : Shuffled (.number n) k) : k = .number n := by
  cases h
  rfl

theorem eq_null_of_shuffled (h : Shuffled j .null) : j = .null := by
  cases h
  rfl

theorem shuffled_array (h : Shuffled (.array js) k) : ∃ ks, k = .array ks ∧ ShuffledItems js ks := by
  cases h with
  | same => exact ⟨js, rfl, .refl js⟩
  | array h => exact ⟨_, rfl, h⟩

theorem shuffled_object (h : Shuffled (.object fs) k) :
    ∃ gs hs, k = .object hs ∧ fs.Perm gs ∧ ShuffledFields gs hs := by
  cases h with
  | same => exact ⟨fs, fs, rfl, .refl fs, .refl fs⟩
  | object hperm h => exact ⟨_, _, rfl, hperm, h⟩

/-! ### Names -/

theorem ShuffledFields.names (h : ShuffledFields gs hs) : hs.map Prod.fst = gs.map Prod.fst := by
  induction gs generalizing hs with
  | nil =>
    cases h
    rfl
  | cons g gs ih =>
    cases h with
    | cons _ tail => rw [List.map_cons, List.map_cons, ih tail]

/-- Fields with some names left out. -/
theorem ShuffledFields.filter (keep : String → Bool) (h : ShuffledFields gs hs) :
    ShuffledFields (gs.filter (keep ·.1)) (hs.filter (keep ·.1)) := by
  induction gs generalizing hs with
  | nil =>
    cases h
    exact .nil
  | cons g gs ih =>
    cases h with
    | @cons name j k _ _ head tail =>
      by_cases hk : keep name = true
      · rw [List.filter_cons_of_pos (by exact hk), List.filter_cons_of_pos (by exact hk)]
        exact .cons head (ih tail)
      · rw [List.filter_cons_of_neg (by exact hk), List.filter_cons_of_neg (by exact hk)]
        exact ih tail

/-! ### What a shuffle keeps -/

theorem depthFields_perm (h : fs.Perm gs) : depthFields fs = depthFields gs := by
  induction h with
  | nil => rfl
  | cons f _ ih => rw [depthFields, depthFields, ih]
  | swap f g l =>
    simp only [depthFields]
    omega
  | trans _ _ ih ih' => exact ih.trans ih'

theorem anyFieldExcess_perm (h : fs.Perm gs) : anyFieldExcess fs = anyFieldExcess gs := by
  induction h with
  | nil => rfl
  | cons f _ ih => rw [anyFieldExcess, anyFieldExcess, ih]
  | swap f g l =>
    simp only [anyFieldExcess]
    rw [← Bool.or_assoc, ← Bool.or_assoc, Bool.or_comm (hasExcess f.2)]
  | trans _ _ ih ih' => exact ih.trans ih'

mutual

theorem Shuffled.depth_eq {j k : Json} : Shuffled j k → k.depth = j.depth
  | .same _ => rfl
  | .array h => by rw [depth, depth, h.depth_eq]
  | .object hperm h => by rw [depth, depth, h.depth_eq, depthFields_perm hperm]

theorem ShuffledItems.depth_eq {js ks : List Json} : ShuffledItems js ks → depthItems ks = depthItems js
  | .nil => rfl
  | .cons head tail => by rw [depthItems, depthItems, head.depth_eq, tail.depth_eq]

theorem ShuffledFields.depth_eq {fs gs : List (String × Json)} :
    ShuffledFields fs gs → depthFields gs = depthFields fs
  | .nil => rfl
  | .cons head tail => by rw [depthFields, depthFields, head.depth_eq, tail.depth_eq]

end

mutual

theorem Shuffled.hasExcess_eq {j k : Json} : Shuffled j k → k.hasExcess = j.hasExcess
  | .same _ => rfl
  | .array h => by rw [hasExcess, hasExcess, h.hasExcess_eq]
  | .object hperm h => by rw [hasExcess, hasExcess, h.hasExcess_eq, anyFieldExcess_perm hperm]

theorem ShuffledItems.hasExcess_eq {js ks : List Json} : ShuffledItems js ks → anyExcess ks = anyExcess js
  | .nil => rfl
  | .cons head tail => by rw [anyExcess, anyExcess, head.hasExcess_eq, tail.hasExcess_eq]

theorem ShuffledFields.hasExcess_eq {fs gs : List (String × Json)} :
    ShuffledFields fs gs → anyFieldExcess gs = anyFieldExcess fs
  | .nil => rfl
  | .cons head tail => by rw [anyFieldExcess, anyFieldExcess, head.hasExcess_eq, tail.hasExcess_eq]

end

/-! ### Fields that are collected -/

theorem lastOfEach_of_nodup (h : (fs.map Prod.fst).Nodup) : lastOfEach fs = fs := by
  induction fs with
  | nil => rfl
  | cons f fs ih =>
    obtain ⟨k, v⟩ := f
    rw [List.map_cons, List.nodup_cons] at h
    have hnew : fs.any (·.1 == k) = false := by
      rw [List.any_eq_false]
      intro g hg heq
      exact h.1 (List.mem_map.2 ⟨g, hg, by simpa using heq⟩)
    rw [lastOfEach, hnew, ih h.2]
    rfl

/-- Fields with distinct names are all there when they are collected. -/
theorem collect_perm (h : (fs.map Prod.fst).Nodup) : (collect fs).Perm fs := by
  rw [collect, lastOfEach_of_nodup h]
  exact List.mergeSort_perm fs nameLE

theorem shuffledFields_iff :
    ShuffledFields fs gs ↔ List.Forall₂ (fun f g => f.1 = g.1 ∧ Shuffled f.2 g.2) fs gs := by
  constructor
  · intro h
    induction fs generalizing gs with
    | nil =>
      cases h
      exact .nil
    | cons f fs ih =>
      cases h with
      | cons head tail => exact .cons ⟨rfl, head⟩ (ih tail)
  · intro h
    induction h with
    | nil => exact .nil
    | @cons f g fs gs hfg _ ih =>
      obtain ⟨k, j⟩ := f
      obtain ⟨k', j'⟩ := g
      obtain ⟨rfl, hj⟩ := hfg
      exact .cons hj ih

/-- Fields may change before they are put into another order. -/
theorem ShuffledFields.object_of_perm (h : ShuffledFields fs gs) (hperm : gs.Perm hs) :
    Shuffled (.object fs) (.object hs) := by
  have hcomp : Relation.Comp (List.Forall₂ fun f g : String × Json => f.1 = g.1 ∧ Shuffled f.2 g.2) List.Perm fs hs :=
    ⟨gs, shuffledFields_iff.1 h, hperm⟩
  rw [List.forall₂_comp_perm_eq_perm_comp_forall₂] at hcomp
  obtain ⟨fs', hfs, hfields⟩ := hcomp
  exact .object hfs (shuffledFields_iff.2 hfields)

/-! ### How deep the parts of a value are -/

theorem depth_lt_of_mem_items (h : j ∈ js) : j.depth < (Json.array js).depth := by
  have hle : j.depth ≤ depthItems js := by
    induction js with
    | nil => cases h
    | cons i js ih =>
      rw [depthItems]
      rcases List.mem_cons.1 h with rfl | h
      · omega
      · have := ih h
        omega
  rw [depth]
  omega

theorem depth_lt_of_mem_fields {name : String} (h : (name, j) ∈ fs) : j.depth < (Json.object fs).depth := by
  have hle : j.depth ≤ depthFields fs := by
    induction fs with
    | nil => cases h
    | cons f fs ih =>
      rw [depthFields]
      rcases List.mem_cons.1 h with rfl | h
      · simp only
        omega
      · have := ih h
        omega
  rw [depth]
  omega

end StageTree.Json
