import StageTree.Proofs.Pipeline.Repeats

/-! What the rules of a stage tree say about every stage of it: it has something to do, its group, if it
has one, is not empty, and the names around it are distinct. -/

namespace StageTree

/-- A stage whose tree keeps the rules that a run depends on. -/
inductive Stage.Proper : Stage → Prop
  | mk {s : Stage} (content : s.hasSteps ∨ s.parallel ≠ none) (group : s.parallel ≠ some [])
      (names : (s.branches.map Stage.name).Nodup)
      (own : s.hasSteps → ∀ b ∈ s.branches, b.name ≠ s.name)
      (members : ∀ b ∈ s.branches, b.Proper) : s.Proper

namespace Stage

theorem Proper.content {s : Stage} : s.Proper → s.hasSteps ∨ s.parallel ≠ none
  | mk h _ _ _ _ => h

theorem Proper.group {s : Stage} : s.Proper → s.parallel ≠ some []
  | mk _ h _ _ _ => h

theorem Proper.names {s : Stage} : s.Proper → (s.branches.map Stage.name).Nodup
  | mk _ _ h _ _ => h

theorem Proper.own {s : Stage} : s.Proper → s.hasSteps → ∀ b ∈ s.branches, b.name ≠ s.name
  | mk _ _ _ h _ => h

theorem Proper.branch {s b : Stage} : s.Proper → b ∈ s.branches → b.Proper
  | mk _ _ _ _ h, hb => h b hb

theorem branches_of_parallel {s : Stage} {stages : List Stage} (h : s.parallel = some stages) :
    s.branches = stages := by
  rw [branches, h, Option.getD_some]

end Stage

namespace Violation

theorem when_eq_none {v : Violation} {b : Bool} : v.when b = none ↔ b = false := by
  cases b <;> simp [Violation.when]

end Violation

namespace Stage

/-- No name is found twice exactly when the names are distinct, and distinct from those before. -/
theorem repeatedNameFrom_eq_none (stages : List Stage) (seen : List String) :
    repeatedNameFrom seen stages = none ↔
      (stages.map name).Nodup ∧ ∀ s ∈ stages, s.name ∉ seen := by
  rw [repeatedNameFrom_eq, firstRepeat?_eq_none, List.forall_mem_map]

theorem siblingViolation?_eq_none {parent : String} {stages : List Stage} :
    siblingViolation? parent stages = none ↔ (stages.map name).Nodup := by
  rw [siblingViolation?, Option.map_eq_none_iff, repeatedNameFrom_eq_none]
  simp

theorem memberViolation?_eq_none {stages : List Stage} :
    memberViolation? stages = none ↔ ∀ s ∈ stages, s.violation? = none := by
  induction stages with
  | nil => simp [memberViolation?]
  | cons s ss ih => simp [memberViolation?, Option.or_eq_none_iff, ih]

theorem violation?_eq_none {s : Stage} :
    s.violation? = none ↔ s.ownViolation? = none ∧ ∀ b ∈ s.branches, b.violation? = none := by
  obtain ⟨name, agent, steps, failFast, parallel⟩ := s
  cases parallel <;> simp [violation?, groupViolation?, branches, memberViolation?_eq_none]

theorem proper_of_violation?_eq_none (s : Stage) (h : s.violation? = none) : s.Proper := by
  induction s using Stage.induction with
  | h s ih =>
    obtain ⟨hown, hbelow⟩ := violation?_eq_none.1 h
    simp only [ownViolation?, Option.orElse_eq_orElse, Option.orElse_eq_or, Option.or_eq_none_iff,
      Violation.when_eq_none, siblingViolation?_eq_none, Option.map_eq_none_iff] at hown
    obtain ⟨_, _, hcontent, _, hgroup, hname, hnames⟩ := hown
    refine .mk ?_ ?_ hnames ?_ fun b hb => ih b hb (hbelow b hb)
    · by_cases hp : s.parallel = none
      · exact .inl (by simpa [hasSteps, hp] using hcontent)
      · exact .inr hp
    · simpa using hgroup
    · intro hs b hb e
      simp [hs] at hname
      exact hname b hb e

end Stage

/-- What validation says about a pipeline that it lets through. -/
structure Pipeline.Proper (p : Pipeline) : Prop where
  stages : p.stages ≠ []
  names : (p.stages.map Stage.name).Nodup
  members : ∀ s ∈ p.stages, s.Proper

theorem Pipeline.proper_of_violation?_eq_none {p : Pipeline} (h : p.violation? = none) : p.Proper := by
  simp only [violation?, Option.orElse_eq_orElse, Option.orElse_eq_or, Option.or_eq_none_iff,
    Violation.when_eq_none, Stage.siblingViolation?_eq_none, Stage.memberViolation?_eq_none] at h
  obtain ⟨hstages, _, hnames, hmembers⟩ := h
  exact ⟨by simpa using hstages, hnames,
    fun s hs => Stage.proper_of_violation?_eq_none s (hmembers s hs)⟩

/-! ### Every stage of a tree -/

namespace Stage

inductive Everywhere (P : Stage → Prop) : Stage → Prop
  | mk {s : Stage} (here : P s) (members : ∀ b ∈ s.branches, Everywhere P b) : Everywhere P s

namespace Everywhere

variable {P : Stage → Prop} {s b : Stage}

theorem here : Everywhere P s → P s
  | mk h _ => h

theorem branch : Everywhere P s → b ∈ s.branches → Everywhere P b
  | mk _ h, hb => h b hb

end Everywhere

theorem preorder_eq (above : List String) (s : Stage) :
    s.preorder above = (above ++ [s.name], s) :: preorderAll (above ++ [s.name]) s.branches := by
  obtain ⟨name, agent, steps, failFast, parallel⟩ := s
  cases parallel <;> simp [preorder, preorderGroup, branches, preorderAll]

theorem mem_preorderAll {above : List String} {stages : List Stage} {n : List String × Stage} :
    n ∈ preorderAll above stages ↔ ∃ s ∈ stages, n ∈ s.preorder above := by
  induction stages with
  | nil => simp [preorderAll]
  | cons s stages ih => simp [preorderAll, ih]

theorem preorder_subset {above : List String} {stages : List Stage} {s : Stage} (hs : s ∈ stages) :
    s.preorder above ⊆ preorderAll above stages :=
  fun _ hn => mem_preorderAll.2 ⟨s, hs, hn⟩

theorem everywhere_of_preorder {P : Stage → Prop} {above : List String} {s : Stage}
    (h : ∀ n ∈ s.preorder above, P n.2) : Everywhere P s := by
  induction s using Stage.induction generalizing above with
  | h s ih =>
    rw [preorder_eq] at h
    exact .mk (h _ List.mem_cons_self) fun b hb =>
      ih b hb fun n hn => h n (List.mem_cons_of_mem _ (preorder_subset hb hn))

theorem Everywhere.of_mem_preorder {P : Stage → Prop} {above : List String} {s : Stage} (h : Everywhere P s)
    {n : List String × Stage} (hn : n ∈ s.preorder above) : P n.2 := by
  induction s using Stage.induction generalizing above with
  | h s ih =>
    rw [preorder_eq, List.mem_cons] at hn
    rcases hn with rfl | hn
    · exact h.here
    · obtain ⟨b, hb, hn⟩ := mem_preorderAll.1 hn
      exact ih b hb (h.branch hb) hn

/-- A stage tree in which every group fails fast. -/
abbrev Brittle : Stage → Prop := Everywhere fun s => s.parallel.isSome = true → s.failsFast = true

end Stage

theorem Pipeline.everywhere_of_preorder {P : Stage → Prop} {p : Pipeline} (h : ∀ n ∈ p.preorder, P n.2)
    {s : Stage} (hs : s ∈ p.stages) : s.Everywhere P :=
  Stage.everywhere_of_preorder fun n hn => h n (Stage.preorder_subset hs hn)

def Pipeline.fork (failFast : Bool) : Pipeline :=
  let a : Stage := { name := "a", steps := [.single "sh" "a"] }
  let b : Stage := { name := "b", steps := [.single "sh" "b"] }
  ⟨.none, [{ name := "fork", failFast := some failFast, parallel := some [a, b] }]⟩

end StageTree
