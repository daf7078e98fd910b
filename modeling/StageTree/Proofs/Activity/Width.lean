import Mathlib.Algebra.Order.BigOperators.Group.List
import Mathlib.Algebra.Order.Group.Nat
import Mathlib.Algebra.Ring.Nat
import StageTree.Proofs.Activity.InFlight

/-! The width of a stage tree: how many units of it can be at work at once. The branches of a group are at work
side by side, and the own unit of a stage only once all of them have ended, so that the units in flight and one
that is submitted beside them are never more than the width. -/

namespace StageTree

variable {W U : Type}

namespace Stage

mutual

/-- The larger of what the branches amount to together and one for the own steps, if there are any. -/
def width : Stage → Nat
  | ⟨_, _, steps, _, parallel⟩ => max (widthGroup parallel) (if steps.isEmpty then 0 else 1)

def widthGroup : Option (List Stage) → Nat
  | none => 0
  | some branches => widthAll branches

def widthAll : List Stage → Nat
  | [] => 0
  | s :: ss => width s + widthAll ss

end

theorem widthAll_eq_sum (stages : List Stage) : widthAll stages = (stages.map width).sum := by
  induction stages with
  | nil => rfl
  | cons s stages ih => rw [widthAll, ih, List.map_cons, List.sum_cons]

theorem width_eq (s : Stage) :
    s.width = max (s.branches.map width).sum (if s.hasSteps then 1 else 0) := by
  obtain ⟨_, _, steps, _, parallel⟩ := s
  cases parallel <;> cases steps <;> simp [width, widthGroup, branches, hasSteps, widthAll_eq_sum]

theorem width_branches_le (s : Stage) : (s.branches.map width).sum ≤ s.width := by
  rw [width_eq]
  exact Nat.le_max_left _ _

theorem width_steps_le (s : Stage) : (if s.hasSteps then 1 else 0) ≤ s.width := by
  rw [width_eq]
  exact Nat.le_max_right _ _

end Stage

/-- The largest of the widths of the stages at the top, which run in turn. -/
def Pipeline.width (p : Pipeline) : Nat := (p.stages.map Stage.width).foldr max 0

theorem Pipeline.width_le {p : Pipeline} {s : Stage} (hs : s ∈ p.stages) : s.width ≤ p.width := by
  rw [width]
  generalize p.stages = stages at hs
  induction stages with
  | nil => cases hs
  | cons t stages ih =>
    rw [List.map_cons, List.foldr_cons]
    rcases List.mem_cons.1 hs with rfl | hs
    · exact Nat.le_max_left _ _
    · exact (ih hs).trans (Nat.le_max_right _ _)

/-- If every term is within its bound, and one of them with room to spare, then so is their sum. -/
theorem sum_add_le {α : Type} {l : List α} {f g : α → Nat} {x : α} {room : Nat} (hx : x ∈ l)
    (h : ∀ y ∈ l, f y ≤ g y) (hroom : f x + room ≤ g x) : (l.map f).sum + room ≤ (l.map g).sum := by
  induction l with
  | nil => cases hx
  | cons y l ih =>
    have hl (z : α) (hz : z ∈ l) := h z (List.mem_cons_of_mem _ hz)
    have hy := h y List.mem_cons_self
    have hsum : (l.map f).sum ≤ (l.map g).sum := List.sum_le_sum hl
    simp only [List.map_cons, List.sum_cons]
    rcases List.mem_cons.1 hx with rfl | hx
    · omega
    · have := ih hx hl
      omega

namespace Activity

theorem length_inFlight (path : List String) (a : Activity U) :
    (a.inFlight path).length = (a.atWork path).length +
      (a.branches.map fun b => (b.inFlight (path ++ [b.stage.name])).length).sum := by
  rw [inFlight_eq, List.length_append, List.length_flatMap]

/-- No more units of a tree are at work than the tree is wide. -/
theorem inFlight_le {a : Activity U} (ha : a.Sound) (path : List String) :
    (a.inFlight path).length ≤ a.stage.width := by
  induction ha generalizing path with
  | @mk a here below ih =>
    by_cases hp : a.phase = .fanned
    · obtain ⟨f, hf⟩ := Option.ne_none_iff_exists'.1 (here.fanned hp)
      have hbranches := a.stage.width_branches_le
      rw [here.stages hf, List.map_map] at hbranches
      rw [length_inFlight, atWork, hp]
      have hsum : (a.branches.map fun b => (b.inFlight (path ++ [b.stage.name])).length).sum ≤
          (a.branches.map (Stage.width ∘ stage)).sum := List.sum_le_sum fun b hb => ih b hb _
      simpa using hsum.trans hbranches
    · -- the branches of a stage that is not in its group have ended
      have hnone : (a.branches.map fun b => (b.inFlight (path ++ [b.stage.name])).length).sum = 0 := by
        refine List.sum_eq_zero fun n hn => ?_
        obtain ⟨b, hb, rfl⟩ := List.mem_map.1 hn
        rw [inFlight_of_hasEnded (below b hb) (here.hasEnded_of_mem hp hb)]
        rfl
      rw [length_inFlight, hnone, atWork]
      split
      · rename_i u hw
        have hsteps := a.stage.width_steps_le
        rw [if_pos (here.hasSteps_of_working hw)] at hsteps
        exact hsteps
      · exact Nat.zero_le _

section Steps

variable {s : Setting W U} {m : Moment} {w : W} {a : Activity U} {x : Act} {p : Played W U}

theorem Onward.length_submitted {stage : Stage} {since : Nat} {phase : Phase U} {w' : W} {trace : List Entry}
    (h : Onward s m stage since w phase w' trace) :
    (trace.filterMap Entry.submitted?).length ≤ if stage.hasSteps then 1 else 0 := by
  cases h with
  | idle h => exact Nat.zero_le _
  | unit h ht =>
    rw [if_pos h, List.filterMap_cons_some (f := Entry.submitted?) (b := m.path) rfl,
      (ht.submitted stage none []).1]
    exact Nat.le_refl 1

/-- A stage that goes on to its unit is at work nowhere else. -/
theorem inFlight_of_ended (ha : a.Sound) (hp : ∀ u, a.phase ≠ .working u)
    (hb : ∀ b ∈ a.branches, b.hasEnded = true) (path : List String) : a.inFlight path = [] := by
  have hown : a.atWork path = [] := by
    rw [atWork]
    split
    · rename_i u hw
      exact absurd hw (hp u)
    · rfl
  rw [inFlight_eq, hown, List.nil_append, List.flatMap_eq_nil_iff]
  exact fun b hm => inFlight_of_hasEnded (ha.branch hm) (hb b hm) _

theorem Acted.length_submitted (h : Acted s m w a x p) (ha : a.Sound) :
    (a.inFlight m.path).length + (p.trace.filterMap Entry.submitted?).length ≤ a.stage.width := by
  have own {phase : Phase U} {since : Nat} {w' : W} {trace : List Entry}
      (ho : Onward s m a.stage since w phase w' trace) (hnone : a.inFlight m.path = []) :
      (a.inFlight m.path).length + (trace.filterMap Entry.submitted?).length ≤ a.stage.width := by
    rw [hnone, List.length_nil, Nat.zero_add]
    exact ho.length_submitted.trans a.stage.width_steps_le
  have quiet (entries : List Entry) (he : entries.filterMap Entry.submitted? = []) :
      (a.inFlight m.path).length + (entries.filterMap Entry.submitted?).length ≤ a.stage.width := by
    rw [he]
    exact inFlight_le ha m.path
  cases h with
  | refused | fanned => exact quiet _ rfl
  | begun hp hs hg ho =>
    have hnone : ∀ b ∈ a.branches, b.hasEnded = true := by simp [ha.here.single (ha.here.waiting hp)]
    rw [List.filterMap_cons_none rfl]
    exact own ho (inFlight_of_ended ha (by simp [hp]) hnone _)
  | looked hp ht => exact quiet _ (ht.submitted a.stage a.fan a.branches).1
  | joined => exact quiet _ (submitted?_joiningEntries _ _)
  | failed =>
    refine quiet _ ?_
    rw [List.filterMap_append, submitted?_joiningEntries]
    rfl
  | @gathered i ms f b lines error phase w' trace hp hf hb he hj hl hr ho =>
    rw [List.filterMap_append, submitted?_joiningEntries, List.nil_append]
    have hended (c : Activity U) (hc : c ∈ a.branches) := (ha.here.clear_of_joining hf hb he hj hl hr hc).1
    exact own ho (inFlight_of_ended ha (by simp [hp]) hended _)

/-- The units in flight, and one that a step submits beside them, are no more than the tree is wide. -/
theorem Stepped.length_submitted (h : Stepped s x a m w p) (ha : a.Sound) :
    (a.inFlight m.path).length + (p.trace.filterMap Entry.submitted?).length ≤ a.stage.width := by
  induction h with
  | here h => exact h.length_submitted ha
  | @branch a b m w p f i hp hf hb h ih =>
    have hm := List.mem_of_getElem? hb
    have hbranch := ih (ha.branch hm)
    have hbranches := a.stage.width_branches_le
    rw [ha.here.stages hf, List.map_map] at hbranches
    have hown : a.atWork m.path = [] := by rw [atWork, hp]
    rw [length_inFlight, hown, List.length_nil, Nat.zero_add]
    refine le_trans ?_ hbranches
    -- every other branch keeps within its own width
    exact sum_add_le hm (fun c hc => inFlight_le (ha.branch hc) _) hbranch

end Steps

end Activity

end StageTree
