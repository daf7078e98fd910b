import Mathlib.Algebra.Ring.Nat
import StageTree.Proofs.Activity.Ready
import StageTree.Proofs.Unit.Laws

/-! The work that is left in a tree: a number that every step in time makes smaller. Of each stage there
are a start, the looks at its unit, and for each branch of its group a join. -/

namespace StageTree

/-- The work of a stage that has not started, its own join apart. -/
def Stage.work (looks : Nat) (s : Stage) : Nat := s.count * (looks + 2) - 1

theorem Stage.work_succ (looks : Nat) (s : Stage) : s.work looks + 1 = s.count * (looks + 2) := by
  have hpos : 0 < s.count * (looks + 2) := by
    rw [count_eq]
    exact Nat.mul_pos (by omega) (by omega)
  rw [work]
  omega

/-- The work of stages and their joins. -/
theorem Stage.sum_work (looks : Nat) (stages : List Stage) :
    (stages.map fun s => s.work looks + 1).sum = countAll stages * (looks + 2) := by
  induction stages with
  | nil => simp [countAll]
  | cons s ss ih => rw [List.map_cons, List.sum_cons, ih, work_succ, countAll, Nat.add_mul]

/-- A stage that has not started is to start, to be looked at, and to have its branches work and join. -/
theorem Stage.work_eq (looks : Nat) (s : Stage) :
    s.work looks = 1 + looks + (s.branches.map fun b => b.work looks + 1).sum := by
  rw [sum_work, work, count_eq, Nat.add_mul]
  omega

theorem Stage.sum_work_succ (looks : Nat) (stages : List Stage) :
    (stages.map fun b => b.work looks + 1).sum = (stages.map fun b => b.work looks).sum + stages.length := by
  induction stages with
  | nil => rfl
  | cons s ss ih =>
    rw [List.map_cons, List.sum_cons, ih, List.map_cons, List.sum_cons, List.length_cons]
    omega

namespace Activity

variable {W U : Type}

mutual

/-- The work left in a tree. -/
def work (looks : Nat) (rank : U → Nat) : Activity U → Nat
  | ⟨stage, _, phase, fan, branches⟩ =>
    match phase with
    | .waiting => stage.work looks
    | .fanned => looks + workBelow looks rank branches +
        (branches.length - (fan.elim 0 fun f => f.join.reports.length))
    | .working u => rank u + 1
    | .ended _ _ _ => 0

def workBelow (looks : Nat) (rank : U → Nat) : List (Activity U) → Nat
  | [] => 0
  | a :: as => work looks rank a + workBelow looks rank as

end

variable {looks : Nat} {rank : U → Nat} {a : Activity U}

theorem workBelow_eq (as : List (Activity U)) :
    workBelow looks rank as = (as.map (work looks rank)).sum := by
  induction as with
  | nil => rfl
  | cons a as ih => rw [workBelow, ih, List.map_cons, List.sum_cons]

theorem work_of_waiting (h : a.phase = .waiting) : a.work looks rank = a.stage.work looks := by
  obtain ⟨stage, since, phase, fan, branches⟩ := a
  subst h
  rw [work]

theorem work_of_working {u : U} (h : a.phase = .working u) : a.work looks rank = rank u + 1 := by
  obtain ⟨stage, since, phase, fan, branches⟩ := a
  subst h
  rw [work]

theorem work_of_hasEnded (h : a.hasEnded = true) : a.work looks rank = 0 := by
  obtain ⟨stage, since, phase, fan, branches⟩ := a
  obtain ⟨ms, lines, error, hp⟩ := hasEnded_iff.1 h
  subst hp
  rw [work]

theorem work_of_fanned (h : a.phase = .fanned) {f : Fan} (hf : a.fan = some f) :
    a.work looks rank =
      looks + (a.branches.map (work looks rank)).sum + (a.branches.length - f.join.reports.length) := by
  obtain ⟨stage, since, phase, fan, branches⟩ := a
  subst h hf
  rw [work, workBelow_eq]
  rfl

@[simp] theorem work_cancel (a : Activity U) (reason : String) :
    (a.cancel reason).work looks rank = a.work looks rank := by
  induction a using Activity.induction with
  | h a ih =>
    rcases a.cancel_cases reason with e | ⟨join, hp, hf, e⟩
    · rw [e]
    · rw [e, work_of_fanned hp hf, work_of_fanned (by exact hp) rfl]
      have hsum : (a.branches.map (cancel reason)).map (work looks rank) =
          a.branches.map (work looks rank) := by
        rw [List.map_map]
        exact List.map_congr_left ih
      simp only [hsum, List.length_map]

section Steps

variable {s : Setting W U} {m : Moment} {w : W} {x : Act} {p : Played W U}

theorem joiningBranches_work (f : Fan) (r : Report Results) :
    ((a.joiningBranches f r).map (work looks rank)) = a.branches.map (work looks rank) := by
  rcases a.joiningBranches_eq f r with e | ⟨reason, e⟩ <;> rw [e]
  rw [List.map_map]
  exact List.map_congr_left fun b _ => work_cancel b reason

/-- A unit at work is less work than its looks. -/
theorem Onward.work_le (hr : s.runner.Prompt rank) {stage : Stage} {since : Nat} {phase : Phase U} {w' : W}
    {trace : List Entry} (h : Onward s m stage since w phase w' trace) (hph : a.phase = phase) :
    a.work s.runner.looks rank ≤ s.runner.looks := by
  cases h with
  | idle h => rw [work_of_hasEnded (hasEnded_of_phase hph)]; exact Nat.zero_le _
  | unit h ht =>
    generalize ht' : s.runner.start (.ofStage stage s.vars) m.look w = t at ht
    cases ht with
    | waits w notes u =>
      rw [work_of_working hph]
      exact hr.start _ _ _ u (by rw [ht'])
    | returns w notes r => rw [work_of_hasEnded (hasEnded_of_phase hph)]; exact Nat.zero_le _

/-- What is done by joining a branch. -/
theorem work_joining (hp : a.phase = .fanned) {f : Fan} (hf : a.fan = some f) (failFast : Bool)
    (r : Report Results) (hl : f.join.reports.length < a.branches.length) :
    work looks rank { a with
      fan := some (f.joining failFast r)
      branches := a.joiningBranches f r } < a.work looks rank := by
  rw [work_of_fanned hp hf, work_of_fanned (by exact hp) rfl]
  simp only [joiningBranches_work, joiningBranches_length, Fan.joining, Join.add, List.length_append,
    List.length_singleton]
  omega

theorem Acted.work_lt (h : Acted s m w a x p) (ha : a.Coherent) (hr : s.runner.Prompt rank)
    (hd : ∀ u, a.phase = .working u → m.scope.isSome = true ∨ (s.runner.due u).any (· ≤ m.now) = true) :
    p.activity.work s.runner.looks rank < a.work s.runner.looks rank := by
  have hstart (hp : a.phase = .waiting) : s.runner.looks < a.work s.runner.looks rank := by
    rw [work_of_waiting hp, Stage.work_eq]
    omega
  have hlast {f : Fan} (hp : a.phase = .fanned) (hf : a.fan = some f) :
      s.runner.looks < a.work s.runner.looks rank := by
    have := (ha.joined f hf).1 hp
    rw [work_of_fanned hp hf]
    omega
  cases h with
  | refused hp hs =>
    rw [work_of_hasEnded rfl]
    exact Nat.lt_of_le_of_lt (Nat.zero_le _) (hstart hp)
  | @fanned stages hp hs hg hne =>
    rw [work_of_waiting hp, Stage.work_eq, work_of_fanned rfl rfl, Stage.branches_of_parallel hg]
    have hsum : (stages.map ofStage).map (work s.runner.looks rank) =
        stages.map fun b => b.work s.runner.looks := by
      rw [List.map_map]
      exact List.map_congr_left fun b _ => work_of_waiting rfl
    rw [Stage.sum_work_succ]
    simp only [hsum, List.length_map, List.length_nil]
    omega
  | begun hp hs hg ho => exact Nat.lt_of_le_of_lt (ho.work_le hr rfl) (hstart hp)
  | @looked u phase w' trace hp ht =>
    rw [work_of_working hp]
    generalize ht' : s.runner.look u m.look w = t at ht
    cases ht with
    | waits w notes u' =>
      rw [work_of_working rfl]
      have := hr.look u m.look w u' (hd u hp) (by rw [ht'])
      omega
    | returns w notes r => rw [work_of_hasEnded rfl]; omega
  | joined hp hf hb he hj hl => exact work_joining hp hf _ _ ((ha.joined _ hf).1 hp)
  | failed hp hf hb he hj hl hr' =>
    rw [work_of_hasEnded rfl]
    exact Nat.lt_of_le_of_lt (Nat.zero_le _) (hlast hp hf)
  | gathered hp hf hb he hj hl hr' ho => exact Nat.lt_of_le_of_lt (ho.work_le hr rfl) (hlast hp hf)

theorem sum_set_lt {α : Type} {l : List α} {i : Nat} {x y : α} {g : α → Nat} (hx : l[i]? = some x)
    (h : g y < g x) : ((l.set i y).map g).sum < (l.map g).sum := by
  induction l generalizing i with
  | nil => simp at hx
  | cons c l ih =>
    cases i with
    | zero =>
      obtain rfl := Option.some.inj hx
      simpa using h
    | succ i =>
      have := ih hx
      simp only [List.set_cons_succ, List.map_cons, List.sum_cons]
      omega

/-- A step in time leaves less work. -/
theorem Timely.work_lt (h : Timely s x a m w p) (ha : a.Sound) (hr : s.runner.Prompt rank) :
    p.activity.work s.runner.looks rank < a.work s.runner.looks rank := by
  induction h with
  | here h hd => exact h.work_lt ha.here hr hd
  | @branch a b m w p f i hp hf hb h ih =>
    have hlt := sum_set_lt (g := work s.runner.looks rank) hb (ih (ha.branch (List.mem_of_getElem? hb)))
    rw [work_of_fanned hp hf, work_of_fanned (by exact hp) (by exact hf)]
    simp only [List.length_set]
    omega

end Steps

end Activity

end StageTree
