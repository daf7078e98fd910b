import StageTree.Proofs.Activity.Marks

/-! Units in flight. A unit that was submitted is at work until it returns, so that the units which were
submitted are those that have returned and those at work. Below a stage that has ended none is. -/

namespace StageTree

open Activity

variable {W U : Type}

def Entry.submitted? (e : Entry) : Option (List String) :=
  match e.what with
  | .submitted _ => some e.path
  | _ => none

def Entry.returned? (e : Entry) : Option (List String) :=
  match e.what with
  | .returned _ => some e.path
  | _ => none

namespace Activity

/-- The path of a stage if its own unit is at work. -/
def atWork (path : List String) (a : Activity U) : List (List String) :=
  match a.phase with
  | .working _ => [path]
  | _ => []

def inFlight (path : List String) (a : Activity U) : List (List String) :=
  (a.nodes path).flatMap fun n => n.2.atWork n.1

theorem inFlight_eq (path : List String) (a : Activity U) : a.inFlight path =
    a.atWork path ++ a.branches.flatMap fun b => b.inFlight (path ++ [b.stage.name]) := by
  rw [inFlight, nodes_eq, List.flatMap_cons, nodesBelow_eq_flatMap, List.flatMap_assoc]
  rfl

@[simp] theorem inFlight_ofStage (path : List String) (s : Stage) :
    (ofStage s : Activity U).inFlight path = [] := by
  rw [inFlight_eq]
  rfl

/-- A cancellation takes no unit from its work by itself. -/
@[simp] theorem inFlight_cancel (path : List String) (a : Activity U) (reason : String) :
    (a.cancel reason).inFlight path = a.inFlight path := by
  induction a using Activity.induction generalizing path with
  | h a ih =>
    rcases a.cancel_cases reason with e | ⟨join, hp, hf, e⟩
    · rw [e]
    · rw [e, inFlight_eq, inFlight_eq, List.flatMap_map]
      refine congrArg _ (List.flatMap_congr fun b hb => ?_)
      rw [cancel_stage, ih b hb]

theorem joiningBranches_inFlight (a : Activity U) (path : List String) (f : Fan) (r : Report Results) :
    ((a.joiningBranches f r).flatMap fun b => b.inFlight (path ++ [b.stage.name])) =
      a.branches.flatMap fun b => b.inFlight (path ++ [b.stage.name]) := by
  rcases a.joiningBranches_eq f r with e | ⟨reason, e⟩ <;> rw [e]
  simp [List.flatMap_map]

/-- Below a stage that has ended every stage has. -/
theorem Sound.hasEnded {a : Activity U} (ha : a.Sound) (he : a.hasEnded = true) :
    Everywhere (fun b => b.hasEnded = true) a := by
  induction ha with
  | @mk a here below ih =>
    obtain ⟨_, _, _, hp⟩ := hasEnded_iff.1 he
    exact .mk he fun b hb => ih b hb (here.hasEnded_of_mem (by simp [hp]) hb)

/-- A stage that has ended has no unit in flight, itself or below. -/
theorem inFlight_of_hasEnded {a : Activity U} (ha : a.Sound) (he : a.hasEnded = true) (path : List String) :
    a.inFlight path = [] := by
  rw [inFlight, List.flatMap_eq_nil_iff]
  intro n hn
  obtain ⟨_, _, _, hp⟩ := hasEnded_iff.1 ((ha.hasEnded he).of_mem_nodes hn).here
  rw [atWork, hp]

section Steps

variable {s : Setting W U} {m : Moment} {w : W} {a : Activity U} {x : Act} {p : Played W U}

theorem submitted?_joiningEntries (f : Fan) (r : Report Results) :
    (a.joiningEntries f r m).filterMap Entry.submitted? = [] := by
  rw [joiningEntries]
  split <;> rfl

theorem returned?_joiningEntries (f : Fan) (r : Report Results) :
    (a.joiningEntries f r m).filterMap Entry.returned? = [] := by
  rw [joiningEntries]
  split <;> rfl

/-- What becomes of a unit that was submitted: it returns, or is at work. -/
theorem Taken.submitted {since : Nat} {t : Turn W U} {phase : Phase U} {w' : W} {trace : List Entry}
    (h : Taken m since t phase w' trace) (stage : Stage) (fan : Option Fan) (branches : List (Activity U)) :
    trace.filterMap Entry.submitted? = [] ∧ [m.path] = trace.filterMap Entry.returned? ++
      (⟨stage, since, phase, fan, branches⟩ : Activity U).atWork m.path := by
  have hsub := m.filterMap_noted (show ∀ n, Entry.submitted? (m.entry (.noted n)) = none from fun _ => rfl)
  have hret := m.filterMap_noted (show ∀ n, Entry.returned? (m.entry (.noted n)) = none from fun _ => rfl)
  cases h with
  | waits w notes u => exact ⟨hsub notes, by rw [hret]; rfl⟩
  | returns w notes r =>
    rw [List.filterMap_append, List.filterMap_append, hsub, hret]
    exact ⟨rfl, rfl⟩

theorem Onward.submitted {stage : Stage} {since : Nat} {phase : Phase U} {w' : W} {trace : List Entry}
    (h : Onward s m stage since w phase w' trace) {fan : Option Fan} {branches : List (Activity U)} :
    trace.filterMap Entry.submitted? = trace.filterMap Entry.returned? ++
      (⟨stage, since, phase, fan, branches⟩ : Activity U).atWork m.path := by
  cases h with
  | idle h => rfl
  | unit h ht =>
    obtain ⟨hsub, hret⟩ := ht.submitted stage fan branches
    rw [List.filterMap_cons_some (f := Entry.submitted?) (b := m.path) rfl, hsub, List.filterMap_cons_none rfl]
    exact hret

/-- The stage that acts had its unit at work or submits it now if it returns now or is at work then. -/
theorem Acted.submitted (h : Acted s m w a x p) :
    a.atWork m.path ++ p.trace.filterMap Entry.submitted? =
      p.trace.filterMap Entry.returned? ++ p.activity.atWork m.path := by
  cases h with
  | refused hp | fanned hp =>
    rw [atWork, hp]
    rfl
  | begun hp hs hg ho =>
    rw [atWork, hp, List.nil_append, List.filterMap_cons_none rfl, List.filterMap_cons_none rfl]
    exact ho.submitted
  | looked hp ht =>
    obtain ⟨hsub, hret⟩ := ht.submitted a.stage a.fan a.branches
    rw [atWork, hp, hsub]
    exact hret
  | joined hp hf hb he hj hl =>
    rw [submitted?_joiningEntries, returned?_joiningEntries, atWork, atWork, hp]
  | failed hp hf hb he hj hl hr =>
    rw [List.filterMap_append, List.filterMap_append, submitted?_joiningEntries, returned?_joiningEntries,
      atWork, hp]
    rfl
  | gathered hp hf hb he hj hl hr ho =>
    rw [List.filterMap_append, List.filterMap_append, submitted?_joiningEntries, returned?_joiningEntries,
      atWork, hp]
    exact ho.submitted

/-- An act leaves the units below the stage as they are. -/
theorem Acted.inFlight_below (h : Acted s m w a x p) (ha : a.Coherent) (path : List String) :
    (p.activity.branches.flatMap fun b => b.inFlight (path ++ [b.stage.name])) =
      a.branches.flatMap fun b => b.inFlight (path ++ [b.stage.name]) := by
  cases h with
  | refused | begun | looked => rfl
  | fanned hp hs hg hne => simp [ha.single (ha.waiting hp), List.flatMap_map]
  | joined | failed | gathered => exact joiningBranches_inFlight a path _ _

/-- The units that are at work after a step or return in it were at work before or are submitted in it. -/
theorem Stepped.inFlight_perm (h : Stepped s x a m w p) (ha : a.Sound) :
    (p.activity.inFlight m.path ++ p.trace.filterMap Entry.returned?).Perm
      (p.trace.filterMap Entry.submitted? ++ a.inFlight m.path) := by
  induction h with
  | @here a m w p h =>
    rw [inFlight_eq, inFlight_eq, h.inFlight_below ha.here]
    refine List.perm_append_comm.trans ?_
    rw [← List.append_assoc, ← List.append_assoc, ← h.submitted]
    exact List.perm_append_comm.append_right _
  | @branch a b m w p f i hp hf hb h ih =>
    have hown (c : Activity U) (hc : c.phase = .fanned) : c.atWork m.path = [] := by rw [atWork, hc]
    rw [inFlight_eq, inFlight_eq, hown a hp, hown _ (by exact hp), List.nil_append, List.nil_append]
    refine flatMap_set_perm hb ?_
    rw [h.stage_eq]
    exact ih (ha.branch (List.mem_of_getElem? hb))

end Steps

end Activity

end StageTree
