import Mathlib.Order.Lattice
import StageTree.Proofs.Activity.Predict

/-! What is heard of units. An act of a stage asks the runner at most once: it submits the unit of the stage, or
has it looked at. Nothing but what is heard of the unit then goes into the journal of a runner that follows
scripts. -/

namespace StageTree

variable {W U : Type}

/-- What is heard of a unit: that it is submitted, under a live scope or a cancelled one, and what it returns. -/
inductive Remark where
  | submitted (live : Bool)
  | returned (result : UnitResult)

namespace Remark

@[simp] def isSubmission : Remark → Bool
  | submitted _ => true
  | returned _ => false

/-- Whether a unit starts. One that is submitted under a cancelled scope does not. -/
@[simp] def isStart : Remark → Bool
  | submitted live => live
  | returned _ => false

@[simp] def isRefusal : Remark → Bool
  | submitted live => !live
  | returned _ => false

@[simp] def isReturn : Remark → Bool
  | submitted _ => false
  | returned _ => true

@[simp] def isCompletion : Remark → Bool
  | returned (.ok _) => true
  | _ => false

@[simp] def isFailure : Remark → Bool
  | returned (.error e) => !e.isCancellation
  | _ => false

@[simp] def isCancellation : Remark → Bool
  | returned (.error e) => e.isCancellation
  | _ => false

end Remark

/-- What is heard of units, each with the path of its stage, in order. -/
abbrev Diary := List (List String × Remark)

namespace Diary

/-- The paths of the stages of whose units remarks of a kind are heard. -/
def paths (kind : Remark → Bool) (d : Diary) : List (List String) := (d.filter (kind ·.2)).map Prod.fst

def names (kind : Remark → Bool) (d : Diary) : List String := (d.paths kind).map (·.getLastD "")

def about (path : List String) (d : Diary) : List Remark := (d.filter (·.1 == path)).map Prod.snd

variable (kind : Remark → Bool) (d d' : Diary)

@[simp] theorem paths_nil : paths kind [] = [] := rfl

@[simp] theorem paths_cons (x : List String × Remark) :
    paths kind (x :: d) = if kind x.2 then x.1 :: paths kind d else paths kind d := by
  rw [paths, List.filter_cons]
  split <;> rfl

@[simp] theorem paths_append : paths kind (d ++ d') = paths kind d ++ paths kind d' := by
  simp [paths]

theorem names_cons (x : List String × Remark) :
    names kind (x :: d) = if kind x.2 then x.1.getLastD "" :: names kind d else names kind d := by
  rw [names, paths_cons]
  split <;> rfl

theorem names_append : names kind (d ++ d') = names kind d ++ names kind d' := by simp [names]

theorem about_append (path : List String) : about path (d ++ d') = about path d ++ about path d' := by
  simp [about]

/-- The names of one kind are those of two others that it consists of. -/
theorem names_perm {kind kind₁ kind₂ : Remark → Bool} (hor : ∀ r, kind r = (kind₁ r || kind₂ r))
    (hand : ∀ r, kind₁ r = true → kind₂ r = false) (d : Diary) :
    (names kind₁ d ++ names kind₂ d).Perm (names kind d) := by
  induction d with
  | nil => exact .refl _
  | cons x d ih =>
    simp only [names_cons, hor]
    cases h₁ : kind₁ x.2 with
    | true => simpa [hand _ h₁] using ih
    | false =>
      cases h₂ : kind₂ x.2 with
      | true => simpa using List.perm_middle.trans (ih.cons _)
      | false => simpa using ih

/-- The units that are submitted are those that start and those that are refused. -/
theorem names_submission_perm :
    (names Remark.isStart d ++ names Remark.isRefusal d).Perm (names Remark.isSubmission d) := by
  refine names_perm (fun r => ?_) (fun r => ?_) d
  all_goals cases r <;> simp

/-- The units that return have completed, failed, or been cancelled. -/
theorem names_return_perm : (names Remark.isCompletion d ++ names Remark.isFailure d ++
    names Remark.isCancellation d).Perm (names Remark.isReturn d) := by
  have hended : (names Remark.isCompletion d ++ names Remark.isFailure d).Perm
      (names (fun r => r.isCompletion || r.isFailure) d) :=
    names_perm (fun _ => rfl) (by rintro (live | ⟨lines | e⟩) <;> simp) d
  refine (hended.append_right _).trans (names_perm ?_ ?_ d)
  all_goals rintro (live | ⟨e | lines⟩) <;> simp

end Diary

/-- What is heard of a unit whose stage is at a path when it is looked at. -/
def Turn.heard (path : List String) (t : Turn W U) : Diary :=
  match t.progress with
  | .waits _ => []
  | .returns result => [(path, .returned result)]

/-- What an entry tells of a unit, where it is known around which stages the scope is live. -/
def Entry.remark? (live : List String → Bool) (e : Entry) : Option (List String × Remark) :=
  match e.what with
  | .submitted _ => some (e.path, .submitted (live e.path))
  | .returned result => some (e.path, .returned result)
  | _ => none

namespace Activity

variable {s : Setting W U} {m : Moment} {w : W} {a : Activity U} {x : Act} {p : Played W U}

/-- How an act asks the runner, with what is heard of the unit and the world that is left. -/
inductive Asked (s : Setting W U) (m : Moment) (w : W) (a : Activity U) : Diary → W → Prop
  | silent : Asked s m w a [] w
  | submitted {t : Turn W U} (ht : s.runner.start (.ofStage a.stage s.vars) m.look w = t) :
      Asked s m w a ((m.path, .submitted m.scope.isNone) :: t.heard m.path) t.world
  | looked {u : U} {t : Turn W U} (hp : a.phase = .working u) (ht : s.runner.look u m.look w = t) :
      Asked s m w a (t.heard m.path) t.world

variable {live : List String → Bool}

theorem Taken.heard {since : Nat} {t : Turn W U} {phase : Phase U} {w' : W} {trace : List Entry}
    (h : Taken m since t phase w' trace) (live : List String → Bool) :
    trace.filterMap (Entry.remark? live) = t.heard m.path ∧ w' = t.world := by
  have hnotes := m.filterMap_noted (show ∀ n, Entry.remark? live (m.entry (.noted n)) = none from fun _ => rfl)
  cases h with
  | waits w notes u => exact ⟨hnotes notes, rfl⟩
  | returns w notes r =>
    rw [List.filterMap_append, hnotes]
    exact ⟨rfl, rfl⟩

theorem Onward.asked {since : Nat} {phase : Phase U} {w' : W} {trace : List Entry}
    (h : Onward s m a.stage since w phase w' trace) (hlive : live m.path = m.scope.isNone) :
    Asked s m w a (trace.filterMap (Entry.remark? live)) w' := by
  cases h with
  | idle => exact .silent
  | unit _ ht =>
    obtain ⟨hheard, rfl⟩ := ht.heard live
    rw [List.filterMap_cons_some (f := Entry.remark? live) rfl, hheard]
    show Asked s m w a ((m.path, .submitted (live m.path)) :: _) _
    rw [hlive]
    exact .submitted rfl

theorem remark?_joiningEntries (f : Fan) (r : Report Results) :
    (a.joiningEntries f r m).filterMap (Entry.remark? live) = [] := by
  rw [joiningEntries]
  split <;> rfl

/-- An act asks the runner at most once, and tells what is heard then. -/
theorem Acted.asked (h : Acted s m w a x p) (hlive : live m.path = m.scope.isNone) :
    Asked s m w a (p.trace.filterMap (Entry.remark? live)) p.world := by
  cases h with
  | refused | fanned => exact .silent
  | begun _ _ _ ho =>
    rw [List.filterMap_cons_none rfl]
    exact ho.asked hlive
  | looked hp ht =>
    obtain ⟨hheard, rfl⟩ := ht.heard live
    rw [hheard]
    exact .looked hp rfl
  | joined =>
    rw [remark?_joiningEntries]
    exact .silent
  | failed =>
    rw [List.filterMap_append, remark?_joiningEntries]
    exact .silent
  | gathered _ _ _ _ _ _ _ ho =>
    rw [List.filterMap_append, remark?_joiningEntries, List.nil_append]
    exact ho.asked hlive

end Activity

/-! ### Units that are waited for -/

/-- A runner that keeps, as long as it waits for a unit, the unit that it was handed. -/
structure Runner.Carries (R : Runner W U) (unitOf : U → UnitOfWork) : Prop where
  start : ∀ {unit l w u}, (R.start unit l w).progress = .waits u → unitOf u = unit
  look : ∀ {u l w v}, (R.look u l w).progress = .waits v → unitOf v = unitOf u

namespace Activity

variable {s : Setting W U} {unitOf : U → UnitOfWork} {vars : Bindings} {m : Moment} {a : Activity U}

/-- A stage whose runner keeps the unit of the stage. -/
def Carries (unitOf : U → UnitOfWork) (vars : Bindings) (a : Activity U) : Prop :=
  ∀ u, a.phase = .working u → unitOf u = .ofStage a.stage vars

theorem Taken.carries {since : Nat} {t : Turn W U} {phase : Phase U} {w' : W} {trace : List Entry}
    (h : Taken m since t phase w' trace) (ht : ∀ u, t.progress = .waits u → unitOf u = .ofStage a.stage vars) :
    Carries unitOf vars { a with phase := phase } := by
  cases h with
  | waits w notes u =>
    intro v hv
    obtain rfl := Phase.working.inj hv
    exact ht u rfl
  | returns w notes r => exact fun _ hv => by cases hv

theorem persistent_carries (hR : s.runner.Carries unitOf) : Persistent s (Carries unitOf s.vars) where
  congr hs hp h u hu := by
    rw [hs]
    exact h u (hp.symm.trans hu)
  ofStage st u hu := by cases hu
  acted {m w a x p} h _ ha := by
    have onward {since : Nat} {phase : Phase U} {w' : W} {trace : List Entry} {b : Activity U}
        (ho : Onward s m b.stage since w phase w' trace) : Carries unitOf s.vars { b with phase := phase } := by
      cases ho with
      | idle => exact fun _ hu => by cases hu
      | unit _ ht => exact ht.carries fun _ hu => hR.start hu
    cases h with
    | refused | fanned | failed => exact fun _ hu => by cases hu
    | begun _ _ _ ho => exact onward (b := { a with since := m.now }) ho
    | looked hp ht => exact ht.carries fun _ hv => (hR.look hv).trans (ha.here _ hp)
    | joined hp => exact fun _ hu => absurd (hp.symm.trans hu) (by simp)
    | gathered _ _ _ _ _ _ _ ho => exact onward (b := { a with }) ho

end Activity

/-! ### Journals -/

namespace Journal

/-- What a journal becomes when something is heard of units. -/
structure Hears (heard : Diary) (j j' : Journal) : Prop where
  started : j'.started = j.started ++ heard.names Remark.isStart
  completed : j'.completed = j.completed ++ heard.names Remark.isCompletion
  failed : j'.failed = j.failed ++ heard.names Remark.isFailure
  cancelled : j'.cancelled = j.cancelled ++ heard.names Remark.isCancellation
  /-- A unit that is submitted under a cancelled scope is cancelled at once. -/
  refused : ∀ path, (path, .submitted false) ∈ heard →
    ∃ e, e.isCancellation = true ∧ (path, .returned (.error e)) ∈ heard
  running : j'.running = j.running + (heard.paths Remark.isSubmission).length - (heard.paths Remark.isReturn).length
  maxRunning : j'.maxRunning ≤ max j.maxRunning (j.running + (heard.paths Remark.isSubmission).length)

variable {j j' : Journal} {path : List String} {name : String} {heard : Diary}

theorem Hears.nil (j : Journal) : j.Hears [] j := by
  constructor <;> simp [Diary.names]

theorem hears_complete (hname : path.getLastD "" = name) (lines : List String) :
    j.Hears [(path, .returned (.ok lines))] (j.complete name) := by
  subst hname
  constructor <;> simp [complete, Diary.names]

theorem hears_fail (hname : path.getLastD "" = name) {e : RunError} (he : e.isCancellation = false) :
    j.Hears [(path, .returned (.error e))] (j.fail name) := by
  subst hname
  constructor <;> simp [fail, Diary.names, he]

theorem hears_abandon (hname : path.getLastD "" = name) {e : RunError} (he : e.isCancellation = true) :
    j.Hears [(path, .returned (.error e))] (j.abandon name) := by
  subst hname
  constructor <;> simp [abandon, Diary.names, he]

theorem hears_refuse (hname : path.getLastD "" = name) {e : RunError} (he : e.isCancellation = true) :
    j.Hears [(path, .submitted false), (path, .returned (.error e))] (j.refuse name) := by
  subst hname
  constructor <;> simp [refuse, Diary.names, he]

/-- A unit starts before anything else is heard of it. -/
theorem Hears.enter (hname : path.getLastD "" = name) (h : (j.enter name).Hears heard j') :
    j.Hears ((path, .submitted true) :: heard) j' where
  started := by simp [h.started, Journal.enter, Diary.names, ← hname]
  completed := by simp [h.completed, Journal.enter, Diary.names]
  failed := by simp [h.failed, Journal.enter, Diary.names]
  cancelled := by simp [h.cancelled, Journal.enter, Diary.names]
  refused path' hmem := by
    obtain ⟨e, he, hreturned⟩ := h.refused path' (by simpa using hmem)
    exact ⟨e, he, List.mem_cons_of_mem _ hreturned⟩
  running := by
    have hrunning := h.running
    simp only [Journal.enter] at hrunning
    simp
    omega
  maxRunning := by
    have hmax := h.maxRunning
    simp only [Journal.enter] at hmax
    simp
    omega

end Journal

namespace Script

variable {path : List String}

theorem finish_hears (s : Script) {unit : UnitOfWork} (hname : path.getLastD "" = unit.name) (j : Journal) :
    j.Hears ((s.finish unit j).heard path) (s.finish unit j).world := by
  unfold finish
  split
  · exact Journal.hears_fail hname rfl
  · exact Journal.hears_complete hname _

theorem start_hears (s : Script) {unit : UnitOfWork} (hname : path.getLastD "" = unit.name) (l : Look)
    (j : Journal) :
    j.Hears ((path, .submitted l.cancelled.isNone) :: (s.start unit l j).heard path) (s.start unit l j).world := by
  unfold start
  split
  · rename_i reason hl
    rw [hl]
    exact Journal.hears_refuse hname rfl
  · rename_i hl
    rw [hl]
    split
    · exact .enter hname (s.finish_hears hname _)
    · exact .enter hname (.nil _)

theorem look_hears {a : Asleep} (hname : path.getLastD "" = a.unit.name) (l : Look) (j : Journal) :
    j.Hears ((look a l j).heard path) (look a l j).world := by
  unfold look
  split
  · exact Journal.hears_abandon hname rfl
  · split
    · exact a.script.finish_hears hname j
    · exact .nil j

end Script

namespace Activity

variable {scriptOf : String → Script} {vars : Bindings} {m : Moment} {w : Journal} {a : Activity Asleep} {x : Act}
  {p : Played Journal Asleep}

/-- A stage whose unit has its name. -/
def Named (a : Activity Asleep) : Prop := ∀ u, a.phase = .working u → u.unit.name = a.stage.name

theorem finish_ne_waits (s : Script) (unit : UnitOfWork) (j : Journal) (u : Asleep) :
    (s.finish unit j).progress ≠ .waits u := by
  unfold Script.finish
  split <;> simp

theorem start_waits {s : Script} {unit : UnitOfWork} {l : Look} {j : Journal} {u : Asleep}
    (h : (s.start unit l j).progress = .waits u) : u.unit = unit := by
  unfold Script.start at h
  split at h
  · cases h
  · split at h
    · exact absurd h (finish_ne_waits _ _ _ _)
    · cases h
      rfl

theorem look_waits {u v : Asleep} {l : Look} {j : Journal} (h : (Script.look u l j).progress = .waits v) :
    v = u := by
  unfold Script.look at h
  split at h
  · cases h
  · split at h
    · exact absurd h (finish_ne_waits _ _ _ _)
    · cases h
      rfl

theorem carries_scripted (scriptOf : String → Script) (vars : Bindings) :
    (Setting.scripted scriptOf vars).runner.Carries Asleep.unit where
  start h := start_waits h
  look h := congrArg Asleep.unit (look_waits h)

theorem Carries.named (h : a.Carries Asleep.unit vars) : a.Named := fun u hu => congrArg UnitOfWork.name (h u hu)

/-- The journal of a runner that follows scripts takes down what is heard of the units. -/
theorem Acted.hears (h : Acted (.scripted scriptOf vars) m w a x p) (ha : a.Named)
    (hpath : m.path.getLastD "" = a.stage.name) {live : List String → Bool} (hlive : live m.path = m.scope.isNone) :
    w.Hears (p.trace.filterMap (Entry.remark? live)) p.world := by
  have hasked := h.asked hlive
  generalize p.trace.filterMap (Entry.remark? live) = heard, p.world = w' at hasked ⊢
  cases hasked with
  | silent => exact .nil w
  | submitted ht => exact ht ▸ Script.start_hears _ hpath m.look w
  | looked hp ht => exact ht ▸ Script.look_hears (hpath.trans (ha _ hp).symm) m.look w

end Activity

end StageTree
